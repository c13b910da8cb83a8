import Vtfs.Library.Bytes
import Vtfs.Library.Decimal
import Vtfs.Library.SortedMap
import Vtfs.Library.Fueled
import Vtfs.Library.BigEndian
import Vtfs.Library.BlockStream
import Vtfs.Library.Pieces
import Vtfs.Library.Markup
import Vtfs.Library.PercentEncoding
import Vtfs.Library.QueryStrings
import Vtfs.Library.Search
import Vtfs.Library.LineBlocks
import Vtfs.Library.PosixPath
import Vtfs.Library.LexicalPath
import Vtfs.Library.WindowsPath
import Vtfs.Library.Intervals
import Vtfs.Library.FirstWins
import Vtfs.Library.ParentTree
import Vtfs.Library.Runs
import Vtfs.Library.Tallies
import Vtfs.Library.Machines
import Vtfs.Library.Claims
import Vtfs.Library.Ledger
import Vtfs.Model.Bencode
import Vtfs.Model.BencodeMachine
import Vtfs.Model.Sha1
import Vtfs.Model.TorrentMetadata
import Vtfs.Model.PeerProtocol
import Vtfs.Model.PeerConnection
import Vtfs.Model.TorrentEngine
import Vtfs.Model.TrackerClient
import Vtfs.Model.DhtClient
import Vtfs.Model.CacheManager
import Vtfs.Model.WebSeedClient
import Vtfs.Model.TorrentSession
import Vtfs.Model.SessionThreads
import Vtfs.Model.SessionProcess
import Vtfs.Model.App
import Vtfs.Model.WebDavServer
import Vtfs.Model.AnswersOnWire
import Vtfs.Model.Mounting
import Vtfs.Model.VirtualDrive
import Vtfs.Interface.BencodeReading
import Vtfs.Interface.CanonicalBencode
import Vtfs.Interface.BencodeGrammar
import Vtfs.Interface.Sha1Standard
import Vtfs.Interface.DirectoryTree
import Vtfs.Interface.DirectorySkeleton
import Vtfs.Interface.PayloadFiles
import Vtfs.Interface.SharedStorage
import Vtfs.Interface.CacheHistories
import Vtfs.Interface.PeerHandshakes
import Vtfs.Interface.HttpResponse
import Vtfs.Interface.DownloadOutcomes
import Vtfs.Interface.FileUrls
import Vtfs.Interface.FileLayout
import Vtfs.Interface.HttpUrls
import Vtfs.Interface.TrackerResponses
import Vtfs.Interface.DhtQueries
import Vtfs.Interface.AnnounceRequests
import Vtfs.Interface.Mounting
import Vtfs.Interface.Arguments
import Vtfs.Interface.WebDavAddresses
import Vtfs.Interface.RequestSegments
import Vtfs.Interface.PropfindBody
import Vtfs.Interface.RangeHeaders
import Vtfs.Interface.FileServing
import Vtfs.Interface.ResponseFraming
import Vtfs.Interface.ChainedServers
import Vtfs.Interface.Crawling
import Vtfs.Interface.PeerStream
import Vtfs.Interface.EngineInputs
import Vtfs.Interface.ProjectedNames
import Vtfs.Interface.MaterializedPaths
import Vtfs.Interface.DirectoryEnumeration
import Vtfs.Interface.ProjectedReads
import Vtfs.Interface.StreamRequests
import Vtfs.Interface.BlockAddresses
import Vtfs.Interface.Hydration
import Vtfs.Interface.StreamWindows
import Vtfs.Interface.SessionRuns
import Vtfs.Analysis.BencodeAdequacy
import Vtfs.Analysis.BencodeProgress
import Vtfs.Analysis.BencodeMachine
import Vtfs.Analysis.ParserBounds
import Vtfs.Analysis.BencodeGrammar
import Vtfs.Analysis.BencodeRoundTrip
import Vtfs.Analysis.CanonicalEncoding
import Vtfs.Analysis.Sha1Streaming
import Vtfs.Analysis.MetadataLoading
import Vtfs.Analysis.InfoHash
import Vtfs.Analysis.PeerMessages
import Vtfs.Analysis.PeerFrames
import Vtfs.Analysis.PeerHandshakes
import Vtfs.Analysis.NormalizedPaths
import Vtfs.Analysis.SeparatorSpelling
import Vtfs.Analysis.SessionIndex
import Vtfs.Analysis.IndexLookup
import Vtfs.Analysis.Browsing
import Vtfs.Analysis.DirectorySkeleton
import Vtfs.Analysis.PayloadPaths
import Vtfs.Analysis.SharedStorage
import Vtfs.Analysis.Eviction
import Vtfs.Analysis.CacheHistories
import Vtfs.Analysis.WebSeedDownloads
import Vtfs.Analysis.DownloadOutcomes
import Vtfs.Analysis.FileUrls
import Vtfs.Analysis.HttpUrls
import Vtfs.Analysis.TrackerResponses
import Vtfs.Analysis.CompactPeers
import Vtfs.Analysis.FileLayout
import Vtfs.Analysis.WebDavAddresses
import Vtfs.Analysis.StoredPaths
import Vtfs.Analysis.RequestSegments
import Vtfs.Analysis.PropfindBody
import Vtfs.Analysis.RangeHeaders
import Vtfs.Analysis.FileServing
import Vtfs.Analysis.SocketWrites
import Vtfs.Analysis.ResponseFraming
import Vtfs.Analysis.ChainedServers
import Vtfs.Analysis.Crawling
import Vtfs.Analysis.ProjectedNames
import Vtfs.Analysis.MaterializedPaths
import Vtfs.Analysis.DhtQueries
import Vtfs.Analysis.AnnounceRequests
import Vtfs.Analysis.ServerLifetimes
import Vtfs.Analysis.Mounting
import Vtfs.Analysis.Arguments
import Vtfs.Analysis.DirectoryEnumeration
import Vtfs.Analysis.ProjectedReads
import Vtfs.Analysis.StreamRequests
import Vtfs.Analysis.PeerStream
import Vtfs.Analysis.EngineInputs
import Vtfs.Analysis.PieceVerification
import Vtfs.Analysis.BlockAddresses
import Vtfs.Analysis.SessionSteps
import Vtfs.Analysis.Hydration
import Vtfs.Analysis.RedundantDownloads
import Vtfs.Analysis.CacheTracking
import Vtfs.Analysis.StreamWindows
import Vtfs.Analysis.ThreadSteps
import Vtfs.Analysis.Quiescence
import Vtfs.Analysis.QueueDraining
import Vtfs.Analysis.HydratedReads
import Vtfs.Analysis.Fetches
import Vtfs.Analysis.Exploring
