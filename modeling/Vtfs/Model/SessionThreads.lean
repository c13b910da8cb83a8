import Vtfs.Model.TorrentEngine
import Vtfs.Model.TorrentSession

/-!
# The threads of a session

`queueRead`, `tryReadFileRange` and the downloads run in any number of threads.  What a thread does
under one lock, or in one call of the file system, is one step; the steps of other threads come in
between.  A `Location` is the place in the code where a thread is.  Here every call returns;
`SessionProcess` has the exceptions of those that may throw.
-/

set_option autoImplicit false

namespace Vtfs.Model

open Vtfs.Library

/-- The fields of the configuration that a session reads. -/
structure Config where
  cacheSizeBytes : UInt64
  cacheDirectory : Bytes
  webSeedBaseUrl : Bytes

/-- What a thread does next.  In `ensureWebSeedDownload` there is also what it does after that:
`queueRead` goes on with a request, and `tryReadFileRange` returns. -/
inductive Location where
  | touch (entry : FileEntry) (request : StreamRequest)
  | evictIfNeeded (entry : FileEntry) (request : StreamRequest)
  | findFile (entry : FileEntry)
  | ensureWebSeedDownload (entry : FileEntry) (request : Option StreamRequest)
  | insert (entry : FileEntry) (request : Option StreamRequest)
  | spawn (entry : FileEntry) (request : Option StreamRequest)
  | requestFileData (request : StreamRequest)
  | pumpOnce
  | downloadFile (entry : FileEntry)
  | erase (entry : FileEntry)
  deriving DecidableEq

/-- A session that has been started, the files, and the threads. -/
structure TorrentSession where
  cacheDirectory : Bytes
  webSeedClient : WebSeedClient
  cacheManager : CacheManager
  engine : TorrentEngine
  webSeedInFlight : List Bytes
  disk : Disk
  threads : ℕ → Option Location

/-- What is outside: which removals succeed, the thread that is made, the answers to the engine,
and those to a download. -/
structure Outside where
  removes : Removal → Bool
  thread : ℕ
  announced : Option (List TrackerPeer)
  peers : PeerNetwork
  network : Network
  fileSystem : FileSystem

/-- Removals, one after the other. -/
def removeAll (removes : Removal → Bool) (disk : Disk) (removals : List Removal) : Disk :=
  removals.foldl (fun files removal => removeFile (removes removal) files removal.path) disk

namespace TorrentSession

/-- A session after `start`, before any read.
SRCLINE: TorrentSession.cpp:35-48 -/
def start (config : Config) (metadata : TorrentMetadata) (disk : Disk) : TorrentSession where
  cacheDirectory := config.cacheDirectory
  webSeedClient := ⟨config.webSeedBaseUrl⟩
  cacheManager := CacheManager.create config.cacheDirectory config.cacheSizeBytes
  engine := (TorrentEngine.create metadata).start
  webSeedInFlight := []
  disk := disk
  threads := fun _ => none

/-- A thread is somewhere else, or done. -/
def moveTo (s : TorrentSession) (t : ℕ) (location : Option Location) : TorrentSession :=
  { s with threads := Function.update s.threads t location }

/-- `std::filesystem::exists` for the payload file of an entry. -/
def hasFile (s : TorrentSession) (entry : FileEntry) : Bool :=
  (s.disk (payloadPathFor s.cacheDirectory entry)).isSome

/-- A thread calls `queueRead`.
SRCLINE: TorrentSession.cpp:121-124 -/
def queueRead (s : TorrentSession) (t : ℕ) (entry : FileEntry) (offset : UInt64) (length : UInt32) :
    TorrentSession :=
  if entry.isDirectory ∨ length = 0 ∨ entry.size ≤ offset then s
  else s.moveTo t (some (.touch entry ⟨entry.index, offset, length⟩))

/-- A thread calls `beginStreaming`.
SRCLINE: TorrentSession.cpp:117-119 -/
def beginStreaming (s : TorrentSession) (t : ℕ) (entry : FileEntry) (offset : UInt64)
    (length : UInt32) : TorrentSession :=
  s.queueRead t entry offset (clampStreamWindow entry offset length)

/-- A thread calls `tryReadFileRange`.  The bytes that are read when there is a file are left out.
SRCLINE: TorrentSession.cpp:89-97 -/
def tryReadFileRange (s : TorrentSession) (t : ℕ) (entry : FileEntry) (offset : UInt64) :
    TorrentSession :=
  if entry.isDirectory ∨ entry.size ≤ offset then s else s.moveTo t (some (.findFile entry))

/-- The next step of a thread, from its location.
SRCLINE: TorrentSession.cpp:100-104, TorrentSession.cpp:126-132, TorrentSession.cpp:140-162 -/
def proceed (s : TorrentSession) (t : ℕ) (outside : Outside) : Location → Option TorrentSession
  | .touch entry request =>
      some ({ s with cacheManager := s.cacheManager.touch entry.virtualPath entry.size }.moveTo t
        (some (.evictIfNeeded entry request)))
  | .evictIfNeeded entry request =>
      let (cacheManager, removals) := s.cacheManager.evictIfNeeded
      some ({ s with cacheManager, disk := removeAll outside.removes s.disk removals }.moveTo t
        (some (.ensureWebSeedDownload entry (some request))))
  | .findFile entry =>
      if s.hasFile entry then some (s.moveTo t none)
      else some (s.moveTo t (some (.ensureWebSeedDownload entry none)))
  | .ensureWebSeedDownload entry request =>
      if entry.isDirectory ∨ ¬ s.webSeedClient.enabled ∨ s.hasFile entry then
        some (s.moveTo t (request.map .requestFileData))
      else some (s.moveTo t (some (.insert entry request)))
  | .insert entry request =>
      if entry.virtualPath ∈ s.webSeedInFlight then
        some (s.moveTo t (request.map .requestFileData))
      else
        some ({ s with webSeedInFlight := s.webSeedInFlight ++ [entry.virtualPath] }.moveTo t
          (some (.spawn entry request)))
  | .spawn entry request =>
      -- the thread that is made is a new one
      if (s.threads outside.thread).isSome then none
      else
        some ((s.moveTo outside.thread (some (.downloadFile entry))).moveTo t
          (request.map .requestFileData))
  | .requestFileData request =>
      some ({ s with engine := s.engine.requestFileData request }.moveTo t (some .pumpOnce))
  | .pumpOnce =>
      match s.engine.pumpOnce outside.announced outside.peers with
      | .ok (engine, _) => some ({ s with engine }.moveTo t none)
      | .error _ => none
  | .downloadFile entry =>
      let (_, disk) := Model.downloadFile s.webSeedClient outside.network outside.fileSystem s.disk
        entry.virtualPath (payloadPathFor s.cacheDirectory entry)
      some ({ s with disk }.moveTo t (some (.erase entry)))
  | .erase entry =>
      some ({ s with webSeedInFlight := s.webSeedInFlight.filter (· ≠ entry.virtualPath) }.moveTo t
        none)

end TorrentSession

/-- A call by a thread, or the next step of one. -/
inductive Action where
  | queueRead (t : ℕ) (entry : FileEntry) (offset : UInt64) (length : UInt32)
  | beginStreaming (t : ℕ) (entry : FileEntry) (offset : UInt64) (length : UInt32)
  | tryReadFileRange (t : ℕ) (entry : FileEntry) (offset : UInt64)
  | proceed (t : ℕ) (outside : Outside)

/-- The session after an action.  A thread calls a function when it is in none, and goes on when it
is in one. -/
def TorrentSession.next (s : TorrentSession) : Action → Option TorrentSession
  | .queueRead t entry offset length =>
      if (s.threads t).isSome then none else some (s.queueRead t entry offset length)
  | .beginStreaming t entry offset length =>
      if (s.threads t).isSome then none else some (s.beginStreaming t entry offset length)
  | .tryReadFileRange t entry offset =>
      if (s.threads t).isSome then none else some (s.tryReadFileRange t entry offset)
  | .proceed t outside => (s.threads t).bind (s.proceed t outside)

end Vtfs.Model
