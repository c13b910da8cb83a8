import Vtfs.Interface.Hydration

/-!
# The requests that reads make

`beginStreaming` widens what is asked for to a window.  The window stays within the file of the
entry (`FitsFile`), which `pumpOnce` relies on when it indexes the files.
-/

set_option autoImplicit false

namespace Vtfs.Interface

open Vtfs.Library
open Vtfs.Model

/-- The request is for bytes of a file of the torrent, as natural numbers. -/
structure FitsFile (files : List TorrentFileRecord) (request : StreamRequest) : Prop where
  index : 0 ≤ request.fileIndex.toInt
  length : 0 < request.length.toNat
  range : ∃ file, files[request.fileIndex.toInt.toNat]? = some file ∧
    request.offset.toNat + request.length.toNat ≤ file.size.toNat

/-- Reads are queued by `beginStreaming` only, on entries of the index. -/
def StreamsEntries (files : List TorrentFileRecord) (_ : TorrentSession) : Action → Prop
  | .queueRead _ _ _ _ => False
  | .beginStreaming _ entry _ _ => IsEntry (buildIndex files) entry
  | .tryReadFileRange _ _ _ | .proceed _ _ => True

end Vtfs.Interface
