import Vtfs.Model.CacheManager
import Vtfs.Model.TorrentMetadata
import Vtfs.Model.WebSeedClient
import Mathlib.Data.List.DropRight
import Mathlib.Logic.Function.Basic

/-!
# The torrent session: the index of paths, and reads

`buildIndex` makes one entry for each file record and one for each directory above it.  Paths are
normalized texts; the directories of a file are spelled out segment by segment, and a file is
listed under the part of its path before the last slash.  Indices are 32-bit.
-/

set_option autoImplicit false

namespace Vtfs.Model

open Vtfs.Library
open Vtfs.Library.PosixPath (slash)

/-! ## Paths -/

/-- The directory part of a path.
SRCLINE: TorrentSession.cpp:15-21 -/
def parentPathOf (path : Bytes) : Bytes :=
  match beforeLast slash path with
  | none => [slash]
  | some [] => [slash]
  | some front => front

/-- `while (out.size() > 1 && out.back() == '/') out.pop_back();` -/
def dropTrailingSlashes : Bytes → Bytes
  | [] => []
  | c :: cs => c :: cs.rdropWhile (· = slash)

/-- A path with slashes only, one in front and none at the end.
SRCLINE: TorrentSession.cpp:204-220 -/
def normalizePath (path : Bytes) : Bytes :=
  if path = [] ∨ path = [slash] then [slash]
  else
    let front := if path.head? ≠ some slash then [slash] else []
    dropTrailingSlashes (front ++ path.map fun ch => if ch = byte '\\' then slash else ch)

/-! ## The index -/

/-- An entry of the index. -/
structure FileEntry where
  virtualPath : Bytes
  size : UInt64
  offset : UInt64
  index : Int32
  isDirectory : Bool
  deriving DecidableEq

/-- The maps `entries_` and `children_`, and the directories seen so far.  A path without
children is one with an empty list. -/
structure Index where
  entries : Bytes → Option FileEntry
  children : Bytes → List FileEntry
  seenDirectories : List Bytes

/-- The entry of a directory. -/
def dirEntry (path : Bytes) : FileEntry := ⟨path, 0, 0, -1, true⟩

/-- The entry of the file record number `i`. -/
def fileEntry (record : TorrentFileRecord) (i : ℕ) : FileEntry :=
  ⟨normalizePath record.relativePath, record.size, record.offset, Int32.ofNat i, false⟩

namespace Index

/-- `entries_[path] = entry`. -/
def setEntry (s : Index) (path : Bytes) (entry : FileEntry) : Index :=
  { s with entries := Function.update s.entries path (some entry) }

/-- `children_[path].push_back(entry)`. -/
def pushChild (s : Index) (path : Bytes) (entry : FileEntry) : Index :=
  { s with children := Function.update s.children path (s.children path ++ [entry]) }

/-- The index with the root only. -/
def initial : Index where
  entries := Function.update (fun _ => none) [slash] (some (dirEntry [slash]))
  children := fun _ => []
  seenDirectories := [[slash]]

/-- A directory is entered unless it was seen before. -/
def addDirectory (s : Index) (current : Bytes) : Index :=
  if current ∈ s.seenDirectories then s
  else
    (({ s with seenDirectories := s.seenDirectories ++ [current] }).setEntry current
      (dirEntry current)).pushChild (parentPathOf current) (dirEntry current)

/-- The variables of the loop over the characters of a path. -/
structure Scan where
  current : Bytes
  segment : Bytes
  index : Index

/-- One round of that loop. -/
def scanChar (t : Scan) (ch : UInt8) : Scan :=
  if ch = slash then
    if t.segment ≠ [] then
      let current := (if 1 < t.current.length then t.current ++ [slash] else t.current) ++ t.segment
      { current, segment := [], index := t.index.addDirectory current }
    else t
  else { t with segment := t.segment ++ [ch] }

/-- One round of the loop over the records. -/
def addRecord (s : Index) (record : TorrentFileRecord) (i : ℕ) : Index :=
  let path := normalizePath record.relativePath
  let entered := s.setEntry path (fileEntry record i)
  let scanned := path.tail.foldl scanChar ⟨[slash], [], entered⟩
  scanned.index.pushChild (parentPathOf path) (fileEntry record i)

end Index

/-- The index of the files of a torrent.
SRCLINE: TorrentSession.cpp:164-202 -/
def buildIndex (files : List TorrentFileRecord) : Index :=
  files.zipIdx.foldl (fun s entry => s.addRecord entry.1 entry.2) Index.initial

/-- The entry of a path.
SRCLINE: TorrentSession.cpp:58-65 -/
def lookup (s : Index) (path : Bytes) : Option FileEntry := s.entries (normalizePath path)

/-- The entries listed under a path.
SRCLINE: TorrentSession.cpp:67-74 -/
def listDirectory (s : Index) (path : Bytes) : List FileEntry := s.children (normalizePath path)

/-! ## Reads -/

/-- Where the payload of an entry is kept, with the paths of a POSIX build: the preferred separator
is the slash, so the loop that puts it in place of slashes changes nothing.
SRCLINE: TorrentSession.cpp:76-87 -/
def payloadPathFor (cacheDirectory : Bytes) (entry : FileEntry) : Bytes :=
  let relative :=
    if entry.virtualPath.head? = some slash then entry.virtualPath.tail else entry.virtualPath
  PosixPath.append (PosixPath.append cacheDirectory (bytes "payload"))
    (relative.map fun ch => if ch = slash then slash else ch)

/-- A download of an entry is wanted: the virtual paths of the downloads in flight after that, and
the destination of the download when one is started.  `exists` and the start of the thread, which
may throw, return here.
SRCLINE: TorrentSession.cpp:140-162 -/
def ensureWebSeedDownload (c : WebSeedClient) (disk : Disk) (inFlight : List Bytes)
    (cacheDirectory : Bytes) (entry : FileEntry) : List Bytes × Option Bytes :=
  if entry.isDirectory ∨ ¬ c.enabled then (inFlight, none)
  else
    let destination := payloadPathFor cacheDirectory entry
    if (disk destination).isSome then (inFlight, none)
    else if entry.virtualPath ∈ inFlight then (inFlight, none)
    else (inFlight ++ [entry.virtualPath], some destination)

/-- What `tryReadFileRange` gives: its result, the `bytesRead` bytes that it put into the buffer,
and whether it asked for a download of the file. -/
structure FileRead where
  ready : Bool
  data : Bytes
  wantsDownload : Bool
  deriving DecidableEq

/-- A part of a file is read from its payload.  `opens` is whether a file that is there can be
opened.  An offset of `2 ^ 63` or more is negative as a `std::streamoff`: the stream is not moved
and nothing is read.  `exists`, which may throw, returns here.
SRCLINE: TorrentSession.cpp:89-115 -/
def tryReadFileRange (disk : Disk) (opens : Bool) (cacheDirectory : Bytes) (entry : FileEntry)
    (offset : UInt64) (bytesToRead : UInt32) : FileRead :=
  if entry.isDirectory ∨ entry.size ≤ offset then ⟨true, [], false⟩
  else
    let available := (min bytesToRead.toUInt64 (entry.size - offset)).toUInt32
    match disk (payloadPathFor cacheDirectory entry) with
    | none => ⟨false, [], true⟩
    | some payload =>
        if ¬ opens then ⟨false, [], false⟩
        else if 2 ^ 63 ≤ offset.toNat then ⟨true, [], false⟩
        else ⟨true, (payload.drop offset.toNat).take available.toNat, false⟩

/-- What a read does outside the cache manager. -/
inductive ReadEffect where
  | remove (removal : Removal)
  | ensureWebSeedDownload (entry : FileEntry)
  | requestFileData (index : Int32) (offset : UInt64) (length : UInt32)
  | pumpOnce
  deriving DecidableEq

/-- A read of a file is queued: the cache manager after it, and what it did, in order.  The
session has been started, so there is an engine.
SRCLINE: TorrentSession.cpp:121-133 -/
def queueRead (cacheManager : CacheManager) (entry : FileEntry) (offset : UInt64)
    (length : UInt32) : CacheManager × List ReadEffect :=
  if entry.isDirectory ∨ length = 0 ∨ entry.size ≤ offset then (cacheManager, [])
  else
    let touched := cacheManager.touch entry.virtualPath entry.size
    let (evicted, removals) := touched.evictIfNeeded
    (evicted, removals.map .remove ++ [.ensureWebSeedDownload entry,
      .requestFileData entry.index offset length, .pumpOnce])

/-- `kInitialStreamWindow`. -/
def initialStreamWindow : UInt32 := 1024 * 1024

/-- `kSequentialReadAheadWindow`. -/
def sequentialReadAheadWindow : UInt32 := 2 * 1024 * 1024

/-- The length that is asked for when a length is wanted.
SRCLINE: TorrentSession.cpp:23-32 -/
def clampStreamWindow (entry : FileEntry) (offset : UInt64) (requestedLength : UInt32) : UInt32 :=
  if entry.size ≤ offset then 0
  else
    let remaining := entry.size - offset
    let desired := if requestedLength = 0 then initialStreamWindow
      else max requestedLength sequentialReadAheadWindow
    (min remaining desired.toUInt64).toUInt32

/-- Whether a download is in flight for an entry.
SRCLINE: TorrentSession.cpp:135-138 -/
def isHydrating (inFlight : List Bytes) (entry : FileEntry) : Bool := entry.virtualPath ∈ inFlight

end Vtfs.Model
