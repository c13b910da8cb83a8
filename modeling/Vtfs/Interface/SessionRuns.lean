import Vtfs.Interface.EngineInputs
import Vtfs.Interface.Hydration
import Vtfs.Interface.HttpResponse
import Vtfs.Interface.PayloadFiles
import Vtfs.Model.SessionProcess
import Vtfs.Library.Tallies

/-!
# What runs of a session lead to

Without new calls the threads come to an end (`AtRest`, and `Quiesced` when every thread could be
started), since each step leaves a thread fewer steps to take (`stepsLeft`).  `SeedHas` is a web
seed that has the contents of the files, and `HoldsContents` says that the payload files have
nothing else; `Arrives` is a run in which downloads succeed and files stay, and then the files that
were asked for are there in the end (`Readable`).
-/

set_option autoImplicit false

namespace Vtfs.Interface

open Vtfs.Library
open Vtfs.Library.PosixPath (StrictlyBelow normal)
open Vtfs.Model

/-! ## The end of a run -/

/-- The action is the next step of a thread. -/
def IsStep (a : Action) : Prop := ∃ t outside, a = .proceed t outside

/-- All threads are done, and no download is in flight. -/
structure Quiesced (s : TorrentSession) : Prop where
  threads : ∀ t, s.threads t = none
  inFlight : s.webSeedInFlight = []

/-- When the engine makes a connection to the first node, it gets a socket. -/
def FirstNodeAnswers (s : TorrentSession) : Action → Prop :=
  AtStep s fun outside location =>
    match location with
    | .pumpOnce => 0 ≤ outside.peers.connectSocket firstNode
    | _ => True

/-! ## The contents of the files -/

/-- The contents that a web seed has, by virtual path. -/
abbrev Contents : Type := Bytes → Bytes

/-- What is received for a file with an acceptable status line is all of its contents. -/
def SeedHas (contents : Contents) (s : TorrentSession) : Action → Prop :=
  AtStep s fun outside location =>
    match location with
    | .downloadFile entry =>
        ∀ response, responseOf (received outside.network.delivery) = some response →
          bytes "200" <:+: response.statusLine → response.body = contents entry.virtualPath
    | _ => True

/-- The files of a torrent that do not get in each other's way, with `.` and `..` followed: they lie
below the payload directory, no two entries have one payload file, none is where the `.part` file
of another is, and none is where a directory is needed.  For these a table of files by the texts of
their paths, which a `Disk` is, behaves as the files do. -/
structure FilesApart (cacheDirectory : Bytes) (files : List TorrentFileRecord) : Prop where
  confined : ∀ entry, IsFileEntry (buildIndex files) entry → Confined cacheDirectory entry
  places : ∀ entry other, IsFileEntry (buildIndex files) entry →
    IsFileEntry (buildIndex files) other → entry.virtualPath ≠ other.virtualPath →
      normal (payloadPathFor cacheDirectory entry) ≠
          normal (payloadPathFor cacheDirectory other) ∧
        normal (payloadPathFor cacheDirectory entry) ≠
          normal (partPathFor (payloadPathFor cacheDirectory other))
  directories : ∀ entry other, IsFileEntry (buildIndex files) entry →
    IsFileEntry (buildIndex files) other →
      ¬ StrictlyBelow (normal (payloadPathFor cacheDirectory entry))
          (normal (payloadPathFor cacheDirectory other)) ∧
        ¬ StrictlyBelow (normal (payloadPathFor cacheDirectory entry))
          (normal (partPathFor (payloadPathFor cacheDirectory other)))

/-- A payload file that is there has the contents of its file. -/
def HoldsContents (contents : Contents) (cacheDirectory : Bytes) (files : List TorrentFileRecord)
    (disk : Disk) : Prop :=
  ∀ entry, IsFileEntry (buildIndex files) entry → ∀ payload,
    disk (payloadPathFor cacheDirectory entry) = some payload →
      payload = contents entry.virtualPath

/-- The part of the contents that a read is for. -/
def partRead (contents : Contents) (entry : FileEntry) (offset : UInt64) (bytesToRead : UInt32) :
    Bytes :=
  ((contents entry.virtualPath).drop offset.toNat).take
    (min bytesToRead.toNat (entry.size.toNat - offset.toNat))

/-- A read of a file that is ready gives the part of the contents that it is for. -/
def ReadsContents (contents : Contents) (s : TorrentSession) (entry : FileEntry) : Prop :=
  ∀ opens offset bytesToRead, offset.toNat < 2 ^ 63 → offset < entry.size →
    (tryReadFileRange s.disk opens s.cacheDirectory entry offset bytesToRead).ready = true →
    (tryReadFileRange s.disk opens s.cacheDirectory entry offset bytesToRead).data =
      partRead contents entry offset bytesToRead

/-! ## Files that arrive -/

/-- The entries that reads asked for, with a place in them. -/
def recordAsked (_ : TorrentSession) (a : Action) (asked : List FileEntry) : List FileEntry :=
  match a with
  | .queueRead _ entry offset length =>
      if entry.isDirectory ∨ length = 0 ∨ entry.size ≤ offset then asked else asked ++ [entry]
  | .beginStreaming _ entry offset _ | .tryReadFileRange _ entry offset =>
      if entry.isDirectory ∨ entry.size ≤ offset then asked else asked ++ [entry]
  | .proceed _ _ => asked

/-- A download succeeds, and an eviction takes no file away. -/
def Arrives (s : TorrentSession) : Action → Prop :=
  AtStep s fun outside location =>
    match location with
    | .downloadFile entry => (downloadOf s outside entry).1 = true
    | .evictIfNeeded _ _ =>
        removeAll outside.removes s.disk s.cacheManager.evictIfNeeded.2 = s.disk
    | _ => True

/-- Every read of the entry is ready and gives the part of the contents that it is for. -/
def Readable (contents : Contents) (s : TorrentSession) (entry : FileEntry) : Prop :=
  ∀ offset bytesToRead, offset.toNat < 2 ^ 63 → offset < entry.size →
    tryReadFileRange s.disk true s.cacheDirectory entry offset bytesToRead =
      ⟨true, partRead contents entry offset bytesToRead, false⟩

end Vtfs.Interface
