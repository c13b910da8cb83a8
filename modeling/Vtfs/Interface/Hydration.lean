import Vtfs.Library.Claims
import Vtfs.Library.Runs
import Vtfs.Interface.WebDavAddresses
import Vtfs.Model.SessionThreads

/-!
# Hydration

A thread claims the download of an entry when it inserts the virtual path into `webSeedInFlight_`,
hands the claim on to the thread that it makes, and that thread erases the path at the end.  Claims
are exclusive (`HydrationsExclusive`) and stay with their owners (`KeepsClaims`).  Two more laws
are about the files: none that was published is downloaded again (`NoneRedundant`), and each is
known to the cache manager (`PublishedTracked`).
-/

set_option autoImplicit false

namespace Vtfs.Interface

open Vtfs.Library
open Vtfs.Model

/-! ## Claims -/

/-- The virtual path that a thread at this place has claimed: it is to make the thread of the
download, or is this thread. -/
def claimOf : Location → Option Bytes
  | .spawn entry _ | .downloadFile entry | .erase entry => some entry.virtualPath
  | _ => none

/-- The claims in a session: the paths in flight, and those that the threads have claimed. -/
def claimsOf (s : TorrentSession) : Claims Bytes ℕ where
  taken := s.webSeedInFlight
  held t := (s.threads t).bind claimOf

/-- At most one thread has claimed a virtual path, so no two run its download, and a path is in
flight when a thread has claimed it and not erased it yet. -/
structure HydrationsExclusive (s : TorrentSession) : Prop where
  one : ∀ t u key, (claimsOf s).held t = some key → (claimsOf s).held u = some key → t = u
  hydrating : ∀ entry, isHydrating s.webSeedInFlight entry = true ↔
    ∃ t, (claimsOf s).held t = some entry.virtualPath

/-- The thread makes a thread that has its claim from then on. -/
def HandsOn (s : TorrentSession) (a : Action) (later : TorrentSession) (t : ℕ) (key : Bytes) :
    Prop :=
  ∃ outside entry request, a = .proceed t outside ∧ s.threads t = some (.spawn entry request) ∧
    entry.virtualPath = key ∧ later.threads outside.thread = some (.downloadFile entry)

/-- The thread is at the end of its download, and erases its claim. -/
def Erases (s : TorrentSession) (a : Action) (t : ℕ) (key : Bytes) : Prop :=
  ∃ outside entry, a = .proceed t outside ∧ s.threads t = some (.erase entry) ∧
    entry.virtualPath = key

/-- An action leaves a claim with its owner, unless the owner hands it on or erases it; and a path
that is not in flight any more was erased by its owner. -/
structure KeepsClaims (s : TorrentSession) (a : Action) (later : TorrentSession) : Prop where
  kept : ∀ t key, (claimsOf s).held t = some key → (claimsOf later).held t = some key ∨
    HandsOn s a later t key ∨ Erases s a t key
  released : ∀ key ∈ s.webSeedInFlight, key ∉ later.webSeedInFlight →
    ∃ t, (claimsOf s).held t = some key ∧ Erases s a t key

/-! ## Runs of a session -/

/-- Functions are called on entries of the index. -/
def CallsOnEntries {σ : Type} (files : List TorrentFileRecord) (_ : σ) : Action → Prop
  | .queueRead _ entry _ _ | .beginStreaming _ entry _ _ | .tryReadFileRange _ entry _ =>
      IsEntry (buildIndex files) entry
  | .proceed _ _ => True

/-- The result of the download of an entry, and the files after it. -/
def downloadOf (s : TorrentSession) (outside : Outside) (entry : FileEntry) : Bool × Disk :=
  downloadFile s.webSeedClient outside.network outside.fileSystem s.disk entry.virtualPath
    (payloadPathFor s.cacheDirectory entry)

/-! ## Downloads that are started and that publish -/

/-- A condition on the next step of a thread, from its location. -/
def AtStep (s : TorrentSession) (P : Outside → Location → Prop) : Action → Prop
  | .proceed t outside =>
      match s.threads t with
      | some location => P outside location
      | none => True
  | _ => True

/-- For a path, the virtual path of the download whose file it is. -/
abbrev Publisher : Type := Bytes → Option Bytes

/-- A download makes its destination its own when it publishes.  Its `.part` file is nobody's. -/
def recordPublisher (s : TorrentSession) (a : Action) (publisher : Publisher) : Publisher :=
  match a with
  | .proceed t outside =>
      match s.threads t with
      | some (.downloadFile entry) =>
          let destination := payloadPathFor s.cacheDirectory entry
          let unowned := Function.update publisher (partPathFor destination) none
          if (downloadOf s outside entry).1 then
            Function.update unowned destination (some entry.virtualPath)
          else unowned
      | _ => publisher
  | _ => publisher

/-- The cache manager has an entry for the key. -/
def Tracked (m : CacheManager) (key : Bytes) : Prop := ∃ e ∈ m.entries, e.1 = key

/-- Every file that a download published and that is there has an entry. -/
def PublishedTracked (state : TorrentSession × Publisher) : Prop :=
  ∀ path key, state.2 path = some key → (state.1.disk path).isSome = true →
    Tracked state.1.cacheManager key

/-- The virtual path that a thread at this place is about to download. -/
def downloadAt : Location → Option Bytes
  | .spawn entry _ | .downloadFile entry => some entry.virtualPath
  | _ => none

/-- A download of the key has been claimed and has not published yet. -/
def Underway (s : TorrentSession) (key : Bytes) : Prop :=
  ∃ t, (s.threads t).bind downloadAt = some key

/-- A thread claims a download of a path that the cache manager has an entry for. -/
def ClaimsTracked (state : TorrentSession × Publisher) : Action → Prop :=
  AtStep state.1 fun _ location =>
    match location with
    | .insert entry _ =>
        entry.virtualPath ∈ state.1.webSeedInFlight ∨
          Tracked state.1.cacheManager entry.virtualPath
    | _ => True

/-- An eviction drops no entry whose download is underway, and one with a published file only when
the file is not there or is taken away. -/
def DropsSafely (state : TorrentSession × Publisher) : Action → Prop :=
  AtStep state.1 fun outside location =>
    match location with
    | .evictIfNeeded _ _ =>
        ∀ removal ∈ state.1.cacheManager.evictIfNeeded.2, ¬ Underway state.1 removal.key ∧
          ∀ path, state.2 path = some removal.key → state.1.disk path = none ∨
            ∃ other ∈ state.1.cacheManager.evictIfNeeded.2, other.path = path ∧
              outside.removes other = true
    | _ => True

/-- Claims are for tracked paths, and evictions are safe. -/
structure KeepsTrack (state : TorrentSession × Publisher) (a : Action) : Prop where
  claims : ClaimsTracked state a
  drops : DropsSafely state a

end Vtfs.Interface
