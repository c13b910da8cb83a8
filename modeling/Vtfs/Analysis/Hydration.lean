import Vtfs.Analysis.MetadataLoading
import Vtfs.Analysis.SessionSteps

/-!
# Claims of downloads

What an action does to the claims of a session is a step of `Claims`, or nothing (`claims_next`);
that they are exclusive is then the invariant of the library.
-/

set_option autoImplicit false

namespace Vtfs.Analysis

open Vtfs.Library
open Vtfs.Model
open Vtfs.Interface

variable {s later : TorrentSession}

/-! ## One action -/

/-- Moving a thread changes what this thread has claimed. -/
theorem claimsOf_moveTo (s : TorrentSession) (t : ℕ) (location : Option Location) :
    claimsOf (s.moveTo t location) =
      ⟨s.webSeedInFlight, Function.update (claimsOf s).held t (location.bind claimOf)⟩ := by
  have hheld : (fun u => (Function.update s.threads t location u).bind claimOf) =
      Function.update (claimsOf s).held t (location.bind claimOf) := by
    funext u
    by_cases hu : u = t
    · subst hu
      simp
    · simp [hu, claimsOf]
  simp only [claimsOf, TorrentSession.moveTo]
  exact congrArg (Claims.mk s.webSeedInFlight) hheld

/-- A move between places without a claim changes no claim. -/
theorem claimsOf_moveTo_of_none {t : ℕ} (hnone : (claimsOf s).held t = none)
    {location : Option Location} (hlocation : location.bind claimOf = none) :
    claimsOf (s.moveTo t location) = claimsOf s := by
  rw [claimsOf_moveTo, hlocation, ← hnone, Function.update_eq_self]
  rfl

/-- What a thread holds goes by where it is. -/
theorem held_of_location {t : ℕ} {location : Location} (h : s.threads t = some location) :
    (claimsOf s).held t = claimOf location := by
  simp [claimsOf, h]

/-- A thread inserts a path that is not in flight. -/
structure Inserts (s : TorrentSession) (t : ℕ) (entry : FileEntry) (later : TorrentSession) :
    Prop where
  location : ∃ request, s.threads t = some (.insert entry request)
  free : entry.virtualPath ∉ s.webSeedInFlight
  claims : claimsOf later = ⟨s.webSeedInFlight ++ [entry.virtualPath],
    Function.update (claimsOf s).held t (some entry.virtualPath)⟩

/-- A thread makes the thread of a download. -/
structure Spawns (s : TorrentSession) (t made : ℕ) (entry : FileEntry) (later : TorrentSession) :
    Prop where
  location : ∃ request, s.threads t = some (.spawn entry request)
  new : s.threads made = none
  claims : claimsOf later = ⟨s.webSeedInFlight, Function.update
    (Function.update (claimsOf s).held made (some entry.virtualPath)) t none⟩
  made : later.threads made = some (.downloadFile entry)

/-- A thread erases the path of its download. -/
structure Ends (s : TorrentSession) (t : ℕ) (entry : FileEntry) (later : TorrentSession) :
    Prop where
  location : s.threads t = some (.erase entry)
  claims : claimsOf later = ⟨s.webSeedInFlight.filter (· ≠ entry.virtualPath),
    Function.update (claimsOf s).held t none⟩

/-- What an action does to the claims. -/
theorem claims_next {a : Action} (h : s.next a = some later) :
    claimsOf later = claimsOf s ∨ ∃ t outside entry, a = .proceed t outside ∧
      (Inserts s t entry later ∨ Spawns s t outside.thread entry later ∨ Ends s t entry later) := by
  rcases next_cases h with
    ⟨t, hnone, henters, -⟩ | ⟨t, outside, location, rfl, hlocation, hproceeds⟩
  · left
    have hheld : (claimsOf s).held t = none := by simp [claimsOf, hnone]
    rcases henters with rfl | ⟨location, rfl, hclaim⟩
    · rfl
    · exact claimsOf_moveTo_of_none hheld hclaim
  have hheld := held_of_location hlocation
  cases hproceeds with
  | goesOn hgoesOn =>
      exact Or.inl (claimsOf_moveTo_of_none (hheld.trans hgoesOn.unclaimed) hgoesOn.claimsNothing)
  | touch entry request =>
      exact Or.inl (claimsOf_moveTo_of_none (s := { s with cacheManager := _ }) hheld rfl)
  | evictIfNeeded entry request =>
      exact Or.inl
        (claimsOf_moveTo_of_none (s := { s with cacheManager := _, disk := _ }) hheld rfl)
  | insert entry request hfree =>
      exact Or.inr ⟨t, outside, entry, rfl,
        Or.inl ⟨⟨request, hlocation⟩, hfree, claimsOf_moveTo _ _ _⟩⟩
  | spawn entry request hnew =>
      have hne : outside.thread ≠ t := by
        intro heq
        rw [heq, hlocation] at hnew
        cases hnew
      refine Or.inr ⟨t, outside, entry, rfl, Or.inr (Or.inl ⟨⟨request, hlocation⟩, hnew, ?_, ?_⟩)⟩
      · rw [claimsOf_moveTo, claimOf_afterwards, claimsOf_moveTo]
        rfl
      · simp [TorrentSession.moveTo, hne]
  | requestFileData request =>
      exact Or.inl (claimsOf_moveTo_of_none (s := { s with engine := _ }) hheld rfl)
  | pumpOnce engine frames hpump =>
      exact Or.inl (claimsOf_moveTo_of_none (s := { s with engine }) hheld rfl)
  | downloadFile entry =>
      -- the claim stays with the thread
      left
      have hsame : (some (Location.erase entry)).bind claimOf = (claimsOf s).held t := hheld.symm
      rw [claimsOf_moveTo, hsame]
      exact congrArg (Claims.mk _) (Function.update_eq_self t _)
  | erase entry =>
      exact Or.inr ⟨t, outside, entry, rfl, Or.inr (Or.inr ⟨hlocation, claimsOf_moveTo _ _ _⟩)⟩

/-- The claims of a session take the steps of claims. -/
theorem exclusive_next {a : Action} (hexclusive : (claimsOf s).Exclusive)
    (h : s.next a = some later) : (claimsOf later).Exclusive := by
  rcases claims_next h with hsame | ⟨t, outside, entry, -, hinserts | hspawns | hends⟩
  · rwa [hsame]
  · obtain ⟨request, hlocation⟩ := hinserts.location
    rw [hinserts.claims]
    exact hexclusive.step (.claim t _ hinserts.free (held_of_location hlocation))
  · obtain ⟨request, hlocation⟩ := hspawns.location
    have hnone : (claimsOf s).held outside.thread = none := by simp [claimsOf, hspawns.new]
    rw [hspawns.claims]
    exact hexclusive.step (.handOn t _ _ (held_of_location hlocation) hnone)
  · rw [hends.claims]
    exact hexclusive.step (.release t _ (held_of_location hends.location))

/-- An action that changes no claim keeps the claims. -/
theorem keepsClaims_of_same (hsame : claimsOf later = claimsOf s) (a : Action) :
    KeepsClaims s a later := by
  have htaken : later.webSeedInFlight = s.webSeedInFlight := congrArg Claims.taken hsame
  constructor
  · intro u key hu
    exact Or.inl (by rw [hsame, hu])
  · intro key hkey hgone
    rw [htaken] at hgone
    exact absurd hkey hgone

/-- The thread that inserts had no claim. -/
theorem Inserts.keepsClaims {t : ℕ} {entry : FileEntry} (h : Inserts s t entry later)
    (a : Action) : KeepsClaims s a later := by
  have htaken : later.webSeedInFlight = s.webSeedInFlight ++ [entry.virtualPath] :=
    congrArg Claims.taken h.claims
  obtain ⟨request, hlocation⟩ := h.location
  constructor
  · intro u key hu
    have hne : u ≠ t := by
      rintro rfl
      rw [held_of_location hlocation] at hu
      cases hu
    exact Or.inl (by rw [h.claims, ← hu]; exact Function.update_of_ne hne _ _)
  · intro key hkey hgone
    rw [htaken] at hgone
    exact absurd (List.mem_append_left _ hkey) hgone

/-- The thread that is made had no claim. -/
theorem Spawns.keepsClaims {t : ℕ} {outside : Outside} {entry : FileEntry}
    (h : Spawns s t outside.thread entry later) : KeepsClaims s (.proceed t outside) later := by
  have htaken : later.webSeedInFlight = s.webSeedInFlight := congrArg Claims.taken h.claims
  obtain ⟨request, hlocation⟩ := h.location
  constructor
  · intro u key hu
    by_cases hne : u = t
    · subst hne
      have hkey := Option.some.inj ((held_of_location hlocation).symm.trans hu)
      exact Or.inr (Or.inl ⟨outside, entry, request, rfl, hlocation, hkey, h.made⟩)
    · have hmade : u ≠ outside.thread := by
        rintro rfl
        simp [claimsOf, h.new] at hu
      left
      rw [h.claims]
      simp [hne, hmade, hu]
  · intro key hkey hgone
    rw [htaken] at hgone
    exact absurd hkey hgone

/-- Only the path of the thread that erases is gone. -/
theorem Ends.keepsClaims {t : ℕ} {entry : FileEntry} (h : Ends s t entry later)
    (outside : Outside) : KeepsClaims s (.proceed t outside) later := by
  have htaken : later.webSeedInFlight = s.webSeedInFlight.filter (· ≠ entry.virtualPath) :=
    congrArg Claims.taken h.claims
  have hheld := held_of_location h.location
  constructor
  · intro u key hu
    by_cases hne : u = t
    · subst hne
      have hkey := Option.some.inj (hheld.symm.trans hu)
      exact Or.inr (Or.inr ⟨outside, entry, rfl, h.location, hkey⟩)
    · exact Or.inl (by rw [h.claims, ← hu]; exact Function.update_of_ne hne _ _)
  · intro key hkey hgone
    have hpath : key = entry.virtualPath := by
      by_contra hne
      exact hgone (by rw [htaken]; exact List.mem_filter.mpr ⟨hkey, by simpa using hne⟩)
    exact ⟨t, by rw [hheld, hpath]; rfl, outside, entry, rfl, h.location, hpath.symm⟩

/-- Every action keeps the claims. -/
theorem keepsClaims_next {a : Action} (h : s.next a = some later) : KeepsClaims s a later := by
  rcases claims_next h with hsame | ⟨t, outside, entry, rfl, hinserts | hspawns | hends⟩
  · exact keepsClaims_of_same hsame a
  · exact hinserts.keepsClaims _
  · exact hspawns.keepsClaims
  · exact hends.keepsClaims outside

/-! ## Every run -/

section Runs

variable {config : Config} {metadata : TorrentMetadata} {disk : Disk}

/-- In every state that is reached a path is claimed by one thread at most. -/
theorem exclusive_of_reachable
    (h : Reachable TorrentSession.next anyAction (TorrentSession.start config metadata disk) s) :
    (claimsOf s).Exclusive := by
  apply h.invariant (I := fun s => (claimsOf s).Exclusive)
  · exact Claims.exclusive_empty
  · intro s a later hexclusive _ hnext
    exact exclusive_next hexclusive hnext

/-- **Mutual exclusion of downloads.**  In every state that any interleaving reaches, at most one
thread has claimed a virtual path and downloads it, a path is in flight exactly when a thread has
claimed it, and no action loses a claim or releases the claim of another thread.
SRCLINE: TorrentSession.cpp:135-162 -/
theorem hydrationsExclusive
    (h : Reachable TorrentSession.next anyAction (TorrentSession.start config metadata disk) s) :
    HydrationsExclusive s ∧ ∀ a later, s.next a = some later → KeepsClaims s a later := by
  have hexclusive := exclusive_of_reachable h
  refine ⟨⟨hexclusive.one, ?_⟩, fun a later hnext => keepsClaims_next hnext⟩
  intro entry
  rw [isHydrating, decide_eq_true_iff]
  exact hexclusive.mem_taken_iff entry.virtualPath

end Runs

/-! ## Concrete runs -/

/-- A cache with room for the file `a`, and a web seed. -/
def seedConfig : Config := ⟨10, bytes "/cache", bytes "http://h"⟩

/-- The entry of that file. -/
def seedEntry : FileEntry := ⟨bytes "/a", 5, 0, 0, false⟩

/-- This entry is one of the index. -/
theorem isEntry_seedEntry : IsEntry (buildIndex onePieceMetadata.files) seedEntry :=
  Or.inl ⟨bytes "/a", by decide +kernel⟩

/-- A server that sends the file. -/
def servingNetwork : Network where
  openSocket _ _ := true
  sendRequest _ := true
  delivery :=
    { chunks := [bytes "HTTP/1.1 200 OK\r\nContent-Length: 5\r\n\r\nabcde"]
      ending := .closed
      nonempty := by decide
      fits := by decide }

/-- Everything succeeds, and the number of the next thread. -/
def answering (thread : ℕ) : Outside where
  removes _ := true
  thread := thread
  announced := none
  peers := ⟨fun _ => 3, fun _ => true⟩
  network := servingNetwork
  fileSystem := ⟨true, true, true, true⟩

/-- A thread has read, and another one is about to download for it. -/
theorem hydrationsExclusive_downloading : ∃ s : TorrentSession, s.webSeedInFlight = [bytes "/a"] ∧
    HydrationsExclusive s ∧ ∀ a later, s.next a = some later → KeepsClaims s a later :=
  ⟨_, rfl, hydrationsExclusive (Reachable.of_endOf (s := TorrentSession.start seedConfig
    onePieceMetadata fun _ => none) [.tryReadFileRange 0 seedEntry 0, .proceed 0 (answering 1),
      .proceed 0 (answering 1), .proceed 0 (answering 1), .proceed 0 (answering 1)] rfl)⟩

end Vtfs.Analysis
