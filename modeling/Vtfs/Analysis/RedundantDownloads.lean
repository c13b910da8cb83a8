import Vtfs.Analysis.Hydration
import Vtfs.Analysis.WebSeedDownloads

/-!
# Downloads are started once

The file is looked for before the lock is taken.  In runs without the race that this allows, an
entry whose download is underway has no published file, because its file was absent when the path
was inserted and the claim on the path is exclusive since (`Fresh`).
-/

set_option autoImplicit false

namespace Vtfs.Analysis

open Vtfs.Library
open Vtfs.Model
open Vtfs.Interface

/-! ## Downloads that are underway -/

section Underway

variable {s later : TorrentSession} {t : ℕ} {key : Bytes}

/-- A thread that is downloading has claimed the path. -/
theorem claimOf_of_downloadAt {location : Location} (h : downloadAt location = some key) :
    claimOf location = some key := by
  cases location with
  | spawn | downloadFile => exact h
  | _ => cases h

/-- After a move a download is underway in the thread that moved, or in another. -/
theorem underway_moveTo {next : Option Location} (h : Underway (s.moveTo t next) key) :
    next.bind downloadAt = some key ∨
      ∃ u ≠ t, (s.threads u).bind downloadAt = some key := by
  obtain ⟨u, hu⟩ := h
  by_cases hut : u = t
  · subst hut
    left
    simpa [TorrentSession.moveTo] using hu
  · right
    exact ⟨u, hut, by simpa [TorrentSession.moveTo, hut] using hu⟩

/-- A thread that has no claim afterwards is not underway. -/
theorem underway_of_moveTo {next : Option Location} (hnext : next.bind claimOf = none)
    (h : Underway (s.moveTo t next) key) : Underway s key := by
  rcases underway_moveTo h with hat | ⟨u, -, hu⟩
  · obtain ⟨location, rfl, hlocation⟩ := Option.bind_eq_some_iff.mp hat
    rw [Option.bind_some, claimOf_of_downloadAt hlocation] at hnext
    cases hnext
  · exact ⟨u, hu⟩

/-- After an action, what is underway was so before, or has just been inserted. -/
theorem underway_next {a : Action} (h : s.next a = some later) (hunderway : Underway later key) :
    Underway s key ∨ ∃ t outside entry request, a = .proceed t outside ∧
      s.threads t = some (.insert entry request) ∧ entry.virtualPath ∉ s.webSeedInFlight ∧
        entry.virtualPath = key := by
  rcases next_cases h with ⟨t, -, henters, -⟩ | ⟨t, outside, location, rfl, hlocation, hproceeds⟩
  · left
    rcases henters with rfl | ⟨location, rfl, hclaim⟩
    · exact hunderway
    · have hnext : (some location).bind claimOf = none := hclaim
      exact underway_of_moveTo hnext hunderway
  cases hproceeds with
  | goesOn hgoesOn => exact Or.inl (underway_of_moveTo hgoesOn.claimsNothing hunderway)
  | touch entry request => exact Or.inl (underway_of_moveTo rfl hunderway)
  | evictIfNeeded entry request => exact Or.inl (underway_of_moveTo rfl hunderway)
  | insert entry request hfree =>
      rcases underway_moveTo hunderway with hat | ⟨u, -, hu⟩
      · exact Or.inr ⟨t, outside, entry, request, rfl, hlocation, hfree, Option.some.inj hat⟩
      · exact Or.inl ⟨u, hu⟩
  | spawn entry request hnew =>
      left
      have hmade := underway_of_moveTo (claimOf_afterwards request) hunderway
      rcases underway_moveTo hmade with hat | ⟨u, -, hu⟩
      · exact ⟨t, by rw [hlocation]; exact hat⟩
      · exact ⟨u, hu⟩
  | requestFileData request => exact Or.inl (underway_of_moveTo rfl hunderway)
  | pumpOnce engine frames hpump => exact Or.inl (underway_of_moveTo rfl hunderway)
  | downloadFile entry =>
      rcases underway_moveTo hunderway with hat | ⟨u, -, hu⟩
      · cases hat
      · exact Or.inl ⟨u, hu⟩
  | erase entry => exact Or.inl (underway_of_moveTo rfl hunderway)

/-- Where nothing is inserted, what is underway was so before. -/
theorem underway_before {a : Action} (h : s.next a = some later)
    (hinsert : ∀ t outside entry request, a = .proceed t outside →
      s.threads t ≠ some (.insert entry request)) (hunderway : Underway later key) :
    Underway s key := by
  rcases underway_next h hunderway with hbefore | ⟨t, outside, entry, request, ha, ht, -⟩
  · exact hbefore
  · exact absurd ht (hinsert t outside entry request ha)

/-- Where a path is inserted, nothing else is new. -/
theorem underway_insert {outside : Outside} {entry : FileEntry} {request : Option StreamRequest}
    (hlocation : s.threads t = some (.insert entry request))
    (h : s.next (.proceed t outside) = some later) (hunderway : Underway later key) :
    Underway s key ∨ entry.virtualPath = key := by
  rcases underway_next h hunderway with hbefore | ⟨u, other, inserted, wanted, ha, hu, -, hpath⟩
  · exact Or.inl hbefore
  · obtain ⟨rfl, rfl⟩ := Action.proceed.inj ha
    obtain ⟨rfl, rfl⟩ := Location.insert.inj (Option.some.inj (hlocation.symm.trans hu))
    exact Or.inr hpath

/-- Only an insertion makes a download underway. -/
theorem underway_before_proceed {location : Location} {outside : Outside}
    (hlocation : s.threads t = some location) (h : s.next (.proceed t outside) = some later)
    (hinsert : ∀ entry request, location ≠ .insert entry request)
    (hunderway : Underway later key) : Underway s key := by
  refine underway_before h ?_ hunderway
  rintro u other entry request ha hu
  obtain ⟨rfl, rfl⟩ := Action.proceed.inj ha
  exact hinsert entry request (Option.some.inj (hlocation.symm.trans hu))

end Underway

/-! ## Events -/

/-- The payload path goes by the virtual path. -/
theorem payloadPathFor_congr (cacheDirectory : Bytes) {entry other : FileEntry}
    (h : other.virtualPath = entry.virtualPath) :
    payloadPathFor cacheDirectory other = payloadPathFor cacheDirectory entry := by
  simp only [payloadPathFor, h]

end Vtfs.Analysis
