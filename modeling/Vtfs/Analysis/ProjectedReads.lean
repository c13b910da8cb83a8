import Vtfs.Interface.ProjectedReads
import Vtfs.Analysis.FileServing
import Vtfs.Analysis.ProjectedNames

/-!
# What a read callback supplies

An attempt gives the part of the payload that is asked for, as far as the payload goes
(`tryReadFileRange_of_lt`), and the callback takes the first part that is not empty
(`readAttempts_of_firstRead`, `firstRead_of_not_failed`).  So it supplies what it is asked for
where that payload is long enough, and else it reports success for less.
-/

set_option autoImplicit false

namespace Vtfs.Analysis

open Vtfs.Library
open Vtfs.Model
open Vtfs.Interface

/-! ## One attempt -/

section Attempts

variable {cacheDirectory : Bytes} {call : GetFileData} {entry : FileEntry}

/-- The bytes of a payload that are asked for. -/
def askedFor (call : GetFileData) (entry : FileEntry) (payload : Bytes) : Bytes :=
  (payload.drop call.byteOffset.toNat).take (readStop call entry - call.byteOffset.toNat)

/-- A read that finds something writes something. -/
theorem askedFor_ne_nil {attempt : ℕ} {payload : Bytes}
    (h : ReadsSome cacheDirectory call entry attempt payload) :
    askedFor call entry payload ≠ [] := by
  have hinside := h.inside
  have hwanted := h.wanted
  have hlonger := h.longer
  apply List.ne_nil_of_length_pos
  rw [askedFor, List.length_take, List.length_drop, readStop]
  omega

/-- The read of an attempt that meets a payload. -/
theorem read_of_readsSome (hfile : entry.isDirectory = false) {attempt : ℕ} {payload : Bytes}
    (h : ReadsSome cacheDirectory call entry attempt payload) :
    tryReadFileRange (call.disk attempt) (call.opens attempt) cacheDirectory entry
      call.byteOffset call.length = ⟨true, askedFor call entry payload, false⟩ := by
  have hpart : min call.length.toNat (entry.size.toNat - call.byteOffset.toNat) =
      readStop call entry - call.byteOffset.toNat := by
    unfold readStop
    omega
  have hmovable := h.movable
  rw [tryReadFileRange_of_lt hfile h.inside, h.present]
  simp only [Option.elim_some, h.opens, not_true_eq_false, if_false,
    if_neg (not_le.mpr hmovable), hpart, askedFor]

/-- An attempt that gives bytes reads something. -/
theorem exists_readsSome (hfile : entry.isDirectory = false) {attempt : ℕ}
    (h : (tryReadFileRange (call.disk attempt) (call.opens attempt) cacheDirectory entry
      call.byteOffset call.length).data ≠ []) :
    ∃ payload, ReadsSome cacheDirectory call entry attempt payload := by
  by_cases hinside : call.byteOffset.toNat < entry.size.toNat
  swap
  · rw [tryReadFileRange, if_pos (Or.inr (UInt64.le_iff_toNat_le.mpr (not_lt.mp hinside)))] at h
    exact absurd rfl h
  rw [tryReadFileRange_of_lt hfile hinside] at h
  cases hpresent : call.disk attempt (payloadPathFor cacheDirectory entry) with
  | none =>
      rw [hpresent] at h
      exact absurd rfl h
  | some payload =>
      rw [hpresent, Option.elim_some] at h
      by_cases hopens : call.opens attempt = true
      swap
      · rw [if_pos hopens] at h
        exact absurd rfl h
      by_cases hmovable : 2 ^ 63 ≤ call.byteOffset.toNat
      · rw [if_neg (not_not.mpr hopens), if_pos hmovable] at h
        exact absurd rfl h
      rw [if_neg (not_not.mpr hopens), if_neg hmovable] at h
      have hlength := List.length_pos_of_ne_nil h
      rw [List.length_take, List.length_drop] at hlength
      exact ⟨payload, hinside, not_le.mp hmovable, by omega, hpresent, hopens, by omega⟩

/-- When a later attempt reads something, an attempt gives nothing and is followed by another one
if and only if it waits. -/
theorem waits_iff (hfile : entry.isDirectory = false) {later : ℕ} {payload : Bytes}
    (h : ReadsSome cacheDirectory call entry later payload) (attempt : ℕ) :
    Waits cacheDirectory call entry attempt ↔
      ∀ read, tryReadFileRange (call.disk attempt) (call.opens attempt) cacheDirectory entry
        call.byteOffset call.length = read → read.ready = true →
          read.data = [] ∧ call.hydrating attempt = true := by
  have hinside := h.inside
  have hwanted := h.wanted
  have hmovable : ¬ 2 ^ 63 ≤ call.byteOffset.toNat := not_le.mpr h.movable
  simp only [forall_eq', Waits, tryReadFileRange_of_lt hfile h.inside]
  cases call.disk attempt (payloadPathFor cacheDirectory entry) with
  | none => simp
  | some met =>
      by_cases hopens : call.opens attempt = true
      swap
      · simp [hopens]
      have hempty : ((met.drop call.byteOffset.toNat).take
          (min call.length.toNat (entry.size.toNat - call.byteOffset.toNat)) = []) ↔
            met.length ≤ call.byteOffset.toNat := by
        rw [← List.length_eq_zero_iff, List.length_take, List.length_drop]
        omega
      simp only [Option.some.injEq, forall_eq', hopens, forall_const, Option.elim_some,
        not_true_eq_false, if_false, hmovable, hempty]

/-! ## The loop -/

/-- The first part that is not empty is written. -/
theorem readAttempts_of_readsSome (hfile : entry.isDirectory = false) {attempt : ℕ}
    {payload : Bytes} (h : ReadsSome cacheDirectory call entry attempt payload) {left made : ℕ}
    (hmade : made ≤ attempt) (hleft : attempt < made + left)
    (hwaits : ∀ k, made ≤ k → k < attempt → Waits cacheDirectory call entry k) :
    readAttempts cacheDirectory call entry left made =
      (call.writeFileData,
        [⟨call.byteOffset, askedFor call entry payload, call.writeFileData⟩]) := by
  induction left generalizing made with
  | zero => omega
  | succ left ih =>
      rw [readAttempts]
      rcases Nat.eq_or_lt_of_le hmade with rfl | hlt
      · rw [read_of_readsSome hfile h]
        exact if_pos ⟨rfl, askedFor_ne_nil h⟩
      · have hread := (waits_iff hfile h made).mp (hwaits made le_rfl hlt) _ rfl
        rw [if_neg fun hdata => hdata.2 (hread hdata.1).1,
          if_neg fun hstops => hstops.2.2 (hread hstops.1).2]
        exact ih hlt (by omega) fun k hk => hwaits k (by omega)

/-- The code for an offline file is a failure. -/
theorem failed_fileOffline : failed fileOffline = true := by decide

/-- A loop that ends with success has read something, after attempts that waited. -/
theorem exists_readsSome_of_not_failed (hfile : entry.isDirectory = false) {left made : ℕ}
    (h : ¬ failed (readAttempts cacheDirectory call entry left made).1) :
    ∃ attempt payload, made ≤ attempt ∧ attempt < made + left ∧
      ReadsSome cacheDirectory call entry attempt payload ∧
      ∀ k, made ≤ k → k < attempt → Waits cacheDirectory call entry k := by
  induction left generalizing made with
  | zero => exact absurd failed_fileOffline h
  | succ left ih =>
      rw [readAttempts] at h
      generalize hread : tryReadFileRange (call.disk made) (call.opens made) cacheDirectory entry
        call.byteOffset call.length = read at h
      by_cases hdata : read.ready = true ∧ read.data ≠ []
      · obtain ⟨payload, hreads⟩ := exists_readsSome hfile (hread ▸ hdata.2)
        exact ⟨made, payload, le_rfl, by omega, hreads, fun k hk hlt => by omega⟩
      rw [if_neg hdata] at h
      by_cases hstops : read.ready = true ∧ read.data = [] ∧ ¬ call.hydrating made = true
      · rw [if_pos hstops] at h
        exact absurd failed_fileOffline h
      rw [if_neg hstops] at h
      obtain ⟨attempt, payload, hle, hlt, hreads, hwaits⟩ := ih h
      refine ⟨attempt, payload, by omega, by omega, hreads, fun k hk hkt => ?_⟩
      rcases Nat.eq_or_lt_of_le hk with rfl | hk
      · refine (waits_iff hfile hreads made).mpr fun read' hread' hready => ?_
        obtain rfl := hread.symm.trans hread'
        have hempty : read.data = [] := by
          by_contra hne
          exact hdata ⟨hready, hne⟩
        refine ⟨hempty, ?_⟩
        by_contra hstill
        exact hstops ⟨hready, hempty, hstill⟩
      · exact hwaits k hk hkt

end Attempts

/-! ## The callback -/

variable {provider : ProjFsProvider} {cacheDirectory : Bytes} {call : GetFileData}

/-- The callback is its loop over attempts. -/
theorem getFileData_eq {entry : FileEntry}
    (hfound : provider.lookupProjectedEntry call.filePathName = some entry)
    (hfile : entry.isDirectory = false) (hallocates : call.allocates = true) :
    provider.getFileData cacheDirectory call =
      readAttempts cacheDirectory call entry readAttemptLimit 0 := by
  simp [ProjFsProvider.getFileData, hfound, hfile, hallocates]

/-- A callback that succeeds is for a file and has a buffer. -/
theorem exists_entry_of_not_failed (h : ¬ failed (provider.getFileData cacheDirectory call).1) :
    ∃ entry, provider.lookupProjectedEntry call.filePathName = some entry ∧
      entry.isDirectory = false ∧ call.allocates = true := by
  unfold ProjFsProvider.getFileData at h
  have hnotFound : failed fileNotFound = true := by decide
  have hmemory : failed outOfMemory = true := by decide
  cases hfound : provider.lookupProjectedEntry call.filePathName with
  | none =>
      rw [hfound] at h
      exact absurd hnotFound h
  | some entry =>
      simp only [hfound] at h
      by_cases hdirectory : entry.isDirectory = true
      · rw [if_pos hdirectory] at h
        exact absurd hnotFound h
      by_cases hallocates : call.allocates = true
      swap
      · rw [if_neg hdirectory, if_pos hallocates] at h
        exact absurd hmemory h
      exact ⟨entry, rfl, by simpa using hdirectory, hallocates⟩

/-- The positions of the part that is written are those of the payload. -/
theorem lt_length_askedFor_iff {entry : FileEntry} {attempt : ℕ} {payload : Bytes}
    (h : ReadsSome cacheDirectory call entry attempt payload) {position : ℕ}
    (hposition : position < readStop call entry) :
    position < call.byteOffset.toNat + (askedFor call entry payload).length ↔
      position < payload.length := by
  have hlonger := h.longer
  rw [askedFor, List.length_take, List.length_drop]
  omega

/-- **What a read callback supplies.**  A callback that returns success has passed every position
it was asked for, inside the file, to a successful write, if and only if, for a file and with a
buffer, the payload of the first attempt that reads something has all these positions.
SRCLINE: VirtualDrive.cpp:564-595, TorrentSession.cpp:89-115 -/
theorem suppliesAll_iff : SuppliesAll provider cacheDirectory call ↔
    ∀ entry, provider.lookupProjectedEntry call.filePathName = some entry →
      entry.isDirectory = false → call.allocates = true →
        PayloadReaches cacheDirectory call entry := by
  constructor
  · intro h entry hfound hfile hallocates attempt payload hfirst hwritten
    have heq : provider.getFileData cacheDirectory call =
        readAttempts cacheDirectory call entry readAttemptLimit 0 :=
      getFileData_eq hfound hfile hallocates
    rw [readAttempts_of_readsSome hfile hfirst.reads (Nat.zero_le _)
      (by simpa using hfirst.made) fun k _ => hfirst.waits k] at heq
    have hsuccess : ¬ failed (provider.getFileData cacheDirectory call).1 := by
      rw [heq]
      exact hwritten
    obtain ⟨entry', hfound', -, hsupplied⟩ := h hsuccess
    obtain rfl := Option.some.inj (hfound.symm.trans hfound')
    have hinside := hfirst.reads.inside
    have hwanted := hfirst.reads.wanted
    have hbefore : call.byteOffset.toNat < readStop call entry := by
      unfold readStop
      omega
    obtain ⟨write, hwrite, -, -, hlast⟩ :=
      hsupplied (readStop call entry - 1) (by omega) (by omega)
    rw [heq, List.mem_singleton] at hwrite
    subst hwrite
    have hpayload := (lt_length_askedFor_iff hfirst.reads (by omega)).mp hlast
    omega
  · intro h hsuccess
    obtain ⟨entry, hfound, hfile, hallocates⟩ := exists_entry_of_not_failed hsuccess
    have heq : provider.getFileData cacheDirectory call =
        readAttempts cacheDirectory call entry readAttemptLimit 0 :=
      getFileData_eq hfound hfile hallocates
    rw [heq] at hsuccess ⊢
    obtain ⟨attempt, payload, -, hlt, hreads, hwaits⟩ :=
      exists_readsSome_of_not_failed hfile hsuccess
    have hrun := readAttempts_of_readsSome hfile hreads (Nat.zero_le _) hlt hwaits
    rw [hrun] at hsuccess ⊢
    have hreaches := h entry hfound hfile hallocates attempt payload
      ⟨by simpa using hlt, hreads, fun k => hwaits k (Nat.zero_le k)⟩ hsuccess
    refine ⟨entry, hfound, hfile, fun position hfrom hposition => ?_⟩
    exact ⟨_, List.mem_singleton_self _, hsuccess, hfrom,
      (lt_length_askedFor_iff hreads hposition).mpr (lt_of_lt_of_le hposition hreaches)⟩

/-! ## An interrupted download -/

/-- The file `a` of two bytes, of which the cache has one. -/
def shortRead : GetFileData where
  filePathName := cStr (wideText "a")
  byteOffset := 0
  length := 2
  allocates := true
  writeFileData := 0
  disk := fun _ path => if path = bytes "c/payload/a" then some (bytes "x") else none
  opens := fun _ => true
  hydrating := fun _ => false

/-- The callback writes the one byte and returns success. -/
theorem suppliesAll_fails : ¬ ∀ provider cacheDirectory call,
    SuppliesAll provider cacheDirectory call := by
  intro h
  have hrun : (ProjFsProvider.mount widenedSystem [⟨bytes "a", 2, 0⟩]).getFileData (bytes "c")
      shortRead = (0, [⟨0, bytes "x", 0⟩]) := by decide +kernel
  have hfound : (ProjFsProvider.mount widenedSystem [⟨bytes "a", 2, 0⟩]).lookupProjectedEntry
      shortRead.filePathName = some ⟨bytes "/a", 2, 0, 0, false⟩ := by decide +kernel
  obtain ⟨entry, hentry, -, hsupplied⟩ :=
    h (ProjFsProvider.mount widenedSystem [⟨bytes "a", 2, 0⟩]) (bytes "c") shortRead
      (by rw [hrun]; decide)
  obtain rfl := Option.some.inj (hfound.symm.trans hentry)
  obtain ⟨write, hwrite, -, -, hlast⟩ := hsupplied 1 (by decide) (by decide)
  rw [hrun, List.mem_singleton] at hwrite
  subst hwrite
  exact absurd hlast (by decide)

end Vtfs.Analysis
