import Vtfs.Analysis.ProjectedNames
import Vtfs.Interface.DirectoryEnumeration
import Mathlib.Data.List.Lex

/-!
# Enumerations are exact

Between two callbacks of an enumeration its state is either that of a scan that has not begun, with
no entries, or the sorted entries with an index, and what was emitted are the entries before the
index (`Scanning`).  Every callback keeps this (`scanning_callback`), those of other enumerations
because the keys of different enumerations differ (`guidKey_injective`).
-/

set_option autoImplicit false

namespace Vtfs.Analysis

open Vtfs.Library
open Vtfs.Model
open Vtfs.Interface

/-! ## Keys of enumerations -/

/-- The digits of a byte give it back. -/
theorem digits_injective {a b : UInt8}
    (hhigh : lowerHexDigit (a >>> 4 &&& 0xF) = lowerHexDigit (b >>> 4 &&& 0xF))
    (hlow : lowerHexDigit (a &&& 0xF) = lowerHexDigit (b &&& 0xF)) : a = b := by
  have hdigit : ∀ d : Fin 16, ∀ e : Fin 16,
      lowerHexDigit d.val.toUInt8 = lowerHexDigit e.val.toUInt8 → d = e := by decide
  have hnibbles : ∀ n : Fin 256, n.val.toUInt8 >>> 4 &&& 0xF = (n.val / 16).toUInt8 ∧
      n.val.toUInt8 &&& 0xF = (n.val % 16).toUInt8 := by decide +kernel
  obtain ⟨ha, ha'⟩ := hnibbles ⟨a.toNat, a.toNat_lt⟩
  obtain ⟨hb, hb'⟩ := hnibbles ⟨b.toNat, b.toNat_lt⟩
  simp only [Nat.toUInt8_eq, UInt8.ofNat_toNat] at ha ha' hb hb'
  have hlt := a.toNat_lt
  have hlt' := b.toNat_lt
  rw [ha, hb] at hhigh
  rw [ha', hb'] at hlow
  have hquotient := hdigit ⟨a.toNat / 16, by omega⟩ ⟨b.toNat / 16, by omega⟩ hhigh
  have hrest := hdigit ⟨a.toNat % 16, by omega⟩ ⟨b.toNat % 16, by omega⟩ hlow
  rw [Fin.mk.injEq] at hquotient hrest
  exact UInt8.toNat_inj.mp (by omega)

/-- Different ids have different keys. -/
theorem guidKey_injective {a b : GUID} (h : guidKey a = guidKey b) : a = b := by
  have hbytes : ∀ xs ys : List UInt8,
      (xs.flatMap fun b : UInt8 => [lowerHexDigit (b >>> 4 &&& 0xF), lowerHexDigit (b &&& 0xF)]) =
        (ys.flatMap fun b : UInt8 =>
          [lowerHexDigit (b >>> 4 &&& 0xF), lowerHexDigit (b &&& 0xF)]) → xs = ys := by
    intro xs
    induction xs with
    | nil =>
        intro ys heq
        cases ys with
        | nil => rfl
        | cons y ys => simp at heq
    | cons x xs ih =>
        intro ys heq
        cases ys with
        | nil => simp at heq
        | cons y ys =>
            simp only [List.flatMap_cons, List.cons_append, List.nil_append, List.cons.injEq] at heq
            obtain ⟨hhigh, hlow, hrest⟩ := heq
            rw [digits_injective hhigh hlow, ih ys hrest]
  cases a
  cases b
  congr 1
  exact hbytes _ _ h

/-! ## The loop that fills the buffer -/

/-- A buffer takes the entries from the first one on. -/
theorem fillLoop_isPrefix (fill : ℕ → HRESULT) (n : ℕ) (entries : List FileEntry) :
    (fillLoop fill n entries).1 <+: entries := by
  induction entries generalizing n with
  | nil => exact List.prefix_rfl
  | cons entry rest ih =>
      rw [fillLoop]
      split
      · exact List.nil_prefix
      · split
        · exact List.nil_prefix
        · exact List.cons_prefix_cons.mpr ⟨rfl, ih (n + 1)⟩

/-- Without a failure every entry is added. -/
theorem fillLoop_of_filled {fill : ℕ → HRESULT} (n : ℕ) (entries : List FileEntry)
    (h : ∀ i < entries.length, failed (fill (n + i)) = false) :
    (fillLoop fill n entries).1 = entries := by
  induction entries generalizing n with
  | nil => rfl
  | cons entry rest ih =>
      have hfirst : failed (fill n) = false := h 0 (Nat.succ_pos _)
      have hfits : fill n ≠ insufficientBuffer := by
        intro hfull
        rw [hfull] at hfirst
        exact absurd hfirst (by decide)
      have hrest : ∀ i < rest.length, failed (fill (n + 1 + i)) = false := by
        intro i hi
        rw [Nat.add_assoc, Nat.add_comm 1 i]
        exact h (i + 1) (Nat.succ_lt_succ hi)
      rw [fillLoop, if_neg hfits, if_neg (by simp [hfirst])]
      simp only [ih (n + 1) hrest]

/-! ## The state of an enumeration -/

section Scan

variable (provider : ProjFsProvider) {id : GUID} {directory : PCWSTR}
  {searchExpression : Option PCWSTR}

/-- The scan has not begun, or it goes through the entries, and those before the index were
emitted. -/
def Scanning (id : GUID) (arrangement : List FileEntry) (enumerations : Enumerations)
    (done : List FileEntry) : Prop :=
  let state := (enumerations (guidKey id)).getD ⟨[], 0⟩
  (state.entries = [] ∧ done = []) ∨
    (state.entries = arrangement ∧ done = arrangement.take state.nextIndex)

/-- A callback of another enumeration leaves the state as it is. -/
theorem callback_other {c : Callback} (h : c.enumerationId ≠ id) (enumerations : Enumerations) :
    (callback provider enumerations c).1 (guidKey id) = enumerations (guidKey id) := by
  have hkey : guidKey id ≠ guidKey c.enumerationId := fun heq => h (guidKey_injective heq).symm
  cases c with
  | startDirEnum other => exact Function.update_of_ne hkey _ _
  | endDirEnum other => exact Function.update_of_ne hkey _ _
  | getDirEnum call => exact Function.update_of_ne hkey _ _

/-- The scan that a call of `getDirEnum` goes on with. -/
theorem getDirEnum_eq (enumerations : Enumerations) (call : GetDirEnum) {scan : EnumerationState}
    (h : scan = if call.restartScan ∨
        ((enumerations (guidKey call.enumerationId)).getD ⟨[], 0⟩).entries = [] then
      ⟨provider.scanEntries call.filePathName call.searchExpression, 0⟩
      else (enumerations (guidKey call.enumerationId)).getD ⟨[], 0⟩) :
    callback provider enumerations (.getDirEnum call) =
      (Function.update enumerations (guidKey call.enumerationId) (some { scan with
        nextIndex := scan.nextIndex +
          (fillLoop call.fill 0 (scan.entries.drop scan.nextIndex)).1.length }),
        (fillLoop call.fill 0 (scan.entries.drop scan.nextIndex)).1) := by
  subst h
  rfl

/-- A call that goes on with the arrangement emits the next entries. -/
theorem scanning_of_scan {enumerations : Enumerations} {call : GetDirEnum}
    (scan : EnumerationState) {arrangement : List FileEntry} (done : List FileEntry)
    (hscan : scan = if call.restartScan ∨
        ((enumerations (guidKey call.enumerationId)).getD ⟨[], 0⟩).entries = [] then
      ⟨provider.scanEntries call.filePathName call.searchExpression, 0⟩
      else (enumerations (guidKey call.enumerationId)).getD ⟨[], 0⟩)
    (hentries : scan.entries = arrangement) (hdone : done = arrangement.take scan.nextIndex) :
    Scanning call.enumerationId arrangement (callback provider enumerations (.getDirEnum call)).1
        (done ++ (callback provider enumerations (.getDirEnum call)).2) ∧
      (NeverFull call done.length arrangement.length →
        done ++ (callback provider enumerations (.getDirEnum call)).2 = arrangement) := by
  rw [getDirEnum_eq provider enumerations call hscan]
  constructor
  · right
    simp only [Function.update_self, Option.getD_some]
    refine ⟨hentries, ?_⟩
    have hadded := List.prefix_iff_eq_take.mp
      (fillLoop_isPrefix call.fill 0 (scan.entries.drop scan.nextIndex))
    rw [List.take_add, hdone, ← hentries, ← hadded]
  · intro hroom
    have hfills : ∀ i < (scan.entries.drop scan.nextIndex).length,
        failed (call.fill (0 + i)) = false := by
      intro i hi
      rw [List.length_drop, hentries] at hi
      rw [Nat.zero_add]
      apply hroom
      rw [hdone, List.length_take]
      omega
    rw [fillLoop_of_filled 0 _ hfills, hdone, hentries, List.take_append_drop]

/-- A call that restarts the scan emits the first entries. -/
theorem scanning_restart {call : GetDirEnum} (hid : call.enumerationId = id)
    (hrestart : call.restartScan = true) (hpath : call.filePathName = directory)
    (hexpression : call.searchExpression = searchExpression) (enumerations : Enumerations) :
    Scanning id (provider.scanEntries directory searchExpression)
        (callback provider enumerations (.getDirEnum call)).1
        (callback provider enumerations (.getDirEnum call)).2 ∧
      (NeverFull call 0 (provider.scanEntries directory searchExpression).length →
        (callback provider enumerations (.getDirEnum call)).2 =
          provider.scanEntries directory searchExpression) := by
  subst hid hpath hexpression
  exact scanning_of_scan provider
    ⟨provider.scanEntries call.filePathName call.searchExpression, 0⟩ []
    (by rw [if_pos (Or.inl hrestart)]) rfl rfl

/-- A call that does not restart the scan emits the next entries. -/
theorem scanning_continue {call : GetDirEnum} (hid : call.enumerationId = id)
    (hrestart : call.restartScan = false) (hpath : call.filePathName = directory)
    (hexpression : call.searchExpression = searchExpression) {enumerations : Enumerations}
    {done : List FileEntry}
    (h : Scanning id (provider.scanEntries directory searchExpression) enumerations done) :
    Scanning id (provider.scanEntries directory searchExpression)
        (callback provider enumerations (.getDirEnum call)).1
        (done ++ (callback provider enumerations (.getDirEnum call)).2) ∧
      (NeverFull call done.length (provider.scanEntries directory searchExpression).length →
        done ++ (callback provider enumerations (.getDirEnum call)).2 =
          provider.scanEntries directory searchExpression) := by
  subst hid hpath hexpression
  by_cases hempty : ((enumerations (guidKey call.enumerationId)).getD ⟨[], 0⟩).entries = []
  · -- the entries are listed again, and nothing was emitted yet
    have hdone : done = [] := by
      rcases h with ⟨-, hdone⟩ | ⟨hentries, hdone⟩
      · exact hdone
      · rw [hdone, ← hentries, hempty, List.take_nil]
    subst hdone
    exact scanning_of_scan provider
      ⟨provider.scanEntries call.filePathName call.searchExpression, 0⟩ []
      (by rw [if_pos (Or.inr hempty)]) rfl rfl
  · rcases h with ⟨hnone, -⟩ | ⟨hentries, hdone⟩
    · exact absurd hnone hempty
    · exact scanning_of_scan provider _ done (by rw [if_neg (by simp [hrestart, hempty])]) hentries
        hdone

/-- After its start an enumeration has shown nothing. -/
theorem scanning_start (arrangement : List FileEntry) (enumerations : Enumerations) :
    Scanning id arrangement (callback provider enumerations (.startDirEnum id)).1 [] := by
  left
  simp [callback, ProjFsProvider.startDirEnum]

/-- Callbacks of other enumerations leave it where it was. -/
theorem scanning_other {c : Callback} (hid : c.enumerationId ≠ id) {enumerations : Enumerations}
    {arrangement done : List FileEntry} (h : Scanning id arrangement enumerations done) :
    Scanning id arrangement (callback provider enumerations c).1 done := by
  unfold Scanning
  rwa [callback_other provider hid]

/-- After the opening callback of a session the first entries were emitted. -/
theorem scanning_opening {opening : Callback} {later : List Callback}
    (hsession : Session id directory searchExpression opening later)
    (enumerations : Enumerations) :
    opening.enumerationId = id ∧
      Scanning id (provider.scanEntries directory searchExpression)
        (callback provider enumerations opening).1 (callback provider enumerations opening).2 ∧
      ∀ call, opening = .getDirEnum call →
        NeverFull call 0 (provider.scanEntries directory searchExpression).length →
          (callback provider enumerations opening).2 =
            provider.scanEntries directory searchExpression := by
  rcases hsession.opens with rfl | ⟨call, rfl, hid, hrestart, hpath, hexpression⟩
  · exact ⟨rfl, scanning_start provider _ enumerations, fun call hcall => by cases hcall⟩
  · obtain ⟨hscanning, hall⟩ :=
      scanning_restart provider hid hrestart hpath hexpression enumerations
    refine ⟨hid, hscanning, fun other hother hroom => hall ?_⟩
    rwa [Callback.getDirEnum.inj hother]

/-- What was shown is a beginning of the arrangement. -/
theorem Scanning.isPrefix {arrangement done : List FileEntry} {enumerations : Enumerations}
    (h : Scanning id arrangement enumerations done) : done <+: arrangement := by
  rcases h with ⟨-, rfl⟩ | ⟨-, rfl⟩
  · exact List.nil_prefix
  · exact List.take_prefix _ _

/-! ## Runs -/

/-- The first callback shows its entries first. -/
theorem emitted_cons (c : Callback) (rest : List Callback) (enumerations : Enumerations) :
    emitted provider id enumerations (c :: rest) =
      (if c.enumerationId = id then (callback provider enumerations c).2 else []) ++
        emitted provider id (callback provider enumerations c).1 rest := rfl

/-- Callbacks show entries one list after the other. -/
theorem emitted_append (front more : List Callback) (enumerations : Enumerations) :
    emitted provider id enumerations (front ++ more) =
      emitted provider id enumerations front ++
        emitted provider id (runCallbacks provider enumerations front) more := by
  induction front generalizing enumerations with
  | nil => rfl
  | cons c rest ih => simp [emitted_cons, ih, runCallbacks]

/-- The callbacks of a session keep what was emitted the start of the arrangement. -/
theorem scanning_run {later : List Callback}
    (hlater : ∀ c ∈ later, c.enumerationId = id → ∃ call, c = .getDirEnum call ∧
      call.restartScan = false ∧ call.filePathName = directory ∧
        call.searchExpression = searchExpression)
    {enumerations : Enumerations} {done : List FileEntry}
    (h : Scanning id (provider.scanEntries directory searchExpression) enumerations done) :
    Scanning id (provider.scanEntries directory searchExpression)
      (runCallbacks provider enumerations later)
      (done ++ emitted provider id enumerations later) := by
  induction later generalizing enumerations done with
  | nil => simpa [emitted, runCallbacks] using h
  | cons c rest ih =>
      have hrest := fun c hc => hlater c (List.mem_cons_of_mem _ hc)
      rw [emitted_cons, ← List.append_assoc]
      apply ih hrest
      by_cases hid : c.enumerationId = id
      · obtain ⟨call, rfl, hrestart, hpath, hexpression⟩ := hlater c (by simp) hid
        rw [if_pos hid]
        exact (scanning_continue provider hid hrestart hpath hexpression h).1
      · rw [if_neg hid, List.append_nil]
        exact scanning_other provider hid h

/-- The entries of a scan are an arrangement of the directory. -/
theorem arranges_scanEntries
    (hcompare : IsStrictWeakOrder PCWSTR fun a b => provider.system.fileNameCompare a b < 0)
    (hsorts : Sorts provider.system.sort) (directory : PCWSTR)
    (searchExpression : Option PCWSTR) :
    Arranges provider directory searchExpression
      (provider.scanEntries directory searchExpression) := by
  have hless : IsStrictWeakOrder FileEntry fun a b => provider.isBefore a b = true := by
    have hsame : (fun a b => provider.isBefore a b = true) =
        Order.Preimage provider.emittedName fun a b =>
          provider.system.fileNameCompare a b < 0 := by
      funext a b
      simp [ProjFsProvider.isBefore, Order.Preimage]
    rw [hsame]
    infer_instance
  exact ⟨hsorts.perm _ _ hless, hsorts.sorted _ _ hless⟩

/-- After the call that opens it and any callbacks, an enumeration has emitted a beginning of its
scan, and goes on with the rest. -/
theorem scanning_session {opening : Callback} {later front : List Callback}
    (hsession : Session id directory searchExpression opening later)
    (enumerations : Enumerations) (hfront : front <+: later) :
    Scanning id (provider.scanEntries directory searchExpression)
      (runCallbacks provider (callback provider enumerations opening).1 front)
      (emitted provider id enumerations (opening :: front)) := by
  obtain ⟨hid, hfirst, -⟩ := scanning_opening provider hsession enumerations
  rw [emitted_cons, if_pos hid]
  exact scanning_run provider (fun c hc => hsession.continues c (hfront.subset hc)) hfirst

/-- A call in which the buffer does not fill comes to the end of the scan. -/
theorem emitted_of_neverFull {opening : Callback} {later front : List Callback}
    (hsession : Session id directory searchExpression opening later)
    (enumerations : Enumerations) {call : GetDirEnum}
    (hfront : front ++ [.getDirEnum call] <+: opening :: later) (hcall : call.enumerationId = id)
    (hroom : NeverFull call (emitted provider id enumerations front).length
      (provider.scanEntries directory searchExpression).length) :
    emitted provider id enumerations (front ++ [.getDirEnum call]) =
      provider.scanEntries directory searchExpression := by
  obtain ⟨hid, -, hfull⟩ := scanning_opening provider hsession enumerations
  cases front with
  | nil =>
      obtain ⟨hsame, -⟩ := List.cons_prefix_cons.mp hfront
      rw [List.nil_append, hsame, emitted_cons, if_pos hid, hfull call hsame.symm hroom]
      simp [emitted]
  | cons c rest =>
      obtain ⟨rfl, hrest⟩ := List.cons_prefix_cons.mp hfront
      have hmem : .getDirEnum call ∈ later := hrest.subset (by simp)
      obtain ⟨same, hsame, hrestart, hpath, hexpression⟩ := hsession.continues _ hmem hcall
      obtain rfl := Callback.getDirEnum.inj hsame
      have hbefore := scanning_session provider hsession enumerations
        ((List.prefix_append _ _).trans hrest)
      have hlast := (scanning_continue provider hcall hrestart hpath hexpression hbefore).2 hroom
      have hsecond : (Callback.getDirEnum call).enumerationId = id := hcall
      have hone : emitted provider id (runCallbacks provider enumerations (c :: rest))
          [.getDirEnum call] = (callback provider (runCallbacks provider
            (callback provider enumerations c).1 rest) (.getDirEnum call)).2 := by
        rw [emitted_cons, if_pos hsecond]
        simp [emitted, runCallbacks]
      rw [emitted_append, hone]
      exact hlast

/-- **Enumerations are exact.**  Whatever callbacks come in between and wherever the buffer is full,
an enumeration emits the entries of its directory in one sorted order, each of them once; a call in
which the buffer does not fill comes to the end, and later calls emit nothing.
SRCLINE: VirtualDrive.cpp:485-545 -/
theorem enumeratesExactly
    (hcompare : IsStrictWeakOrder PCWSTR fun a b => provider.system.fileNameCompare a b < 0)
    (hsorts : Sorts provider.system.sort) {opening : Callback} {later : List Callback}
    (hsession : Session id directory searchExpression opening later)
    (enumerations : Enumerations) :
    EnumeratesExactly provider id directory searchExpression enumerations (opening :: later) := by
  have hstart : ∀ front, front <+: opening :: later →
      emitted provider id enumerations front <+:
        provider.scanEntries directory searchExpression := by
    intro front hfront
    rcases List.prefix_cons_iff.mp hfront with rfl | ⟨rest, rfl, hrest⟩
    · exact List.nil_prefix
    · exact (scanning_session provider hsession enumerations hrest).isPrefix
  refine ⟨provider.scanEntries directory searchExpression,
    arranges_scanEntries provider hcompare hsorts directory searchExpression, hstart,
    fun front call hfront hcall hroom =>
      emitted_of_neverFull provider hsession enumerations hfront hcall hroom, ?_⟩
  intro front more hmore hdone
  have hlonger := hstart _ hmore
  rw [emitted_append, hdone] at hlonger
  have hlength := hlonger.length_le
  rw [List.length_append] at hlength
  exact List.length_eq_zero_iff.mp (by omega)

end Scan

/-! ## A concrete system -/

/-- Insertion in the order of a comparison. -/
def insertionSorted (less : FileEntry → FileEntry → Bool) (entries : List FileEntry) :
    List FileEntry :=
  entries.insertionSort fun a b => less b a = false

/-- Sorting by insertion sorts. -/
theorem sorts_insertionSorted : Sorts insertionSorted where
  perm less entries _ := List.perm_insertionSort _ entries
  sorted less entries hless := by
    have htotal : Std.Total fun a b => less b a = false := by
      constructor
      intro a b
      cases hba : less b a with
      | false => exact Or.inl rfl
      | true =>
          right
          cases hab : less a b with
          | false => rfl
          | true => exact absurd (hless.trans _ _ _ hab hba) (hless.irrefl a)
    have htrans : IsTrans FileEntry fun a b => less b a = false := by
      constructor
      intro a b c hba hcb
      by_contra hca
      have hca : less c a = true := by simpa using hca
      have hab : ¬ less a b = true := fun hab => by simp [hless.trans _ _ _ hca hab] at hcb
      have hbc : ¬ less b c = true := fun hbc => by simp [hless.trans _ _ _ hbc hca] at hba
      exact (hless.incomp_trans a b c ⟨hab, by simp [hba]⟩ ⟨hbc, by simp [hcb]⟩).2 hca
    exact List.pairwise_insertionSort _ entries

/-- A system that compares names as lists of numbers and sorts by insertion. -/
def insertingSystem : ProjFs where
  multiByteToWideChar := widened
  fileNameMatch := fun name expression => name = expression
  fileNameCompare := fun a b =>
    if a.chars.map UInt16.toNat < b.chars.map UInt16.toNat then -1
    else if b.chars.map UInt16.toNat < a.chars.map UInt16.toNat then 1
    else 0
  sort := insertionSorted

/-- This system compares names in a strict weak order. -/
theorem compare_insertingSystem :
    IsStrictWeakOrder PCWSTR fun a b => insertingSystem.fileNameCompare a b < 0 := by
  have hsame : (fun a b => insertingSystem.fileNameCompare a b < 0) =
      Order.Preimage (fun a : PCWSTR => a.chars.map UInt16.toNat) (· < ·) := by
    funext a b
    simp only [insertingSystem, Order.Preimage]
    by_cases hab : a.chars.map UInt16.toNat < b.chars.map UInt16.toNat
    · simp [hab]
    · by_cases hba : b.chars.map UInt16.toNat < a.chars.map UInt16.toNat <;> simp [hab, hba]
  have hlists : IsStrictWeakOrder (List ℕ) (· < ·) := isStrictWeakOrder_of_isOrderConnected
  rw [hsame]
  infer_instance

/-- The directory `a` with files `y` and `x`, through a buffer that takes one entry. -/
theorem enumeratesExactly_twoFiles :
    EnumeratesExactly
      (ProjFsProvider.mount insertingSystem [⟨bytes "a/y", 1, 0⟩, ⟨bytes "a/x", 1, 1⟩])
      ⟨List.replicate 16 0, rfl⟩ (cStr (wideText "a")) none (fun _ => none)
      [.startDirEnum ⟨List.replicate 16 0, rfl⟩,
        .getDirEnum ⟨⟨List.replicate 16 0, rfl⟩, cStr (wideText "a"), false, none,
          fun n => if n = 0 then 0 else insufficientBuffer⟩,
        .getDirEnum
          ⟨⟨List.replicate 16 0, rfl⟩, cStr (wideText "a"), false, none, fun _ => 0⟩] := by
  apply enumeratesExactly _ compare_insertingSystem sorts_insertionSorted
  refine ⟨Or.inl rfl, ?_⟩
  intro c hc _
  rcases List.mem_cons.mp hc with rfl | hc
  · exact ⟨_, rfl, rfl, rfl, rfl⟩
  · rw [List.mem_singleton] at hc
    exact ⟨_, hc, rfl, rfl, rfl⟩

end Vtfs.Analysis
