import Mathlib.Data.List.Basic

/-!
# Paths as `std::filesystem::path` has them on Windows

A path is its native text, of 16-bit characters; both kinds of slash are separators.  In front may
be a root name: a drive letter, a server, or a prefix of devices.  `append` is `operator/=`, where
an operand with a root name or a root directory of its own takes the place of the left side, or of
what follows its root name.

A component, with neither separators nor colons, is always added after the path
(`append_component`), and the ones after it with a separator between (`foldl_append`).
-/

set_option autoImplicit false

namespace Vtfs.Library.WindowsPath

/-- `/`. -/
def slash : UInt16 := 0x2F

/-- The preferred separator, `\`. -/
def backslash : UInt16 := 0x5C

/-- `:`, after a drive letter. -/
def colon : UInt16 := 0x3A

/-- `?`, in a prefix of devices. -/
def question : UInt16 := 0x3F

/-- `.`, in a prefix of devices. -/
def dot : UInt16 := 0x2E

/-- Either kind of slash. -/
def isSeparator (ch : UInt16) : Bool := ch = slash || ch = backslash

/-- There is a separator at a place. -/
def separatorAt (p : List UInt16) (i : ℕ) : Bool := p[i]?.any isSeparator

/-- A drive letter and a colon are in front. -/
def hasDrivePrefix : List UInt16 → Bool
  | letter :: mark :: _ =>
      let upper := letter &&& 0xFFDF
      (0x41 ≤ upper && upper ≤ 0x5A) && mark = colon
  | _ => false

/-- A prefix of devices is in front, such as `\\?\`, and no separator after it. -/
def hasDevicePrefix (p : List UInt16) : Bool :=
  separatorAt p 3 && !separatorAt p 4 &&
    ((separatorAt p 1 && (p[2]? = some question || p[2]? = some dot)) ||
      (p[1]? = some question && p[2]? = some question))

/-- Where the root name ends: after a drive, the first three characters of a prefix of devices, or
the name of a server. -/
def rootNameEnd (p : List UInt16) : ℕ :=
  if hasDrivePrefix p then 2
  else if !separatorAt p 0 then 0
  else if hasDevicePrefix p then 3
  else if 3 ≤ p.length ∧ separatorAt p 1 ∧ !separatorAt p 2 then
    3 + (p.drop 3).findIdx isSeparator
  else 0

/-- A path with a drive is absolute when a separator follows, and any other with a root name is. -/
def isAbsolute (p : List UInt16) : Bool :=
  if hasDrivePrefix p then separatorAt p 2 else rootNameEnd p ≠ 0

/-- The separator that is put between a path and what is added to it: none after a drive, in an
empty path and after a separator. -/
def separatorAfter (p : List UInt16) : List UInt16 :=
  if rootNameEnd p = p.length then (if 3 ≤ p.length then [backslash] else [])
  else if p.getLast?.any isSeparator then [] else [backslash]

/-- `operator/=`. -/
def append (p q : List UInt16) : List UInt16 :=
  let rootName := p.take (rootNameEnd p)
  let rootName' := q.take (rootNameEnd q)
  let rest := q.drop (rootNameEnd q)
  if isAbsolute q then q
  else if rootName' ≠ [] ∧ rootName ≠ rootName' then q
  else if separatorAt q (rootNameEnd q) then rootName ++ rest
  else p ++ separatorAfter p ++ rest

/-! ## Components -/

/-- A text that is not empty, has no separator and no colon. -/
structure IsComponent (c : List UInt16) : Prop where
  nonempty : c ≠ []
  no_separator : ∀ ch ∈ c, isSeparator ch = false
  no_colon : colon ∉ c

/-- A component has no separator in it. -/
theorem IsComponent.separatorAt_eq {name : List UInt16} (h : IsComponent name) (i : ℕ) :
    separatorAt name i = false := by
  unfold separatorAt
  cases hi : name[i]? with
  | none => rfl
  | some ch => exact h.no_separator ch (List.mem_of_getElem? hi)

/-- A component begins with no drive. -/
theorem IsComponent.hasDrivePrefix_eq {c : List UInt16} (h : IsComponent c) :
    hasDrivePrefix c = false := by
  unfold hasDrivePrefix
  split
  · rename_i letter mark rest
    have hmark : mark ≠ colon := fun heq => h.no_colon (by simp [heq])
    simp [hmark]
  · rfl

/-- A component has no root name. -/
theorem IsComponent.rootNameEnd_eq {c : List UInt16} (h : IsComponent c) : rootNameEnd c = 0 := by
  simp [rootNameEnd, h.hasDrivePrefix_eq, h.separatorAt_eq]

/-- A component is no absolute path. -/
theorem IsComponent.isAbsolute_eq {c : List UInt16} (h : IsComponent c) :
    isAbsolute c = false := by
  simp [isAbsolute, h.hasDrivePrefix_eq, h.rootNameEnd_eq]

/-- A component is added after the path. -/
theorem append_component (p : List UInt16) {c : List UInt16} (h : IsComponent c) :
    append p c = p ++ separatorAfter p ++ c := by
  simp [append, h.isAbsolute_eq, h.rootNameEnd_eq, h.separatorAt_eq]

/-- A short path that is a root name and no more is a drive. -/
theorem getLast?_of_rootName {p : List UInt16} (hend : rootNameEnd p = p.length) (hne : p ≠ [])
    (hshort : p.length < 3) : p.getLast? = some colon := by
  have hpos := List.length_pos_iff.mpr hne
  unfold rootNameEnd at hend
  split at hend
  · rename_i hdrive
    match p, hend with
    | [letter, mark], _ =>
        have hmark : mark = colon := by
          simp only [hasDrivePrefix, Bool.and_eq_true, decide_eq_true_eq] at hdrive
          exact hdrive.2
        rw [hmark]
        rfl
  · split at hend
    · omega
    · split at hend
      · omega
      · split at hend <;> omega

/-- After a component comes a separator. -/
theorem separatorAfter_append (p : List UInt16) {c : List UInt16} (h : IsComponent c) :
    separatorAfter (p ++ c) = [backslash] := by
  have hlast : (p ++ c).getLast? = some (c.getLast h.nonempty) := by
    rw [List.getLast?_append_of_ne_nil p h.nonempty, List.getLast?_eq_some_getLast h.nonempty]
  have hmem := List.getLast_mem h.nonempty
  unfold separatorAfter
  by_cases hend : rootNameEnd (p ++ c) = (p ++ c).length
  · have hlong : 3 ≤ (p ++ c).length := by
      by_contra hshort
      have hcolon := getLast?_of_rootName hend (by simp [h.nonempty]) (Nat.not_le.mp hshort)
      rw [hlast] at hcolon
      exact h.no_colon (Option.some.inj hcolon ▸ hmem)
    rw [if_pos hend, if_pos hlong]
  · rw [if_neg hend, hlast, Option.any_some, h.no_separator _ hmem]
    rfl

/-- Components one after the other: a separator before each but the first, which has the one that
the path needs. -/
theorem foldl_append (p : List UInt16) {c : List UInt16} {cs : List (List UInt16)}
    (h : ∀ q ∈ c :: cs, IsComponent q) :
    (c :: cs).foldl append p =
      p ++ separatorAfter p ++ c ++ cs.flatMap fun q => backslash :: q := by
  induction cs generalizing p c with
  | nil =>
      rw [List.foldl_cons, append_component p (h c (by simp))]
      simp
  | cons next cs ih =>
      have hc := h c (by simp)
      rw [List.foldl_cons, append_component p hc,
        ih _ fun q hq => h q (List.mem_cons_of_mem _ hq), separatorAfter_append _ hc]
      simp

end Vtfs.Library.WindowsPath
