import Vtfs.Library.Pieces
import Mathlib.Data.List.Induction

/-!
# Paths as POSIX `std::filesystem::path` has them

A path is its native text: `/` is the only separator, there are no root names, and a path is
absolute when it starts with a separator.  `append` is `operator/`, where an absolute operand
replaces the left side; `elements` is what `operator==` compares.

`normal` is the lexical normal form: a root or a number of climbs, then names.  Appending a
relative path to another climbs and descends from the normal form of the other
(`normal_append`).
-/

set_option autoImplicit false

namespace Vtfs.Library.PosixPath

/-- The preferred separator. -/
def slash : UInt8 := byte '/'

/-- The path starts with a root directory. -/
def isAbsolute (p : Bytes) : Bool := p.head? = some slash

/-- The path has a last element that is no directory separator. -/
def hasFilename (p : Bytes) : Bool := p ≠ [] ∧ p.getLast? ≠ some slash

/-- `operator/`. -/
def append (p q : Bytes) : Bytes :=
  if isAbsolute q then q
  else if hasFilename p then p ++ slash :: q
  else p ++ q

/-- The names between separators. -/
def names (p : Bytes) : List Bytes := (pieces slash p).filter (· ≠ [])

/-- The elements of a path, which `operator==` compares: the root directory, the names, and an
empty last one when a separator follows the last name. -/
def elements (p : Bytes) : Bool × List Bytes :=
  (isAbsolute p, names p ++ if names p ≠ [] ∧ p.getLast? = some slash then [[]] else [])

/-! ## Names -/

/-- A path is absolute when it begins with a slash. -/
theorem isAbsolute_cons (c : UInt8) (p : Bytes) : isAbsolute (c :: p) = decide (c = slash) := by
  simp [isAbsolute]

/-- At a slash the names of two paths meet. -/
theorem names_append_slash (p q : Bytes) : names (p ++ slash :: q) = names p ++ names q := by
  simp [names, pieces_append]

/-- An empty path has no names. -/
theorem names_nil : names [] = [] := by decide

/-- A slash in front adds no name. -/
theorem names_slash_cons (p : Bytes) : names (slash :: p) = names p := by
  have h := names_append_slash [] p
  simpa [names_nil] using h

/-- A path without a file name is empty or ends with a slash. -/
theorem eq_of_not_hasFilename {p : Bytes} (h : hasFilename p = false) :
    p = [] ∨ ∃ front, p = front ++ [slash] := by
  by_cases hp : p = []
  · exact Or.inl hp
  · right
    have hlast : p.getLast? = some slash := by simpa [hasFilename, hp] using h
    obtain ⟨front, hfront⟩ := List.getLast?_eq_some_iff.mp hlast
    exact ⟨front, hfront⟩

/-- Appending a relative path appends its names. -/
theorem names_append (p : Bytes) {q : Bytes} (h : isAbsolute q = false) :
    names (append p q) = names p ++ names q := by
  unfold append
  rw [h]
  simp only [Bool.false_eq_true, if_false]
  split
  · exact names_append_slash p q
  · rename_i hfile
    rcases eq_of_not_hasFilename (by simpa using hfile) with rfl | ⟨front, rfl⟩
    · simp [names_nil]
    · rw [List.append_assoc, List.singleton_append, names_append_slash, names_append_slash,
        names_nil, List.append_nil]

/-- Appending a relative path leaves an absolute path absolute. -/
theorem isAbsolute_append (p : Bytes) {q : Bytes} (h : isAbsolute q = false) :
    isAbsolute (append p q) = isAbsolute p := by
  unfold append
  rw [h]
  simp only [Bool.false_eq_true, if_false]
  cases p with
  | nil =>
      have hempty : isAbsolute [] = false := by decide
      simp [hasFilename, h, hempty]
  | cons c cs => split <;> simp [isAbsolute_cons]

/-- Appending an absolute path replaces what was there. -/
theorem append_of_isAbsolute (p : Bytes) {q : Bytes} (h : isAbsolute q = true) :
    append p q = q := by
  rw [append, if_pos h]

/-- A path ends as what was appended to it. -/
theorem getLast?_append (p : Bytes) {q : Bytes} (h : q ≠ []) :
    (append p q).getLast? = q.getLast? := by
  unfold append
  split
  · rfl
  · split
    · rw [List.getLast?_append_of_ne_nil p (List.cons_ne_nil slash q),
        List.getLast?_cons_of_ne_nil h]
    · rw [List.getLast?_append_of_ne_nil p h]

/-! ## The lexical normal form -/

/-- A normal form: whether it is rooted, how many levels it climbs first, and its names. -/
structure Normal where
  rooted : Bool
  ups : ℕ
  names : List Bytes
  deriving DecidableEq

/-- The name of the directory itself. -/
def dot : Bytes := bytes "."

/-- The name of the parent directory. -/
def dotDot : Bytes := bytes ".."

/-- One more name: `.` stays, `..` goes back one name or climbs (at the root it stays). -/
def Normal.step (n : Normal) (name : Bytes) : Normal :=
  if name = dot then n
  else if name = dotDot then
    if n.names = [] then (if n.rooted then n else { n with ups := n.ups + 1 })
    else { n with names := n.names.dropLast }
  else { n with names := n.names ++ [name] }

/-- Names after a normal form. -/
def Normal.walk (n : Normal) (steps : List Bytes) : Normal := steps.foldl Normal.step n

/-- The normal form of a path. -/
def normal (p : Bytes) : Normal := Normal.walk ⟨isAbsolute p, 0, []⟩ (names p)

/-- A list is the beginning of a longer one. -/
def ProperPrefix (front whole : List Bytes) : Prop := front <+: whole ∧ front ≠ whole

instance (front whole : List Bytes) : Decidable (ProperPrefix front whole) := by
  unfold ProperPrefix; infer_instance

/-- The second normal form is below the first: the same start, and more names. -/
def StrictlyBelow (base n : Normal) : Prop :=
  base.rooted = n.rooted ∧ base.ups = n.ups ∧ ProperPrefix base.names n.names

instance (base n : Normal) : Decidable (StrictlyBelow base n) := by
  unfold StrictlyBelow; infer_instance

/-- A climb from a directory and a descent come back below the directory: the descent goes down by
the names the climb went up by, and further. -/
def Normal.Returns (base : Normal) (levels : ℕ) (descent : List Bytes) : Prop :=
  if levels ≤ base.names.length then
    ProperPrefix (base.names.drop (base.names.length - levels)) descent
  else base.rooted = true ∧ ProperPrefix base.names descent

instance (base : Normal) (levels : ℕ) (descent : List Bytes) :
    Decidable (base.Returns levels descent) := by
  unfold Normal.Returns; infer_instance

/-- Climbing some levels and then descending. -/
def Normal.climb (n : Normal) (levels : ℕ) (descent : List Bytes) : Normal :=
  if levels ≤ n.names.length then
    { n with names := n.names.take (n.names.length - levels) ++ descent }
  else if n.rooted then { n with names := descent }
  else { n with ups := n.ups + (levels - n.names.length), names := descent }

/-- Names are followed one list after the other. -/
theorem walk_append (n : Normal) (steps steps' : List Bytes) :
    n.walk (steps ++ steps') = (n.walk steps).walk steps' := by
  simp [Normal.walk]

/-- With nothing to leave, `..` climbs one level more. -/
theorem back_climb (n : Normal) (levels : ℕ) :
    (n.climb levels []).step dotDot = n.climb (levels + 1) [] := by
  have hne : dotDot ≠ dot := by decide
  simp only [Normal.step, hne, if_false, if_true]
  unfold Normal.climb
  by_cases hlevels : levels < n.names.length
  · have htake : n.names.take (n.names.length - levels) ≠ [] := by
      rw [Ne, List.take_eq_nil_iff, not_or]
      exact ⟨by omega, fun h => by simp [h] at hlevels⟩
    have hdrop : (n.names.take (n.names.length - levels)).dropLast =
        n.names.take (n.names.length - (levels + 1)) := by
      rw [List.dropLast_eq_take, List.take_take, List.length_take]
      congr 1
      omega
    simp [hlevels.le, Nat.succ_le_of_lt hlevels, htake, hdrop]
  · by_cases heq : levels = n.names.length
    · subst heq
      by_cases hrooted : n.rooted <;> simp [hrooted]
    · have hgt : ¬ levels ≤ n.names.length := by omega
      have hgt' : ¬ levels + 1 ≤ n.names.length := by omega
      by_cases hrooted : n.rooted
      · simp [hgt, hgt', hrooted]
      · simp only [hgt, hgt', hrooted, if_false, if_true, Bool.false_eq_true]
        congr 1
        omega

/-- `..` leaves the last name. -/
theorem back_descent (n : Normal) (levels : ℕ) {descent : List Bytes} (h : descent ≠ []) :
    (n.climb levels descent).step dotDot = n.climb levels descent.dropLast := by
  have hne : dotDot ≠ dot := by decide
  simp only [Normal.step, hne, if_false, if_true]
  unfold Normal.climb
  split
  · simp [h, List.dropLast_append_of_ne_nil h]
  · split <;> simp

/-- A name is entered. -/
theorem name_climb (n : Normal) (levels : ℕ) (descent : List Bytes) {name : Bytes}
    (hdot : name ≠ dot) (hdots : name ≠ dotDot) :
    (n.climb levels descent).step name = n.climb levels (descent ++ [name]) := by
  simp only [Normal.step, hdot, hdots, if_false]
  unfold Normal.climb
  split
  · simp
  · split <;> simp

/-- Following names keeps a root. -/
theorem walk_rooted (n : Normal) (steps : List Bytes) : (n.walk steps).rooted = n.rooted := by
  induction steps using List.reverseRecOn with
  | nil => rfl
  | append_singleton steps name ih =>
      rw [walk_append, ← ih]
      simp only [Normal.walk, List.foldl_cons, List.foldl_nil, Normal.step]
      split
      · rfl
      · split
        · split
          · split <;> rfl
          · rfl
        · rfl

/-- Names that are neither `.` nor `..` are entered one after the other. -/
theorem walk_names (n : Normal) {steps : List Bytes}
    (h : ∀ name ∈ steps, name ≠ dot ∧ name ≠ dotDot) :
    n.walk steps = { n with names := n.names ++ steps } := by
  induction steps generalizing n with
  | nil => simp [Normal.walk]
  | cons name rest ih =>
      obtain ⟨⟨hdot, hdots⟩, hrest⟩ := List.forall_mem_cons.mp h
      have hstep : n.step name = { n with names := n.names ++ [name] } := by
        rw [Normal.step, if_neg hdot, if_neg hdots]
      calc n.walk (name :: rest) = (n.step name).walk rest := rfl
        _ = { n with names := n.names ++ name :: rest } := by
            rw [ih _ hrest, hstep, List.append_assoc, List.singleton_append]

/-- Relative names climb and descend by their own normal form. -/
theorem walk_eq_climb (n : Normal) (steps : List Bytes) :
    n.walk steps = n.climb ((⟨false, 0, []⟩ : Normal).walk steps).ups
      ((⟨false, 0, []⟩ : Normal).walk steps).names := by
  induction steps using List.reverseRecOn with
  | nil => simp [Normal.walk, Normal.climb]
  | append_singleton steps name ih =>
      have hrooted := walk_rooted ⟨false, 0, []⟩ steps
      rw [walk_append, walk_append, ih]
      generalize (⟨false, 0, []⟩ : Normal).walk steps = relative at hrooted
      obtain ⟨rooted, levels, descent⟩ := relative
      simp only at hrooted
      subst hrooted
      simp only [Normal.walk, List.foldl_cons, List.foldl_nil]
      by_cases hdot : name = dot
      · simp [Normal.step, hdot]
      by_cases hdots : name = dotDot
      · subst hdots
        by_cases hdescent : descent = []
        · subst hdescent
          rw [back_climb]
          simp [Normal.step, hdot]
        · rw [back_descent n levels hdescent]
          simp [Normal.step, hdot, hdescent]
      · rw [name_climb n levels descent hdot hdots]
        simp [Normal.step, hdot, hdots]

/-- Appending a relative path climbs and descends from the normal form of the left side. -/
theorem normal_append (p : Bytes) {q : Bytes} (h : isAbsolute q = false) :
    normal (append p q) = (normal p).climb (normal q).ups (normal q).names := by
  unfold normal
  rw [isAbsolute_append p h, names_append p h, walk_append, walk_eq_climb _ (names q), h]

/-! ## Below a directory -/

/-- A common start does not matter for what lies below what. -/
theorem properPrefix_append_left (start front whole : List Bytes) :
    ProperPrefix (start ++ front) (start ++ whole) ↔ ProperPrefix front whole := by
  simp [ProperPrefix, List.prefix_append_right_inj]

/-- What lies below what in a directory goes by the names there. -/
theorem strictlyBelow_append_iff (n : Normal) (front whole : List Bytes) :
    StrictlyBelow { n with names := n.names ++ front } { n with names := n.names ++ whole } ↔
      ProperPrefix front whole := by
  simp [StrictlyBelow, properPrefix_append_left]

/-- Climbing and descending comes below the start exactly when it returns. -/
theorem strictlyBelow_climb_iff (base : Normal) (levels : ℕ) (descent : List Bytes) :
    StrictlyBelow base (base.climb levels descent) ↔ base.Returns levels descent := by
  unfold Normal.climb Normal.Returns
  by_cases hlevels : levels ≤ base.names.length
  · have hstarts := properPrefix_append_left (base.names.take (base.names.length - levels))
      (base.names.drop (base.names.length - levels)) descent
    rw [List.take_append_drop] at hstarts
    simpa [hlevels, StrictlyBelow] using hstarts
  · by_cases hrooted : base.rooted = true
    · simp [hlevels, hrooted, StrictlyBelow]
    · have hclimb : levels - base.names.length ≠ 0 := by omega
      simp [hlevels, hrooted, StrictlyBelow, hclimb]

/-- Below a directory, the last step can be another name. -/
theorem StrictlyBelow.step_name {base n : Normal} {leaf name : Bytes}
    (h : StrictlyBelow base (n.step leaf)) (hbase : base.names ≠ []) (hdot : name ≠ dot)
    (hdots : name ≠ dotDot) : StrictlyBelow base (n.step name) := by
  have hstart : base.rooted = n.rooted ∧ base.ups = n.ups ∧ base.names <+: n.names := by
    obtain ⟨hrooted, hups, hstarts, hne⟩ := h
    by_cases hleaf : leaf = dot
    · rw [Normal.step, if_pos hleaf] at hrooted hups hstarts
      exact ⟨hrooted, hups, hstarts⟩
    by_cases hback : leaf = dotDot
    · rw [Normal.step, if_neg hleaf, if_pos hback] at hrooted hups hstarts
      by_cases hnames : n.names = []
      · -- nothing is below a directory with names when there are none
        rw [if_pos hnames] at hstarts
        have hnil : base.names <+: [] := by
          split at hstarts <;> simpa [hnames] using hstarts
        exact absurd (List.prefix_nil.mp hnil) hbase
      · rw [if_neg hnames] at hrooted hups hstarts
        exact ⟨hrooted, hups, hstarts.trans (List.dropLast_prefix _)⟩
    · rw [Normal.step, if_neg hleaf, if_neg hback] at hrooted hups hstarts hne
      exact ⟨hrooted, hups, (List.prefix_concat_iff.mp hstarts).resolve_left hne⟩
  obtain ⟨hrooted, hups, hstarts⟩ := hstart
  rw [Normal.step, if_neg hdot, if_neg hdots]
  refine ⟨hrooted, hups, hstarts.trans (List.prefix_append _ _), ?_⟩
  intro heq
  have hlength := hstarts.length_le
  have hsame := congrArg List.length heq
  simp only [List.length_append, List.length_singleton] at hsame
  omega

/-- Bytes behind a path that is not empty do not change whether it is absolute. -/
theorem isAbsolute_append_of_ne_nil {p : Bytes} (h : p ≠ []) (rest : Bytes) :
    isAbsolute (p ++ rest) = isAbsolute p := by
  obtain ⟨c, cs, rfl⟩ := List.exists_cons_of_ne_nil h
  rw [List.cons_append, isAbsolute_cons, isAbsolute_cons]

/-- A path with a last name: a text appended to the path goes to that name. -/
theorem exists_last_name {p : Bytes} (h : hasFilename p = true) : ∃ front leaf,
    names p = front ++ [leaf] ∧
      ∀ suffix, slash ∉ suffix → names (p ++ suffix) = front ++ [leaf ++ suffix] := by
  simp only [hasFilename, decide_eq_true_eq] at h
  obtain ⟨hne, hlast⟩ := h
  rcases beforeLast_cases slash p with ⟨hmem, -⟩ | ⟨front, leaf, hleaf, rfl, -⟩
  · have hone : ∀ suffix, slash ∉ suffix → names (p ++ suffix) = [p ++ suffix] := by
      intro suffix hsuffix
      rw [names, pieces_of_not_mem (by simp [hmem, hsuffix])]
      simp [hne]
    exact ⟨[], p, by simpa using hone [] (by simp), hone⟩
  · have hleafNe : leaf ≠ [] := by
      rintro rfl
      simp at hlast
    have hone : ∀ suffix, slash ∉ suffix → names (leaf ++ suffix) = [leaf ++ suffix] := by
      intro suffix hsuffix
      rw [names, pieces_of_not_mem (by simp [hleaf, hsuffix])]
      simp [hleafNe]
    refine ⟨names front, leaf, ?_, ?_⟩
    · rw [names_append_slash, ← List.append_nil leaf, hone [] (by simp)]
    · intro suffix hsuffix
      rw [List.append_assoc, List.cons_append, names_append_slash, hone suffix hsuffix]

/-- A path with a last name is a step by this name, and a text appended to the path goes to the
name. -/
theorem exists_leaf {p : Bytes} (h : hasFilename p = true) : ∃ above leaf,
    ∀ suffix, slash ∉ suffix → normal (p ++ suffix) = Normal.step above (leaf ++ suffix) := by
  have hne : p ≠ [] := by
    rintro rfl
    simp [hasFilename] at h
  obtain ⟨front, leaf, -, hnames⟩ := exists_last_name h
  refine ⟨Normal.walk ⟨isAbsolute p, 0, []⟩ front, leaf, fun suffix hsuffix => ?_⟩
  rw [normal, hnames suffix hsuffix, isAbsolute_append_of_ne_nil hne, walk_append]
  rfl

end Vtfs.Library.PosixPath
