import Vtfs.Library.PosixPath

/-!
# The text of a lexically normal path

`lexicallyNormal` writes the normal form of a path as `lexically_normal` does: a root or the
climbs, then the names, and a separator at the end when the path leads to a directory by its text.
Two paths have one such text exactly when they have one normal form and both lead to a directory
so, or neither does (`lexicallyNormal_eq_iff`).
-/

set_option autoImplicit false

namespace Vtfs.Library.PosixPath

/-- The elements of a normal form: `..` for each climb, and the names. -/
def Normal.steps (n : Normal) : List Bytes := List.replicate n.ups dotDot ++ n.names

/-- A name that stays in a normal form. -/
structure IsName (name : Bytes) : Prop where
  nonempty : name ≠ []
  no_slash : slash ∉ name
  not_dot : name ≠ dot
  not_dotDot : name ≠ dotDot

/-- A normal form that a path can have: its names are names, and a rooted one does not climb. -/
structure Normal.Valid (n : Normal) : Prop where
  names : ∀ name ∈ n.names, IsName name
  root : n.rooted = true → n.ups = 0

/-- The names of a path lead to a directory: after the last one comes a separator, or the last
one is `.` or `..`. -/
def leadsToDirectory (p : Bytes) : Bool :=
  p.getLast? = some slash ∨ (names p).getLast? = some dot ∨ (names p).getLast? = some dotDot

/-- A separator stays at the end of the normal form. -/
def endsInSeparator (p : Bytes) : Bool := (normal p).names ≠ [] ∧ leadsToDirectory p

/-- The text of a normal form, with a separator at its end or without. -/
def Normal.text (n : Normal) (trailing : Bool) : Bytes :=
  let out := (if n.rooted then [slash] else []) ++ (Vtfs.Library.rooted slash n.steps).tail ++
    (if trailing then [slash] else [])
  if out = [] then dot else out

/-- `lexically_normal`. -/
def lexicallyNormal (p : Bytes) : Bytes :=
  if p = [] then [] else (normal p).text (endsInSeparator p)

example : lexicallyNormal (bytes "a/./b//../../..") = bytes ".." := by decide +kernel

example : lexicallyNormal (bytes "/c/../a/b/.") = bytes "/a/b/" := by decide +kernel

/-! ## The names of a path -/

/-- Slashes at the end of a path add no name. -/
theorem names_append_slashes (p : Bytes) (k : ℕ) :
    names (p ++ List.replicate k slash) = names p := by
  induction k with
  | zero => simp
  | succ k ih =>
      rw [List.replicate_succ', ← List.append_assoc, names_append_slash, names_nil, ih,
        List.append_nil]

/-- A path with a file name has a name. -/
theorem names_ne_nil {p : Bytes} (h : hasFilename p = true) : names p ≠ [] := by
  obtain ⟨front, leaf, hnames, -⟩ := exists_last_name h
  simp [hnames]

/-- A name is not empty and has no slash. -/
theorem isSegment_of_mem_names {p name : Bytes} (h : name ∈ names p) :
    name ≠ [] ∧ slash ∉ name := by
  obtain ⟨hmem, hne⟩ := List.mem_filter.mp h
  exact ⟨by simpa using hne, sep_not_mem_of_mem_pieces hmem⟩

/-- Following a name keeps a normal path one. -/
theorem valid_step {n : Normal} (h : n.Valid) {name : Bytes} (hne : name ≠ [])
    (hslash : slash ∉ name) : (n.step name).Valid := by
  unfold Normal.step
  by_cases hdot : name = dot
  · rwa [if_pos hdot]
  rw [if_neg hdot]
  by_cases hdots : name = dotDot
  · rw [if_pos hdots]
    split
    · split
      · exact h
      · rename_i hroot
        exact ⟨h.names, fun hrooted => absurd hrooted hroot⟩
    · exact ⟨fun q hq => h.names q (List.dropLast_subset _ hq), h.root⟩
  · rw [if_neg hdots]
    refine ⟨fun q hq => ?_, h.root⟩
    rcases List.mem_append.mp hq with hq | hq
    · exact h.names q hq
    · rw [List.mem_singleton.mp hq]
      exact ⟨hne, hslash, hdot, hdots⟩

/-- So does following names. -/
theorem valid_walk {n : Normal} (h : n.Valid) {steps : List Bytes}
    (hsteps : ∀ name ∈ steps, name ≠ [] ∧ slash ∉ name) : (n.walk steps).Valid := by
  induction steps generalizing n with
  | nil => exact h
  | cons name rest ih =>
      obtain ⟨hne, hslash⟩ := hsteps name (by simp)
      exact ih (valid_step h hne hslash) fun q hq => hsteps q (List.mem_cons_of_mem _ hq)

/-- The normal form of a path is valid. -/
theorem valid_normal (p : Bytes) : (normal p).Valid :=
  valid_walk ⟨by simp, fun _ => rfl⟩ fun _ hname => isSegment_of_mem_names hname

/-! ## What the text determines -/

/-- The steps of a normal path are names. -/
theorem Normal.Valid.isSegment_of_mem_steps {n : Normal} (h : n.Valid) {name : Bytes}
    (hname : name ∈ n.steps) : name ≠ [] ∧ slash ∉ name := by
  rcases List.mem_append.mp hname with hup | hname
  · rw [List.eq_of_mem_replicate hup]
    decide
  · exact ⟨(h.names name hname).nonempty, (h.names name hname).no_slash⟩

/-- No step of a normal path is a dot. -/
theorem Normal.Valid.dot_not_mem_steps {n : Normal} (h : n.Valid) : dot ∉ n.steps := by
  intro hmem
  rcases List.mem_append.mp hmem with hup | hname
  · exact absurd (List.eq_of_mem_replicate hup) (by decide)
  · exact (h.names dot hname).not_dot rfl

/-- The climbs and the names are told apart: no name is `..`. -/
theorem steps_injective {n n' : Normal} (h : n.Valid) (h' : n'.Valid)
    (heq : n.steps = n'.steps) : n.ups = n'.ups ∧ n.names = n'.names := by
  have hcount : ∀ {m : Normal}, m.Valid → m.steps.count dotDot = m.ups := by
    intro m hm
    have hnames : m.names.count dotDot = 0 :=
      List.count_eq_zero.mpr fun hmem => (hm.names _ hmem).not_dotDot rfl
    rw [Normal.steps, List.count_append, List.count_replicate_self, hnames, Nat.add_zero]
  have hups : n.ups = n'.ups := by rw [← hcount h, ← hcount h', heq]
  rw [Normal.steps, Normal.steps, hups] at heq
  exact ⟨hups, List.append_cancel_left heq⟩

/-- Names joined with separators. -/
def joinNames (steps : List Bytes) : Bytes := (Vtfs.Library.rooted slash steps).tail

/-- Names with slashes between them are found again. -/
theorem names_joinNames {steps : List Bytes} (h : ∀ q ∈ steps, q ≠ [] ∧ slash ∉ q) :
    names (joinNames steps) = steps := by
  by_cases hnil : steps = []
  · subst hnil
    rfl
  · rw [names, joinNames, pieces_tail_rooted hnil fun q hq => (h q hq).2]
    exact List.filter_eq_self.mpr fun q hq => by simpa using (h q hq).1

/-- Names with slashes between them begin no absolute path. -/
theorem isAbsolute_joinNames {steps : List Bytes} (h : ∀ q ∈ steps, q ≠ [] ∧ slash ∉ q)
    (rest : Bytes) (hne : steps ≠ []) : isAbsolute (joinNames steps ++ rest) = false := by
  obtain ⟨q, qs, rfl⟩ := List.exists_cons_of_ne_nil hne
  obtain ⟨hq, hslash⟩ := h q (by simp)
  obtain ⟨c, cs, rfl⟩ := List.exists_cons_of_ne_nil hq
  have htext : joinNames ((c :: cs) :: qs) = c :: (cs ++ Vtfs.Library.rooted slash qs) := by
    simp [joinNames, Vtfs.Library.rooted]
  rw [htext, List.cons_append, isAbsolute_cons]
  exact decide_eq_false fun heq => hslash (by simp [heq])

/-- Names with slashes between them do not end with a slash. -/
theorem getLast?_joinNames {steps : List Bytes} (h : ∀ q ∈ steps, q ≠ [] ∧ slash ∉ q) :
    (joinNames steps).getLast? ≠ some slash := by
  rcases List.eq_nil_or_concat' steps with rfl | ⟨front, leaf, rfl⟩
  · simp [joinNames, Vtfs.Library.rooted]
  · obtain ⟨hleaf, hslash⟩ := h leaf (by simp)
    have htext : joinNames (front ++ [leaf]) =
        (Vtfs.Library.rooted slash front ++ [slash]).tail ++ leaf := by
      rw [joinNames, rooted_append, ← List.tail_append_of_ne_nil (by simp)]
      simp [Vtfs.Library.rooted]
    rw [htext, List.getLast?_append_of_ne_nil _ hleaf]
    exact fun hlast => hslash (List.mem_of_getLast? hlast)

/-- One name at least makes a text. -/
theorem joinNames_ne_nil {steps : List Bytes} (h : ∀ q ∈ steps, q ≠ [] ∧ slash ∉ q)
    (hne : steps ≠ []) : joinNames steps ≠ [] := by
  intro hnil
  have hnames := names_joinNames h
  rw [hnil, names_nil] at hnames
  exact hne hnames.symm

/-- What follows the last element in the text of a normal form. -/
def ending (trailing : Bool) : Bytes := if trailing then [slash] else []

/-- The ending of a path adds no name. -/
theorem names_append_ending (p : Bytes) (trailing : Bool) :
    names (p ++ ending trailing) = names p := by
  cases trailing with
  | false => rw [ending, if_neg (by decide), List.append_nil]
  | true => rw [ending, if_pos rfl, names_append_slash, names_nil, List.append_nil]

/-- The text of a normal form: after a root; of a relative path with elements; or `.`. -/
theorem text_cases {n : Normal} (hn : n.Valid) {trailing : Bool}
    (h : trailing = true → n.names ≠ []) :
    (n.rooted = true ∧ n.text trailing = slash :: (joinNames n.steps ++ ending trailing)) ∨
    (n.rooted = false ∧ n.steps ≠ [] ∧ n.text trailing = joinNames n.steps ++ ending trailing) ∨
    (n.rooted = false ∧ n.steps = [] ∧ trailing = false ∧ n.text trailing = dot) := by
  cases hroot : n.rooted with
  | true =>
      left
      refine ⟨rfl, ?_⟩
      simp [Normal.text, hroot, joinNames, ending]
  | false =>
      right
      by_cases hsteps : n.steps = []
      · right
        have hnames : n.names = [] := (List.append_eq_nil_iff.mp hsteps).2
        have htrailing : trailing = false := by
          by_contra htrue
          exact h (by simpa using htrue) hnames
        refine ⟨rfl, hsteps, htrailing, ?_⟩
        simp [Normal.text, hroot, hsteps, htrailing, Vtfs.Library.rooted]
      · left
        have hjoin := joinNames_ne_nil (fun q hq => hn.isSegment_of_mem_steps hq) hsteps
        rw [joinNames] at hjoin
        refine ⟨rfl, hsteps, ?_⟩
        simp [Normal.text, hroot, hjoin, joinNames, ending]

/-- The text of a normal path is absolute when the path is. -/
theorem isAbsolute_text {n : Normal} (hn : n.Valid) {trailing : Bool}
    (h : trailing = true → n.names ≠ []) : isAbsolute (n.text trailing) = n.rooted := by
  have hsegments : ∀ q ∈ n.steps, q ≠ [] ∧ slash ∉ q := fun q hq => hn.isSegment_of_mem_steps hq
  rcases text_cases hn h with ⟨hroot, htext⟩ | ⟨hroot, hsteps, htext⟩ | ⟨hroot, -, -, htext⟩
  · rw [htext, hroot, isAbsolute_cons]
    rfl
  · rw [htext, hroot, isAbsolute_joinNames hsegments _ hsteps]
  · rw [htext, hroot]
    rfl

/-- The names of the text are the elements, or `.` when a relative path has none. -/
theorem names_text {n : Normal} (hn : n.Valid) {trailing : Bool}
    (h : trailing = true → n.names ≠ []) :
    names (n.text trailing) = if n.rooted = false ∧ n.steps = [] then [dot] else n.steps := by
  have hsegments : ∀ q ∈ n.steps, q ≠ [] ∧ slash ∉ q := fun q hq => hn.isSegment_of_mem_steps hq
  rcases text_cases hn h with ⟨hroot, htext⟩ | ⟨hroot, hsteps, htext⟩ | ⟨hroot, hsteps, -, htext⟩
  · rw [htext, if_neg (by simp [hroot]), names_slash_cons, names_append_ending,
      names_joinNames hsegments]
  · rw [htext, if_neg (by simp [hsteps]), names_append_ending, names_joinNames hsegments]
  · rw [htext, if_pos ⟨hroot, hsteps⟩]
    decide

/-- Where there is a name, the text ends in a separator exactly when it is to. -/
theorem getLast?_text {n : Normal} (hn : n.Valid) {trailing : Bool} (hnames : n.names ≠ []) :
    (n.text trailing).getLast? = some slash ↔ trailing = true := by
  have hsegments : ∀ q ∈ n.steps, q ≠ [] ∧ slash ∉ q := fun q hq => hn.isSegment_of_mem_steps hq
  have hsteps : n.steps ≠ [] := fun hnil => hnames (List.append_eq_nil_iff.mp hnil).2
  have hlast : (joinNames n.steps ++ ending trailing).getLast? = some slash ↔ trailing = true := by
    cases trailing with
    | false => simpa [ending] using getLast?_joinNames hsegments
    | true => simp [ending]
  have hne : joinNames n.steps ++ ending trailing ≠ [] := by
    simp [joinNames_ne_nil hsegments hsteps]
  rcases text_cases hn (fun _ => hnames) with ⟨-, htext⟩ | ⟨-, -, htext⟩ | ⟨-, hnil, -⟩
  · rw [htext, List.getLast?_cons_of_ne_nil hne, hlast]
  · rw [htext, hlast]
  · exact absurd hnil hsteps

/-- The text determines the normal form and whether a separator is at the end. -/
theorem text_injective {n n' : Normal} (hn : n.Valid) (hn' : n'.Valid) {trailing trailing' : Bool}
    (h : trailing = true → n.names ≠ []) (h' : trailing' = true → n'.names ≠ [])
    (heq : n.text trailing = n'.text trailing') : n = n' ∧ trailing = trailing' := by
  have hroot : n.rooted = n'.rooted := by
    rw [← isAbsolute_text hn h, ← isAbsolute_text hn' h', heq]
  have hsteps : n.steps = n'.steps := by
    have hnames := congrArg names heq
    rw [names_text hn h, names_text hn' h', hroot] at hnames
    have hdot := hn.dot_not_mem_steps
    have hdot' := hn'.dot_not_mem_steps
    split at hnames
    · rename_i hnil
      split at hnames
      · rename_i hnil'
        rw [hnil.2, hnil'.2]
      · rw [← hnames] at hdot'
        simp at hdot'
    · split at hnames
      · rw [hnames] at hdot
        simp at hdot
      · exact hnames
  obtain ⟨hups, hnames⟩ := steps_injective hn hn' hsteps
  have hsame : n = n' := by
    obtain ⟨root, ups, names⟩ := n
    obtain ⟨root', ups', names'⟩ := n'
    simp only at hroot hups hnames
    rw [hroot, hups, hnames]
  subst hsame
  refine ⟨rfl, ?_⟩
  by_cases hnil : n.names = []
  · have hfalse : trailing = false := by simpa using mt h (not_not.mpr hnil)
    have hfalse' : trailing' = false := by simpa using mt h' (not_not.mpr hnil)
    rw [hfalse, hfalse']
  · have hlast : (n.text trailing).getLast? = some slash ↔ trailing = true := getLast?_text hn hnil
    rw [heq, getLast?_text hn hnil] at hlast
    exact Bool.eq_iff_iff.mpr hlast.symm

/-- **Equality after normalisation.**  Two paths that are not empty have one text exactly when
they have one normal form and both end in a separator, or neither does. -/
theorem lexicallyNormal_eq_iff {p q : Bytes} (hp : p ≠ []) (hq : q ≠ []) :
    lexicallyNormal p = lexicallyNormal q ↔
      normal p = normal q ∧ endsInSeparator p = endsInSeparator q := by
  have hends : ∀ r : Bytes, endsInSeparator r = true → (normal r).names ≠ [] := by
    intro r hr
    simp only [endsInSeparator, decide_eq_true_eq] at hr
    exact hr.1
  rw [lexicallyNormal, lexicallyNormal, if_neg hp, if_neg hq]
  constructor
  · exact text_injective (valid_normal p) (valid_normal q) (hends p) (hends q)
  · rintro ⟨hnormal, hsame⟩
    rw [hnormal, hsame]

end Vtfs.Library.PosixPath
