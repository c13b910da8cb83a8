import Vtfs.Analysis.ProjectedNames
import Vtfs.Interface.MaterializedPaths

/-!
# Materialized paths stay below the root

A sanitised name has no character that Windows does not take and no dot or space at its end
(`sanitized`), so it has no slash, and the wide path is cut into the names it was joined from
(`projectedTokens_joined`).  Each of them is a component that `operator/=` adds after the root.
-/

set_option autoImplicit false

namespace Vtfs.Analysis

open Vtfs.Library
open Vtfs.Model
open Vtfs.Interface

/-! ## Sanitised names -/

/-- What sanitising leaves: characters that Windows takes, and another last one than a dot or a
space. -/
structure Sanitized (name : Wide) : Prop where
  nonempty : name ≠ []
  no_low : ∀ ch ∈ name, ¬ ch < 32
  no_invalid : ∀ ch ∈ name, ch ∉ invalidChars
  no_dot_last : name.getLast? ≠ some (wideChar '.')
  no_space_last : name.getLast? ≠ some (wideChar ' ')

/-- What replaces a character is an underscore or one that Windows takes. -/
theorem mem_replaced {name : Wide} {ch : UInt16}
    (h : ch ∈ name.map fun ch => if ch < 32 ∨ ch ∈ invalidChars then wideChar '_' else ch) :
    ch = wideChar '_' ∨ ch ∈ name ∧ ¬ ch < 32 ∧ ch ∉ invalidChars := by
  obtain ⟨original, hmem, hch⟩ := List.mem_map.mp h
  split at hch
  · exact Or.inl hch.symm
  · rename_i hvalid
    subst hch
    exact Or.inr ⟨hmem, not_or.mp hvalid⟩

/-- A sanitised name has characters of the name that Windows takes, and underscores; its last
character is no dot and no space. -/
theorem sanitize_cases (name : Wide) : ∃ front last,
    sanitizeWindowsComponent name = front ++ [last] ∧
      (∀ ch ∈ front ++ [last], ch = wideChar '_' ∨ ch ∈ name ∧ ¬ ch < 32 ∧ ch ∉ invalidChars) ∧
      last ≠ wideChar '.' ∧ last ≠ wideChar ' ' := by
  rcases List.eq_nil_or_concat' name with rfl | ⟨before, original, rfl⟩
  · exact ⟨[], wideChar '_', rfl, by simp, by decide, by decide⟩
  · have hchars := fun ch => @mem_replaced (before ++ [original]) ch
    unfold sanitizeWindowsComponent
    dsimp only
    rw [List.map_append, List.map_singleton] at hchars ⊢
    generalize before.map (fun ch => if ch < 32 ∨ ch ∈ invalidChars then wideChar '_' else ch) =
      front at hchars ⊢
    generalize (if original < 32 ∨ original ∈ invalidChars then wideChar '_' else original) =
      last at hchars ⊢
    rw [List.getLast?_concat]
    dsimp only
    by_cases htrim : last = wideChar ' ' ∨ last = wideChar '.'
    · refine ⟨front, wideChar '_', by simp [htrim], fun ch hch => ?_, by decide, by decide⟩
      rcases List.mem_append.mp hch with hch | hch
      · exact hchars ch (List.mem_append_left _ hch)
      · exact Or.inl (List.mem_singleton.mp hch)
    · obtain ⟨hspace, hdot⟩ := not_or.mp htrim
      exact ⟨front, last, by simp [htrim], hchars, hdot, hspace⟩

/-- What is left of a name is sanitized. -/
theorem sanitized (name : Wide) : Sanitized (sanitizeWindowsComponent name) := by
  obtain ⟨front, last, hname, hchars, hdot, hspace⟩ := sanitize_cases name
  have hunderscore : ¬ wideChar '_' < 32 ∧ wideChar '_' ∉ invalidChars := by decide
  rw [hname]
  refine ⟨by simp, fun ch hch => ?_, fun ch hch => ?_, by simpa using hdot, by simpa using hspace⟩
  · rcases hchars ch hch with rfl | ⟨-, hlow, -⟩
    · exact hunderscore.1
    · exact hlow
  · rcases hchars ch hch with rfl | ⟨-, -, hvalid⟩
    · exact hunderscore.2
    · exact hvalid

/-- A sanitised name is left as it is. -/
theorem Sanitized.sanitize_eq {name : Wide} (h : Sanitized name) :
    sanitizeWindowsComponent name = name := by
  have hmap : name.map (fun ch => if ch < 32 ∨ ch ∈ invalidChars then wideChar '_' else ch) =
      name := by
    conv_rhs => rw [← List.map_id name]
    apply List.map_congr_left
    intro ch hch
    rw [if_neg (not_or.mpr ⟨h.no_low ch hch, h.no_invalid ch hch⟩)]
    rfl
  obtain ⟨front, last, rfl⟩ := (List.eq_nil_or_concat' name).resolve_left h.nonempty
  have hdot : last ≠ wideChar '.' := by simpa using h.no_dot_last
  have hspace : last ≠ wideChar ' ' := by simpa using h.no_space_last
  unfold sanitizeWindowsComponent
  dsimp only
  rw [hmap, List.getLast?_concat]
  simp [hdot, hspace]

/-- A sanitized name is left as it is. -/
theorem sanitize_idem (name : Wide) :
    sanitizeWindowsComponent (sanitizeWindowsComponent name) = sanitizeWindowsComponent name :=
  (sanitized name).sanitize_eq

/-! ## ASCII names -/

/-- Characters that are kept are printable. -/
theorem isKept_lt {ch : UInt8} (h : isKept ch = true) : ch.toUInt16 < 127 ∧ 32 ≤ ch.toUInt16 := by
  have hfinite : ∀ n < 256, isKept (UInt8.ofNat n) = true →
      (UInt8.ofNat n).toUInt16 < 127 ∧ 32 ≤ (UInt8.ofNat n).toUInt16 := by decide +kernel
  have hch := hfinite ch.toNat ch.toNat_lt
  rw [UInt8.ofNat_toNat] at hch
  exact hch h

/-- The characters of the hash are digits. -/
theorem mem_hashSuffix {hash : UInt32} {ch : UInt16} (h : ch ∈ hashSuffix hash) : ch < 127 := by
  have hfinite : ∀ n < 16, (if UInt16.ofNat n < 10 then wideChar '0' + UInt16.ofNat n
      else wideChar 'A' + (UInt16.ofNat n - 10)) < 127 := by decide
  rcases List.mem_cons.mp h with rfl | h
  · decide
  · obtain ⟨i, -, rfl⟩ := List.mem_map.mp h
    generalize hdigit : (hash >>> (28 - 4 * i).toUInt32 &&& 0xF).toUInt16 = digit
    have hlt : digit.toNat < 16 := by
      rw [← hdigit, UInt32.toNat_toUInt16, UInt32.toNat_and]
      have hand : (hash >>> (28 - 4 * i).toUInt32).toNat &&& (0xF : UInt32).toNat ≤ 15 :=
        Nat.and_le_right
      exact lt_of_le_of_lt (Nat.mod_le _ _) (Nat.lt_succ_of_le hand)
    have hch := hfinite digit.toNat hlt
    rwa [UInt16.ofNat_toNat] at hch

/-- An ASCII name has no character after the tilde. -/
theorem mem_asciiFallbackComponent {token : Bytes} {ch : UInt16}
    (h : ch ∈ asciiFallbackComponent token) : ch < 127 := by
  obtain ⟨front, last, hname, hchars, -, -⟩ := sanitize_cases
    ((if token.map (fun ch => if isKept ch then ch.toUInt16 else wideChar '_') = [] then
      wideText "file" else token.map fun ch => if isKept ch then ch.toUInt16 else wideChar '_') ++
        hashSuffix (componentHash token))
  rw [asciiFallbackComponent, hname] at h
  rcases hchars ch h with rfl | ⟨hmem, -, -⟩
  · decide
  rcases List.mem_append.mp hmem with hmem | hmem
  · split at hmem
    · have hfile : (wideText "file").all (· < 127) = true := by decide
      exact of_decide_eq_true (List.all_eq_true.mp hfile ch hmem)
    · obtain ⟨original, -, rfl⟩ := List.mem_map.mp hmem
      split
      · rename_i hkept
        exact (isKept_lt hkept).1
      · decide
  · exact mem_hashSuffix hmem

/-! ## The names of tokens -/

section Names

variable (decoder : MultiByteToWideChar) (forceAscii : Bool) (token : Bytes)

/-- Both kinds of components are sanitized. -/
theorem sanitized_componentFor : Sanitized (componentFor decoder forceAscii token) := by
  unfold componentFor
  split
  · exact sanitized _
  · exact sanitized _

end Names

/-- A sanitized name is a component of a path. -/
theorem Sanitized.isComponent {name : Wide} (h : Sanitized name) :
    WindowsPath.IsComponent name := by
  refine ⟨h.nonempty, fun ch hch => ?_, fun hcolon => h.no_invalid _ hcolon (by decide)⟩
  have hslash : ch ≠ WindowsPath.slash := by
    rintro rfl
    exact h.no_invalid _ hch (by decide)
  have hback : ch ≠ WindowsPath.backslash := by
    rintro rfl
    exact h.no_invalid _ hch (by decide)
  simp [WindowsPath.isSeparator, hslash, hback]

/-- A sanitized name without control characters is safe. -/
theorem Sanitized.isSafeComponent {name : Wide} (h : Sanitized name) {control : UInt16 → Prop}
    (hcontrol : ∀ ch ∈ name, ¬ control ch) : IsSafeComponent control name where
  nonempty := h.nonempty
  no_control := hcontrol
  no_invalid := h.no_invalid
  no_dot_last := h.no_dot_last
  no_space_last := h.no_space_last
  not_dot heq := h.no_dot_last (by rw [heq]; decide)
  not_dotDot heq := h.no_dot_last (by rw [heq]; decide)
  not_absolute := h.isComponent.isAbsolute_eq

/-! ## The path -/

/-- The wide path has the names of the tokens with slashes between them. -/
theorem relativeProjectedPathFor_eq (decoder : MultiByteToWideChar) (path : Bytes)
    (forceAscii : Bool) :
    relativeProjectedPathFor decoder path forceAscii =
      (rooted (wideChar '/') ((pathTokens path).map (componentFor decoder forceAscii))).tail := by
  have hne : ∀ name ∈ (pathTokens path).map (componentFor decoder forceAscii), name ≠ [] := by
    intro name hname
    obtain ⟨token, -, rfl⟩ := List.mem_map.mp hname
    exact (sanitized_componentFor decoder forceAscii token).nonempty
  rw [← foldl_join hne, List.foldl_map]
  rfl

/-- A joined path is cut into the names that it was joined from. -/
theorem projectedTokens_joined {names : List Wide} (h : ∀ name ∈ names, Sanitized name) :
    projectedTokens (rooted (wideChar '/') names).tail = names := by
  rcases List.eq_nil_or_concat' names with rfl | ⟨front, last, rfl⟩
  · rfl
  · have hpieces : pieces (wideChar '/') (rooted (wideChar '/') (front ++ [last])).tail =
        front ++ [last] :=
      pieces_tail_rooted (by simp) fun name hname hslash =>
        (h name hname).no_invalid _ hslash (by decide)
    have hlast : last ≠ [] := (h last (by simp)).nonempty
    rw [projectedTokens, hpieces, List.getLast?_concat, if_neg (by simpa using hlast)]

/-- The path is the root, followed by the components. -/
theorem materializedPath_eq (decoder : MultiByteToWideChar) (root : Wide) (path : Bytes)
    (forceAscii : Bool) :
    materializedPath decoder root path forceAscii =
      followedBy root ((pathTokens path).map (componentFor decoder forceAscii)) := by
  have hnames : ∀ name ∈ (pathTokens path).map (componentFor decoder forceAscii),
      Sanitized name := by
    intro name hname
    obtain ⟨token, -, rfl⟩ := List.mem_map.mp hname
    exact sanitized_componentFor decoder forceAscii token
  rw [materializedPath, relativeProjectedPathFor_eq, projectedTokens_joined hnames]
  generalize (pathTokens path).map (componentFor decoder forceAscii) = names at hnames
  cases names with
  | nil => rfl
  | cons first rest => exact WindowsPath.foldl_append root fun name hname =>
      (hnames name hname).isComponent

/-- **Materialized paths.**  For every root, path, decoding and mode, the path is the root followed
by one safe name for each token, without characters below 32, and without any control character in
an ASCII name; and sanitising a name twice is sanitising it once.
SRCLINE: VirtualDrive.cpp:52-67, VirtualDrive.cpp:101-117, VirtualDrive.cpp:157-194 -/
theorem materializedPath_confined (decoder : MultiByteToWideChar) (root : Wide) (path : Bytes)
    (forceAscii : Bool) :
    Materializes (fun ch => ch < 32 ∨ forceAscii = true ∧ IsControl ch) decoder root path
        forceAscii ∧
      ∀ name, sanitizeWindowsComponent (sanitizeWindowsComponent name) =
        sanitizeWindowsComponent name := by
  refine ⟨⟨materializedPath_eq decoder root path forceAscii, fun token _ => ?_⟩, sanitize_idem⟩
  have hsanitized := sanitized_componentFor decoder forceAscii token
  refine hsanitized.isSafeComponent fun ch hch => not_or.mpr ⟨hsanitized.no_low ch hch, ?_⟩
  rintro ⟨rfl, hcontrol⟩
  rcases hcontrol with hlow | ⟨hhigh, -⟩
  · exact hsanitized.no_low ch hch hlow
  · exact absurd (mem_asciiFallbackComponent hch) (UInt16.not_lt.mpr hhigh)

/-- A name of the one character U+007F is left as it is decoded. -/
theorem materializedPath_confined_fails : ¬ ∀ decoder root path forceAscii,
    Materializes IsControl decoder root path forceAscii := by
  intro h
  have hsafe := (h widened (wideText "C:\\root") [127] false).safe [127] (by decide)
  exact hsafe.no_control 127 (by decide) (by decide)

end Vtfs.Analysis
