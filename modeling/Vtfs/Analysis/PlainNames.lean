import Vtfs.Interface.Exploring
import Vtfs.Analysis.MaterializedPaths
import Vtfs.Analysis.ProjectedNames

/-!
# The keys of plain names

A plain name is left as it is by the conversion and by sanitising (`componentFor_plain`), and no
ASCII name with a hash is one (`hashSuffix_isSuffix`).  So of two plain paths only the same have a
key in common (`hasKey_plain_iff`), and in a torrent of plain names every leading part of a path is
found under its own key (`projectedNames_plain`).
-/

set_option autoImplicit false

namespace Vtfs.Analysis

open Vtfs.Library
open Vtfs.Library.PosixPath (slash)
open Vtfs.Model
open Vtfs.Interface

/-! ## Wide characters -/

/-- Different bytes are different wide characters. -/
theorem toUInt16_injective : Function.Injective UInt8.toUInt16 := by
  intro a b hab
  have hnat := congrArg UInt16.toNat hab
  rw [UInt8.toNat_toUInt16, UInt8.toNat_toUInt16] at hnat
  exact UInt8.toNat_inj.mp hnat

/-- Different texts are different in wide characters. -/
theorem widen_injective : Function.Injective widen :=
  List.map_injective_iff.mpr toUInt16_injective

/-- The last character of a name is the last one that is wide. -/
theorem getLast?_widen_ne {name : Bytes} {last : UInt8} (hlast : name.getLast? ≠ some last) :
    (widen name).getLast? ≠ some last.toUInt16 := by
  intro heq
  rw [widen, List.getLast?_map] at heq
  obtain ⟨other, hother, hwide⟩ := Option.map_eq_some_iff.mp heq
  exact hlast (by rw [hother, toUInt16_injective hwide])

/-- Mapping parts maps what is written of them. -/
theorem map_rooted {α β : Type} (f : α → β) (sep : α) (parts : List (List α)) :
    (rooted sep parts).map f = rooted (f sep) (parts.map (List.map f)) := by
  simp [rooted, List.map_flatMap, List.flatMap_map]

/-! ## Plain names -/

section Plain

variable {name : Bytes} (h : IsPlainName name)
include h

/-- A plain name is a segment. -/
theorem isSegment_of_plain : IsSegment name where
  nonempty := h.nonempty
  no_slash hmem := h.valid _ (List.mem_map_of_mem hmem) (by decide)
  no_backslash hmem := h.valid _ (List.mem_map_of_mem hmem) (by decide)

/-- It has no slash. -/
theorem slash_not_mem_widen : wideChar '/' ∉ widen name :=
  fun hmem => h.valid _ hmem (by decide)

/-- It has no backslash. -/
theorem backslash_not_mem_widen : wideChar '\\' ∉ widen name :=
  fun hmem => h.valid _ hmem (by decide)

/-- It is not empty. -/
theorem widen_ne_nil : widen name ≠ [] := by
  simpa [widen] using h.nonempty

/-- It has no zero. -/
theorem zero_not_mem_widen : 0 ∉ widen name := by
  intro hmem
  obtain ⟨ch, hch, hzero⟩ := List.mem_map.mp hmem
  have hlow := (h.printable ch hch).1
  have hnul : ch = 0 := toUInt16_injective hzero
  rw [hnul] at hlow
  exact absurd hlow (by decide)

/-- It is sanitized. -/
theorem sanitized_widen : Sanitized (widen name) where
  nonempty := widen_ne_nil h
  no_low ch hmem := by
    obtain ⟨original, hch, rfl⟩ := List.mem_map.mp hmem
    have hlow := UInt8.le_iff_toNat_le.mp (h.printable original hch).1
    rw [UInt16.lt_iff_toNat_lt, UInt8.toNat_toUInt16]
    exact Nat.not_lt.mpr hlow
  no_invalid := h.valid
  no_dot_last := getLast?_widen_ne h.no_dot_last
  no_space_last := getLast?_widen_ne h.no_space_last

variable {decoder : MultiByteToWideChar} (hascii : AsciiIdentity decoder)
include hascii

/-- It is shown as it is. -/
theorem torrentTextToWide_plain : torrentTextToWide decoder name = widen name := by
  have hutf8 : decodeText decoder name .utf8 = widen name := by
    rw [decodeText, if_neg h.nonempty, hascii .utf8 name fun ch hch => (h.printable ch hch).2]
    rfl
  rw [torrentTextToWide, hutf8]
  exact if_pos (widen_ne_nil h)

/-- A plain name is a name of the drive as it is. -/
theorem componentFor_plain : componentFor decoder false name = widen name := by
  rw [componentFor, if_neg (by simp), torrentTextToWide_plain h hascii]
  exact (sanitized_widen h).sanitize_eq

end Plain

/-! ## Names with a hash -/

/-- What holds of an underscore and of the digits holds of the characters of a hash. -/
theorem forall_mem_hashSuffix {P : UInt16 → Prop} (hunderscore : P (wideChar '_'))
    (hdigits : ∀ n < 16, P (if UInt16.ofNat n < 10 then wideChar '0' + UInt16.ofNat n
      else wideChar 'A' + (UInt16.ofNat n - 10))) (hash : UInt32) :
    ∀ ch ∈ hashSuffix hash, P ch := by
  intro ch h
  rcases List.mem_cons.mp h with rfl | h
  · exact hunderscore
  · obtain ⟨i, -, rfl⟩ := List.mem_map.mp h
    generalize hdigit : (hash >>> (28 - 4 * i).toUInt32 &&& 0xF).toUInt16 = digit
    have hlt : digit.toNat < 16 := by
      rw [← hdigit, UInt32.toNat_toUInt16, UInt32.toNat_and]
      have hand : (hash >>> (28 - 4 * i).toUInt32).toNat &&& (0xF : UInt32).toNat ≤ 15 :=
        Nat.and_le_right
      exact lt_of_le_of_lt (Nat.mod_le _ _) (Nat.lt_succ_of_le hand)
    have hch := hdigits digit.toNat hlt
    rwa [UInt16.ofNat_toNat] at hch

/-- The hash at the end of a name is sanitized. -/
theorem sanitized_hashSuffix (hash : UInt32) : Sanitized (hashSuffix hash) := by
  have hchars := forall_mem_hashSuffix (P := fun ch => ¬ ch < 32 ∧ ch ∉ invalidChars ∧
    ch ≠ wideChar '.' ∧ ch ≠ wideChar ' ') (by decide) (by decide) hash
  refine ⟨by simp [hashSuffix], fun ch hch => (hchars ch hch).1, fun ch hch => (hchars ch hch).2.1,
    fun hlast => ?_, fun hlast => ?_⟩
  · exact (hchars _ (List.mem_of_getLast? hlast)).2.2.1 rfl
  · exact (hchars _ (List.mem_of_getLast? hlast)).2.2.2 rfl

/-- Sanitising leaves the end of a name that is sanitised already. -/
theorem isSuffix_sanitize (front : Wide) {suffix : Wide} (h : Sanitized suffix) :
    suffix <:+ sanitizeWindowsComponent (front ++ suffix) := by
  have hsame := h.sanitize_eq
  obtain ⟨before, last, rfl⟩ := (List.eq_nil_or_concat' suffix).resolve_left h.nonempty
  have hdot : last ≠ wideChar '.' := by simpa using h.no_dot_last
  have hspace : last ≠ wideChar ' ' := by simpa using h.no_space_last
  have hmap : (before ++ [last]).map (fun ch => if ch < 32 ∨ ch ∈ invalidChars then wideChar '_'
      else ch) = before ++ [last] := by
    conv_rhs => rw [← List.map_id (before ++ [last])]
    apply List.map_congr_left
    intro ch hch
    rw [if_neg (not_or.mpr ⟨h.no_low ch hch, h.no_invalid ch hch⟩)]
    rfl
  unfold sanitizeWindowsComponent
  dsimp only
  rw [List.map_append, hmap, ← List.append_assoc, List.getLast?_concat]
  simp [hdot, hspace]

/-- An ASCII name ends with the hash. -/
theorem hashSuffix_isSuffix (token : Bytes) :
    hashSuffix (componentHash token) <:+ asciiFallbackComponent token :=
  isSuffix_sanitize _ (sanitized_hashSuffix _)

/-! ## The keys of plain paths -/

/-- Names with slashes between them. -/
def joinedPath (names : List Bytes) : Bytes := (rooted slash names).tail

/-- Names with a slash before each. -/
theorem cons_joinedPath {names : List Bytes} (hne : names ≠ []) :
    slash :: joinedPath names = rooted slash names := by
  obtain ⟨name, rest, rfl⟩ := List.exists_cons_of_ne_nil hne
  rfl

/-- The names of a path come back as its tokens. -/
theorem pathTokens_joinedPath {names : List Bytes} (hne : names ≠ [])
    (hplain : ∀ name ∈ names, IsPlainName name) : pathTokens (joinedPath names) = names := by
  have hpieces : pieces slash (joinedPath names) = names :=
    pieces_tail_rooted hne fun name hname => (isSegment_of_plain (hplain name hname)).no_slash
  have hlast : names.getLast? ≠ some [] := fun hnil =>
    (hplain [] (List.mem_of_getLast? hnil)).nonempty rfl
  rw [pathTokens]
  simp only [hpieces, hlast, if_false]

/-- The leading parts of a path are its first names. -/
theorem leadingPaths_joinedPath {names : List Bytes} (hne : names ≠ [])
    (hplain : ∀ name ∈ names, IsPlainName name) :
    leadingPaths (joinedPath names) =
      (List.range names.length).map fun i => joinedPath (names.take (i + 1)) := by
  rw [leadingPaths, pathTokens_joinedPath hne hplain]
  refine List.map_congr_left fun i _ => ?_
  have hkept : (names.take (i + 1)).dropWhile (· = []) = names.take (i + 1) := by
    cases htake : names.take (i + 1) with
    | nil => rfl
    | cons name rest =>
        have hmem : name ∈ names := List.mem_of_mem_take (by rw [htake]; exact List.mem_cons_self)
        exact List.dropWhile_cons_of_neg (by simpa using (hplain name hmem).nonempty)
  rw [joined, hkept, joinedPath]

/-- The key of names, each as it is. -/
def plainKey (names : List Bytes) : Wide := rooted (wideChar '/') (names.map widen)

section Keys

variable {decoder : MultiByteToWideChar} (hascii : AsciiIdentity decoder)

/-- The key of a path is its components with a slash before each. -/
theorem projectedLookupKey_joinedPath {names : List Bytes} (hne : names ≠ [])
    (hplain : ∀ name ∈ names, IsPlainName name) (forceAscii : Bool) :
    projectedLookupKey decoder (joinedPath names) forceAscii =
      rooted (wideChar '/') (names.map (componentFor decoder forceAscii)) := by
  rw [projectedLookupKey, relativeProjectedPathFor_eq, pathTokens_joinedPath hne hplain]
  obtain ⟨name, rest, rfl⟩ := List.exists_cons_of_ne_nil hne
  rfl

include hascii in

/-- The key by names is the path in wide characters. -/
theorem displayKey_joinedPath {names : List Bytes} (hne : names ≠ [])
    (hplain : ∀ name ∈ names, IsPlainName name) :
    projectedLookupKey decoder (joinedPath names) false = plainKey names := by
  rw [projectedLookupKey_joinedPath hne hplain, plainKey]
  exact congrArg _ (List.map_congr_left fun name hname => componentFor_plain (hplain name hname)
    hascii)

/-- Between the slashes of a key there is none. -/
theorem slash_not_mem_plainKey {names : List Bytes} (hplain : ∀ name ∈ names, IsPlainName name) :
    ∀ wide ∈ names.map widen, wideChar '/' ∉ wide := by
  intro wide hwide
  obtain ⟨name, hname, rfl⟩ := List.mem_map.mp hwide
  exact slash_not_mem_widen (hplain name hname)

/-- An ASCII key is no plain one. -/
theorem asciiKey_ne_plainKey {names others : List Bytes} (hne : others ≠ [])
    (hplain : ∀ name ∈ names, IsPlainName name) (hothers : ∀ name ∈ others, IsPlainName name) :
    projectedLookupKey decoder (joinedPath others) true ≠ plainKey names := by
  intro heq
  have hfree : ∀ wide ∈ others.map (componentFor decoder true), wideChar '/' ∉ wide := by
    intro wide hwide
    obtain ⟨name, -, rfl⟩ := List.mem_map.mp hwide
    exact fun hmem =>
      (sanitized_componentFor decoder true name).no_invalid _ hmem (by decide)
  rw [projectedLookupKey_joinedPath hne hothers, plainKey] at heq
  have hsame := rooted_injective hfree (slash_not_mem_plainKey hplain) heq
  obtain ⟨other, rest, rfl⟩ := List.exists_cons_of_ne_nil hne
  have hmem : componentFor decoder true other ∈ names.map widen := by
    rw [← hsame]
    exact List.mem_cons_self
  obtain ⟨name, hname, hwide⟩ := List.mem_map.mp hmem
  -- the name that is plain would end in a hash
  refine (hplain name hname).unhashed (componentHash other) ?_
  rw [hwide]
  exact hashSuffix_isSuffix other

include hascii in
/-- Of plain paths only the same one has a plain key. -/
theorem hasKey_plain_iff {names others : List Bytes} (hne : others ≠ [])
    (hplain : ∀ name ∈ names, IsPlainName name) (hothers : ∀ name ∈ others, IsPlainName name) :
    HasKey decoder (plainKey names) (joinedPath others) ↔ others = names := by
  rw [HasKey, displayKey_joinedPath hascii hne hothers]
  constructor
  · rintro (hkey | hkey)
    · exact List.map_injective_iff.mpr widen_injective
        (rooted_injective (slash_not_mem_plainKey hothers) (slash_not_mem_plainKey hplain) hkey)
    · exact absurd hkey (asciiKey_ne_plainKey hne hplain hothers)
  · rintro rfl
    exact Or.inl rfl

end Keys

/-! ## The names of a torrent -/

/-- No names, or the first names of the path of a file. -/
def IsLeading (files : List TorrentFileRecord) (names : List Bytes) : Prop :=
  names = [] ∨ ∃ record ∈ files, ∃ all, (∀ name ∈ all, IsPlainName name) ∧
    record.relativePath = joinedPath all ∧ names <+: all

/-- The names of a leading path are plain. -/
theorem IsLeading.plain {files : List TorrentFileRecord} {names : List Bytes}
    (h : IsLeading files names) : ∀ name ∈ names, IsPlainName name := by
  rcases h with rfl | ⟨-, -, all, hall, -, hbegins⟩
  · simp
  · exact fun name hname => hall name (hbegins.subset hname)

section Torrent

variable {files : List TorrentFileRecord}

/-- What is registered is the root, and plain paths. -/
theorem registeredPaths_plain (hfiles : ∀ record ∈ files, IsPlainPath record.relativePath)
    {path : Bytes} (h : path ∈ registeredPaths files) :
    path = [] ∨ ∃ names, names ≠ [] ∧ (∀ name ∈ names, IsPlainName name) ∧
      path = joinedPath names := by
  rcases List.mem_cons.mp h with rfl | h
  · exact Or.inl rfl
  · obtain ⟨record, hrecord, hpath⟩ := List.mem_flatMap.mp h
    obtain ⟨names, hne, hplain, hrelative⟩ := hfiles record hrecord
    have hjoined : record.relativePath = joinedPath names := hrelative
    rw [hjoined, leadingPaths_joinedPath hne hplain] at hpath
    obtain ⟨i, -, rfl⟩ := List.mem_map.mp hpath
    exact Or.inr ⟨names.take (i + 1), by simpa using hne,
      fun name hname => hplain name (List.mem_of_mem_take hname), rfl⟩

/-- Leading paths are registered. -/
theorem joinedPath_mem_registeredPaths {names : List Bytes} (h : IsLeading files names)
    (hne : names ≠ []) : joinedPath names ∈ registeredPaths files := by
  obtain ⟨record, hrecord, all, hall, hjoined, hbegins⟩ := h.resolve_left hne
  have hallne : all ≠ [] := fun hnil => hne (List.prefix_nil.mp (hnil ▸ hbegins))
  refine List.mem_cons_of_mem _ (List.mem_flatMap.mpr ⟨record, hrecord, ?_⟩)
  rw [hjoined, leadingPaths_joinedPath hallne hall]
  have hpos : 0 < names.length := List.length_pos_iff.mpr hne
  have hle := hbegins.length_le
  refine List.mem_map.mpr ⟨names.length - 1, List.mem_range.mpr (by omega), ?_⟩
  rw [Nat.sub_add_cancel hpos, ← List.prefix_iff_eq_take.mp hbegins]

/-- The key of first names, with the root among them. -/
def leadingKey (names : List Bytes) : Wide := wideChar '/' :: (plainKey names).tail

/-- The key of names is their path. -/
theorem leadingKey_of_ne_nil {names : List Bytes} (hne : names ≠ []) :
    leadingKey names = plainKey names := by
  obtain ⟨name, rest, rfl⟩ := List.exists_cons_of_ne_nil hne
  rfl

/-- **Plain names are found**: the key of the first names of a path leads to them. -/
theorem projectedNames_plain {decoder : MultiByteToWideChar} (hascii : AsciiIdentity decoder)
    (hfiles : ∀ record ∈ files, IsPlainPath record.relativePath) {names : List Bytes}
    (h : IsLeading files names) :
    buildProjectedNameIndex decoder files (leadingKey names) =
      some (slash :: joinedPath names) := by
  rw [buildProjectedNameIndex_apply]
  have hroot : HasKey decoder (leadingKey []) [] := Or.inl rfl
  by_cases hnil : names = []
  · subst hnil
    rw [registeredPaths, List.find?_cons_of_pos (by simpa using hroot)]
    rfl
  · have hkey := leadingKey_of_ne_nil hnil
    have hmem := joinedPath_mem_registeredPaths h hnil
    have hhas : HasKey decoder (plainKey names) (joinedPath names) :=
      (hasKey_plain_iff hascii hnil h.plain h.plain).mpr rfl
    have honly : ∀ path ∈ registeredPaths files, HasKey decoder (plainKey names) path →
        path = joinedPath names := by
      intro path hpath hother
      rcases registeredPaths_plain hfiles hpath with rfl | ⟨others, hne, hothers, rfl⟩
      · -- the key of the root has no names
        obtain ⟨name, rest, rfl⟩ := List.exists_cons_of_ne_nil hnil
        have hwide := widen_ne_nil (h.plain name List.mem_cons_self)
        have hshort : plainKey (name :: rest) = [wideChar '/'] := by
          rcases hother with hother | hother
          · rw [← hother, projectedLookupKey_nil]
          · rw [← hother, projectedLookupKey_nil]
        rw [plainKey, List.map_cons, rooted, List.flatMap_cons, List.cons_append] at hshort
        have hempty := (List.cons.inj hshort).2
        exact absurd (List.append_eq_nil_iff.mp hempty).1 hwide
      · rw [(hasKey_plain_iff hascii hne h.plain hothers).mp hother]
    rw [hkey]
    cases hfind : (registeredPaths files).find? fun path =>
        HasKey decoder (plainKey names) path with
    | none => exact absurd hhas (by simpa using List.find?_eq_none.mp hfind _ hmem)
    | some path =>
        have hpath := honly path (List.mem_of_find?_eq_some hfind)
          (by simpa using List.find?_some hfind)
        rw [hpath]
        rfl

end Torrent

end Vtfs.Analysis
