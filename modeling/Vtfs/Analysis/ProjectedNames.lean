import Vtfs.Interface.ProjectedNames
import Vtfs.Analysis.WebDavAddresses

/-!
# Projected names and the paths behind them

The loops that register the files put the leading parts of each path under two keys, the first one
under a key stays (`buildProjectedNameIndex_apply`).  So a key leads to a path exactly when no path
registered before has the key: for the display key of a file (`projectsToItself_iff`), and for the
name of an entry in its directory (`looksUpAgain_iff`).
-/

set_option autoImplicit false

namespace Vtfs.Analysis

open Vtfs.Library
open Vtfs.Library.PosixPath (slash)
open Vtfs.Model
open Vtfs.Interface

/-! ## The loop over the tokens -/

/-- One more token: a slash before it, unless there is nothing before it. -/
theorem joined_concat (tokens : List Bytes) (token : Bytes) :
    joined (tokens ++ [token]) =
      (if joined tokens = [] then joined tokens else joined tokens ++ [slash]) ++ token := by
  unfold joined
  rw [List.dropWhile_append]
  cases hrest : tokens.dropWhile (· = []) with
  | nil =>
      by_cases htoken : token = []
      · simp [htoken, rooted]
      · simp [htoken, rooted]
  | cons first rest =>
      have hfirst : first ≠ [] := by
        have hstop := List.head?_dropWhile_not (fun q : Bytes => decide (q = [])) tokens
        rw [hrest] at hstop
        simpa using hstop
      have htail : (rooted slash (first :: rest)).tail ≠ [] := by
        simp [rooted, hfirst]
      rw [if_neg htail, List.isEmpty_cons, if_neg (by simp), rooted_concat,
        List.tail_append_of_ne_nil (by simp [rooted])]
      simp

/-- The keys and the virtual path that a leading part is registered with. -/
def registrations (decoder : MultiByteToWideChar) (path : Bytes) : List (Wide × Bytes) :=
  [(projectedLookupKey decoder path false, slash :: path),
    (projectedLookupKey decoder path true, slash :: path)]

/-- A token registers the path up to it. -/
theorem registerToken_eq (decoder : MultiByteToWideChar) (tokens : List Bytes)
    (names : ProjectedNames) (token : Bytes) :
    registerToken decoder (joined tokens, names) token =
      (joined (tokens ++ [token]),
        FirstWins.emplaceAll names (registrations decoder (joined (tokens ++ [token])))) := by
  rw [joined_concat]
  rfl

/-- The loop registers the leading parts, one token more each time. -/
theorem foldl_registerToken (decoder : MultiByteToWideChar) (tokens rest : List Bytes)
    (names : ProjectedNames) :
    rest.foldl (registerToken decoder) (joined tokens, names) =
      (joined (tokens ++ rest), FirstWins.emplaceAll names
        (((List.range rest.length).map fun i => joined (tokens ++ rest.take (i + 1))).flatMap
          (registrations decoder))) := by
  induction rest generalizing tokens names with
  | nil => simp [FirstWins.emplaceAll]
  | cons token rest ih =>
      rw [List.foldl_cons, registerToken_eq, ih, ← FirstWins.emplaceAll_append]
      simp [List.range_succ_eq_map, Function.comp_def]

/-- A path registers its leading paths, in order. -/
theorem registerProjectedPath_eq (decoder : MultiByteToWideChar) (names : ProjectedNames)
    (path : Bytes) :
    registerProjectedPath decoder names path =
      FirstWins.emplaceAll names ((leadingPaths path).flatMap (registrations decoder)) := by
  have hloop := foldl_registerToken decoder [] (pathTokens path) names
  have hstart : joined [] = [] := rfl
  rw [hstart] at hloop
  rw [registerProjectedPath, hloop]
  rfl

/-! ## The names of a torrent -/

/-- The key of nothing is the root. -/
theorem projectedLookupKey_nil (decoder : MultiByteToWideChar) (forceAscii : Bool) :
    projectedLookupKey decoder [] forceAscii = [wideChar '/'] := rfl

/-- The names are the registrations of all paths, from the root on. -/
theorem buildProjectedNameIndex_eq (decoder : MultiByteToWideChar)
    (files : List TorrentFileRecord) :
    buildProjectedNameIndex decoder files =
      FirstWins.emplaceAll (fun _ => none)
        ((registeredPaths files).flatMap (registrations decoder)) := by
  have hroot : FirstWins.emplaceAll (fun _ => none) (registrations decoder []) =
      Function.update (fun _ => none) [wideChar '/'] (some [slash]) := by
    funext key
    rw [FirstWins.emplaceAll_apply, registrations]
    simp only [projectedLookupKey_nil]
    by_cases hkey : [wideChar '/'] = key
    · subst hkey
      simp
    · rw [Function.update_of_ne (Ne.symm hkey)]
      simp [hkey]
  rw [registeredPaths, List.flatMap_cons, FirstWins.emplaceAll_append, hroot,
    buildProjectedNameIndex]
  generalize (Function.update (fun _ => none) [wideChar '/'] (some [slash]) : ProjectedNames) =
    names
  induction files generalizing names with
  | nil => rfl
  | cons file rest ih =>
      rw [List.foldl_cons, ih, registerProjectedPath_eq, List.flatMap_cons, List.flatMap_append,
        FirstWins.emplaceAll_append]

/-- Under a key there is the first path that has it. -/
theorem find?_registrations (decoder : MultiByteToWideChar) (key : Wide) (paths : List Bytes) :
    ((paths.flatMap (registrations decoder)).find? fun e => e.1 = key).map (fun e => e.2) =
      (paths.find? fun path => HasKey decoder key path).map (slash :: ·) := by
  induction paths with
  | nil => rfl
  | cons path rest ih =>
      rw [List.flatMap_cons, registrations, List.cons_append, List.cons_append, List.nil_append]
      by_cases hdisplay : projectedLookupKey decoder path false = key
      · have hkey : HasKey decoder key path := Or.inl hdisplay
        simp [hdisplay, hkey]
      · by_cases hascii : projectedLookupKey decoder path true = key
        · have hkey : HasKey decoder key path := Or.inr hascii
          simp [hdisplay, hascii, hkey]
        · have hkey : ¬ HasKey decoder key path := not_or.mpr ⟨hdisplay, hascii⟩
          rw [List.find?_cons_of_neg (by simpa using hdisplay),
            List.find?_cons_of_neg (by simpa using hascii),
            List.find?_cons_of_neg (by simpa using hkey), ih]

/-- A key has the first of the registered paths that has it. -/
theorem buildProjectedNameIndex_apply (decoder : MultiByteToWideChar)
    (files : List TorrentFileRecord) (key : Wide) :
    buildProjectedNameIndex decoder files key =
      ((registeredPaths files).find? fun path => HasKey decoder key path).map (slash :: ·) := by
  rw [buildProjectedNameIndex_eq, FirstWins.emplaceAll_apply, find?_registrations, Option.none_or]

/-- The first path under a key is the one in the index of names. -/
theorem firstUnder_iff {decoder : MultiByteToWideChar} {files : List TorrentFileRecord}
    {key : Wide} {virtualPath : Bytes} :
    FirstUnder decoder files key virtualPath ↔
      ∃ path, buildProjectedNameIndex decoder files key = some path ∧
        normalizePath path = virtualPath := by
  rw [buildProjectedNameIndex_apply]
  constructor
  · rintro ⟨before, path, after, hpaths, hbefore, hkey, hnormal⟩
    have hfind : (registeredPaths files).find? (fun path => HasKey decoder key path) =
        some path := by
      rw [List.find?_eq_some_iff_append]
      exact ⟨by simpa using hkey, before, after, hpaths, by simpa using hbefore⟩
    rw [hfind]
    exact ⟨_, rfl, hnormal⟩
  · rintro ⟨virtual, hfound, hnormal⟩
    obtain ⟨path, hfind, rfl⟩ := Option.map_eq_some_iff.mp hfound
    obtain ⟨hkey, before, after, hpaths, hbefore⟩ := List.find?_eq_some_iff_append.mp hfind
    exact ⟨before, path, after, hpaths, by simpa using hbefore, by simpa using hkey, hnormal⟩

/-- **The key of a file.**  It leads to the path of the file if and only if the first registered
path that has the key, from sanitised names or as ASCII names, is that path.
SRCLINE: VirtualDrive.cpp:349-383 -/
theorem projectsToItself_iff (decoder : MultiByteToWideChar) (files : List TorrentFileRecord)
    (record : TorrentFileRecord) :
    ProjectsToItself decoder files record ↔
      FirstUnder decoder files (projectedLookupKey decoder record.relativePath false)
        (normalizePath record.relativePath) :=
  firstUnder_iff.symm

/-- An entry is looked up by the virtual path of the name. -/
theorem lookupProjectedEntry_eq_bind (provider : ProjFsProvider) (filePathName : PCWSTR) :
    provider.lookupProjectedEntry filePathName =
      (provider.projectedToVirtual (normalizeProjectedPath filePathName)).bind
        (lookup provider.session) := by
  unfold ProjFsProvider.lookupProjectedEntry
  cases provider.projectedToVirtual (normalizeProjectedPath filePathName) with
  | none => rfl
  | some path => rfl

/-- **The name of an entry.**  An entry is found under the name it is enumerated with if and only if
the first registered path that has the projected path of this name is the path of the entry, and
the entry is still the one with this path.
SRCLINE: VirtualDrive.cpp:377-391 -/
theorem looksUpAgain_iff (system : ProjFs) (files : List TorrentFileRecord) (directory : PCWSTR)
    (entry : FileEntry) :
    LooksUpAgain system files directory entry ↔
      FirstUnder system.multiByteToWideChar files (enumeratedKey system files directory entry)
          entry.virtualPath ∧
        (buildIndex files).entries entry.virtualPath = some entry := by
  rw [firstUnder_iff]
  unfold LooksUpAgain enumeratedKey
  set key := normalizeProjectedPath
    (childPath directory ((ProjFsProvider.mount system files).emittedName entry)) with hkey
  have hlookup : (ProjFsProvider.mount system files).lookupProjectedEntry
      (childPath directory ((ProjFsProvider.mount system files).emittedName entry)) =
        (buildProjectedNameIndex system.multiByteToWideChar files key).bind
          (lookup (buildIndex files)) := lookupProjectedEntry_eq_bind _ _
  simp only [hlookup]
  cases hfound : buildProjectedNameIndex system.multiByteToWideChar files key with
  | none => simp
  | some path =>
      simp only [Option.bind_some, Option.some.injEq, exists_eq_left', lookup]
      constructor
      · intro hentry
        have hpath := virtualPath_of_entries hentry
        exact ⟨hpath.symm, by rw [hpath, hentry]⟩
      · rintro ⟨hpath, hentry⟩
        rw [hpath, hentry]

/-! ## Concrete files -/

/-- A conversion that is the identity on every byte. -/
def widened : MultiByteToWideChar := fun _ text => text.map (·.toUInt16)

/-- This decoder leaves ASCII as it is. -/
theorem asciiIdentity_widened : AsciiIdentity widened := fun _ _ _ => rfl

/-- A torrent with files `x:` and `x?`. -/
def colonAndMarkTorrent : StringView :=
  ⟨bytes "d4:infod5:filesld6:lengthi1e4:pathl2:x:eed6:lengthi1e4:pathl2:x?eee" ++
    bytes "4:name1:a12:piece lengthi1e6:pieces0:ee", by decide⟩

/-- The torrent with two names that are replaced alike loads. -/
theorem accepts_colonAndMarkTorrent :
    ∃ metadata, Accepts colonAndMarkTorrent metadata ∧
      metadata.files = [⟨bytes "a/x:", 1, 0⟩, ⟨bytes "a/x?", 1, 1⟩] :=
  exists_accepts_of_files 40 (by decide +kernel)

/-- Both have the key `/a/x_`, which leads to the first. -/
theorem projectsToItself_fails : ¬ ∀ decoder, AsciiIdentity decoder →
    ∀ raw metadata, Accepts raw metadata → ∀ record ∈ metadata.files,
      ProjectsToItself decoder metadata.files record := by
  intro h
  obtain ⟨metadata, haccepts, hfiles⟩ := accepts_colonAndMarkTorrent
  have hprojects := h widened asciiIdentity_widened _ _ haccepts
  rw [hfiles] at hprojects
  obtain ⟨path, hfound, hnormal⟩ := hprojects ⟨bytes "a/x?", 1, 1⟩ (by simp)
  have hfirst : buildProjectedNameIndex widened [⟨bytes "a/x:", 1, 0⟩, ⟨bytes "a/x?", 1, 1⟩]
      (projectedLookupKey widened (bytes "a/x?") false) = some (bytes "/a/x:") := by
    decide +kernel
  obtain rfl := Option.some.inj (hfirst.symm.trans hfound)
  exact absurd hnormal (by decide)

/-- A system with that conversion, in which every name matches and none is before another. -/
def widenedSystem : ProjFs where
  multiByteToWideChar := widened
  fileNameMatch := fun _ _ => true
  fileNameCompare := fun _ _ => 0
  sort := fun _ entries => entries

/-- In the directory `a` the first file is enumerated as `x:`, which is found nowhere. -/
theorem looksUpAgain_fails : ¬ ∀ system : ProjFs, AsciiIdentity system.multiByteToWideChar →
    ∀ raw metadata, Accepts raw metadata → ∀ directory entry,
      entry ∈ (ProjFsProvider.mount system metadata.files).listProjectedDirectory directory →
        LooksUpAgain system metadata.files directory entry := by
  intro h
  obtain ⟨metadata, haccepts, hfiles⟩ := accepts_colonAndMarkTorrent
  have hlooks := h widenedSystem asciiIdentity_widened _ _ haccepts
  rw [hfiles] at hlooks
  have hlisted : ⟨bytes "/a/x:", 1, 0, 0, false⟩ ∈ (ProjFsProvider.mount widenedSystem
      [⟨bytes "a/x:", 1, 0⟩, ⟨bytes "a/x?", 1, 1⟩]).listProjectedDirectory
        (cStr (wideText "a")) := by
    decide +kernel
  have hnothing : (ProjFsProvider.mount widenedSystem
      [⟨bytes "a/x:", 1, 0⟩, ⟨bytes "a/x?", 1, 1⟩]).lookupProjectedEntry
        (childPath (cStr (wideText "a")) ((ProjFsProvider.mount widenedSystem
          [⟨bytes "a/x:", 1, 0⟩, ⟨bytes "a/x?", 1, 1⟩]).emittedName
            ⟨bytes "/a/x:", 1, 0, 0, false⟩)) = none := by
    decide +kernel
  have hfound := hlooks _ _ hlisted
  simp only [LooksUpAgain, hnothing] at hfound
  exact absurd hfound (by simp)

end Vtfs.Analysis
