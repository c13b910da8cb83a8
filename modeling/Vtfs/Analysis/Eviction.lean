import Vtfs.Analysis.PayloadPaths

/-!
# What reads remove

A run of `evictIfNeeded` removes the keys touched longest ago (`mem_evictLoop_iff`); the path of a
removal is the key itself, since keys are absolute paths (`removal_path`).  So what is removed is
the file of the entry only when a second slash makes the path of the file absolute too
(`samePath_payloadPathFor_iff`).
-/

set_option autoImplicit false

namespace Vtfs.Analysis

open Vtfs.Library
open Vtfs.Library.PosixPath
open Vtfs.Model
open Vtfs.Interface

/-! ## The loop of `evictIfNeeded` -/

/-- No entries take no bytes. -/
theorem sizesOf_nil : sizesOf [] = 0 := rfl

/-- The first entry adds its size. -/
theorem sizesOf_cons (e : Bytes × CacheEntry) (entries : List (Bytes × CacheEntry)) :
    sizesOf (e :: entries) = e.2.sizeBytes + sizesOf entries := by
  simp only [sizesOf, List.map_cons, List.foldl_cons]
  rw [UInt64.add_comm 0, List.foldl_assoc]

/-- Two sizes can be taken away one after the other. -/
theorem sub_add_eq (a b c : UInt64) : a - (b + c) = a - b - c := by
  rw [UInt64.sub_eq_iff_eq_add, UInt64.add_comm b c, ← UInt64.add_assoc, UInt64.sub_add_cancel,
    UInt64.sub_add_cancel]

/-- While the entries of a list are removed, first to last, each time the rest is too much. -/
def TooMuchAfter (maxBytes total : UInt64) (removed : List (Bytes × CacheEntry)) : Prop :=
  ∀ front, front ≠ [] → front <+: removed → maxBytes < total - sizesOf front

/-- It is too much after entries when it is after the first and after each further one. -/
theorem tooMuchAfter_cons {maxBytes total : UInt64} {e : Bytes × CacheEntry}
    {removed : List (Bytes × CacheEntry)} :
    TooMuchAfter maxBytes total (e :: removed) ↔
      maxBytes < total - e.2.sizeBytes ∧
        TooMuchAfter maxBytes (total - e.2.sizeBytes) removed := by
  constructor
  · intro h
    refine ⟨?_, ?_⟩
    · have hfirst := h [e] (by simp) (by simp)
      rwa [sizesOf_cons, sizesOf_nil, UInt64.add_zero] at hfirst
    · intro front _ hfront
      have hmore := h (e :: front) (by simp) (List.cons_prefix_cons.mpr ⟨rfl, hfront⟩)
      rwa [sizesOf_cons, sub_add_eq] at hmore
  · rintro ⟨hfirst, hrest⟩ front hne hfront
    obtain ⟨e', front, rfl⟩ := List.exists_cons_of_ne_nil hne
    obtain ⟨rfl, htail⟩ := List.cons_prefix_cons.mp hfront
    rw [sizesOf_cons, sub_add_eq]
    by_cases hnil : front = []
    · subst hnil
      rwa [sizesOf_nil, UInt64.sub_zero]
    · exact hrest front hnil htail

/-- The loop removes an entry when the rest was still too much each time before it.  The first
entry is removed in any case. -/
theorem mem_evictLoop_iff (m : CacheManager) (ordered : List (Bytes × CacheEntry)) (total : UInt64)
    (removal : Removal) : removal ∈ (m.evictLoop ordered total).2 ↔
      (∃ before entry after, ordered = before ++ (removal.key, entry) :: after ∧
        TooMuchAfter m.maxBytes total before) ∧
      removal.path = append m.payloadRoot removal.key := by
  induction ordered generalizing m total with
  | nil => simp [CacheManager.evictLoop]
  | cons e rest ih =>
      obtain ⟨key, entry⟩ := e
      -- the first removal, and those of the rest of the loop when it goes on
      have hloop : removal ∈ (m.evictLoop ((key, entry) :: rest) total).2 ↔
          removal = ⟨key, append m.payloadRoot key⟩ ∨ m.maxBytes < total - entry.sizeBytes ∧
            removal ∈ (CacheManager.evictLoop { m with entries := m.entries.filter (·.1 ≠ key) }
              rest (total - entry.sizeBytes)).2 := by
        rw [CacheManager.evictLoop]
        by_cases hfits : total - entry.sizeBytes ≤ m.maxBytes
        · simp [hfits, UInt64.not_lt.mpr hfits]
        · simp [hfits, UInt64.not_le.mp hfits]
      rw [hloop, ih]
      constructor
      · rintro (rfl | ⟨hmore, ⟨before, found, after, rfl, hbefore⟩, hpath⟩)
        · exact ⟨⟨[], entry, rest, rfl, fun front hne hfront =>
            absurd (List.prefix_nil.mp hfront) hne⟩, rfl⟩
        · exact ⟨⟨(key, entry) :: before, found, after, rfl,
            tooMuchAfter_cons.mpr ⟨hmore, hbefore⟩⟩, hpath⟩
      · rintro ⟨⟨before, found, after, hordered, hbefore⟩, hpath⟩
        cases before with
        | nil =>
            obtain ⟨hkey, -⟩ := Prod.mk.inj (List.cons.inj hordered).1
            left
            rw [hkey, ← hpath]
        | cons e before =>
            obtain ⟨rfl, rfl⟩ := List.cons.inj hordered
            obtain ⟨hmore, hbefore⟩ := tooMuchAfter_cons.mp hbefore
            exact Or.inr ⟨hmore, ⟨before, found, after, rfl, hbefore⟩, hpath⟩

/-! ## One read -/

/-- Evicting keeps the directory. -/
theorem evictLoop_root (m : CacheManager) (ordered : List (Bytes × CacheEntry)) (total : UInt64) :
    (m.evictLoop ordered total).1.root = m.root := by
  induction ordered generalizing m total with
  | nil => rfl
  | cons e rest ih =>
      rw [CacheManager.evictLoop]
      split
      · rfl
      · exact ih _ _

/-- Evicting adds no entry. -/
theorem evictLoop_entries_subset (m : CacheManager) (ordered : List (Bytes × CacheEntry))
    (total : UInt64) : (m.evictLoop ordered total).1.entries ⊆ m.entries := by
  induction ordered generalizing m total with
  | nil => exact List.Subset.refl _
  | cons e rest ih =>
      rw [CacheManager.evictLoop]
      split
      · exact fun f hf => List.mem_of_mem_filter hf
      · exact fun f hf => List.mem_of_mem_filter (ih _ _ hf)

/-- What a read removes: the keys it is about to evict, at their places under the payload
directory of the cache manager. -/
theorem mem_queueRead_iff (m : CacheManager) (call : ReadCall) (removal : Removal) :
    .remove removal ∈ (queueRead m call.entry call.offset call.length).2 ↔
      Evicts m call removal.key ∧ removal.path = append m.payloadRoot removal.key := by
  unfold queueRead Evicts
  by_cases hnothing : call.entry.isDirectory = true ∨ call.length = 0 ∨
      call.entry.size ≤ call.offset
  · simp [hnothing]
  · rw [if_neg hnothing]
    simp only [hnothing, not_false_eq_true, true_and, List.mem_append, List.mem_map,
      ReadEffect.remove.injEq, exists_eq_right, List.mem_cons, reduceCtorEq, List.not_mem_nil,
      or_false]
    set touched := m.touch call.entry.virtualPath call.entry.size with htouched
    have hmax : touched.maxBytes = m.maxBytes := rfl
    have hroot : touched.payloadRoot = m.payloadRoot := rfl
    rw [CacheManager.evictIfNeeded]
    by_cases hfits : touched.total ≤ touched.maxBytes
    · -- nothing is removed, and the total before any removal is not too much
      rw [if_pos hfits]
      simp only [List.not_mem_nil, false_iff, not_and]
      rintro ⟨before, entry, after, -, hbefore⟩
      have hstart := hbefore [] List.nil_prefix
      rw [sizesOf_nil, UInt64.sub_zero, ← hmax] at hstart
      exact absurd hfits (UInt64.not_le.mpr hstart)
    · rw [if_neg hfits, mem_evictLoop_iff, hmax, hroot]
      refine and_congr_left fun _ => exists_congr fun before => exists_congr fun entry =>
        exists_congr fun after => and_congr_right fun _ => ?_
      constructor
      · intro hbefore front hfront
        by_cases hnil : front = []
        · subst hnil
          rw [sizesOf_nil, UInt64.sub_zero, ← hmax]
          exact UInt64.not_le.mp hfits
        · exact hbefore front hnil hfront
      · exact fun hbefore front _ hfront => hbefore front hfront

/-- A read leaves the directory as it is, and its entries are of the keys before and of the key
read. -/
theorem queueRead_keeps (m : CacheManager) (call : ReadCall) :
    (queueRead m call.entry call.offset call.length).1.root = m.root ∧
      ∀ e ∈ (queueRead m call.entry call.offset call.length).1.entries,
        e.1 = call.entry.virtualPath ∨ e ∈ m.entries := by
  unfold queueRead
  split
  · exact ⟨rfl, fun e he => Or.inr he⟩
  · have htouch : ∀ e ∈ (m.touch call.entry.virtualPath call.entry.size).entries,
        e.1 = call.entry.virtualPath ∨ e ∈ m.entries := by
      intro e he
      rcases List.mem_cons.mp he with rfl | he
      · exact Or.inl rfl
      · exact Or.inr (List.mem_of_mem_filter he)
    simp only [CacheManager.evictIfNeeded]
    split
    · exact ⟨rfl, htouch⟩
    · exact ⟨evictLoop_root _ _ _, fun e he => htouch e (evictLoop_entries_subset _ _ _ he)⟩

/-- What a read evicts is its own entry or one that was there. -/
theorem key_of_evicts {m : CacheManager} {call : ReadCall} {key : Bytes} (h : Evicts m call key) :
    key = call.entry.virtualPath ∨ ∃ e ∈ m.entries, e.1 = key := by
  obtain ⟨-, before, entry, after, hordered, -⟩ := h
  have hmem : (key, entry) ∈ (m.touch call.entry.virtualPath call.entry.size).ordered := by
    rw [hordered]
    simp
  rw [CacheManager.ordered, List.mem_insertionSort] at hmem
  rcases List.mem_cons.mp hmem with heq | hmem
  · exact Or.inl (Prod.mk.inj heq).1
  · exact Or.inr ⟨_, List.mem_of_mem_filter hmem, rfl⟩

/-! ## Where a removal goes -/

/-- A normalized key replaces the payload directory, since it begins with a slash. -/
theorem removal_path (m : CacheManager) {key : Bytes} (h : Normalized key) :
    append m.payloadRoot key = key :=
  append_of_isAbsolute _ (by rw [isAbsolute, h.head]; decide)

/-- A normalized path is its names after a slash. -/
theorem elements_of_normalized {path : Bytes} (h : Normalized path) :
    elements path = (true, names path.tail) := by
  have habsolute : isAbsolute path = true := by rw [isAbsolute, h.head]; decide
  have hnames : names path = names path.tail := by
    rw [h.eq_cons, names_slash_cons, List.tail_cons]
  have hlast : ¬ (names path.tail ≠ [] ∧ path.getLast? = some slash) := by
    rintro ⟨hne, hend⟩
    rcases h.last with hroot | hlast
    · exact hne (by rw [hroot]; rfl)
    · exact hlast hend
  rw [elements, habsolute, hnames, if_neg hlast, List.append_nil]

/-- A key and the path of its entry's file are one path exactly when a second slash makes the path
of the file absolute too. -/
theorem samePath_payloadPathFor_iff (cacheDirectory : Bytes) {entry : FileEntry}
    (h : Normalized entry.virtualPath) :
    SamePath entry.virtualPath (payloadPathFor cacheDirectory entry) ↔
      isAbsolute entry.virtualPath.tail = true := by
  rw [SamePath, payloadPathFor_eq cacheDirectory h, elements_of_normalized h]
  by_cases habsolute : isAbsolute entry.virtualPath.tail = true
  · rw [append_of_isAbsolute _ habsolute, elements, habsolute,
      if_neg fun hslash => h.getLast?_tail hslash.2]
    simp
  · have hrelative : isAbsolute entry.virtualPath.tail = false := by simpa using habsolute
    refine iff_of_false (fun hsame => ?_) habsolute
    -- the payload directory has a name more
    have hlength := congrArg (fun p => p.2.length) hsame
    have hpayload := List.length_pos_iff.mpr (names_payloadDirectory_ne_nil cacheDirectory)
    simp only [elements, names_append _ hrelative, List.length_append] at hlength
    omega

/-! ## Runs of reads -/

section Runs

variable {cacheDirectory : Bytes}

/-- Reads evict one list after the other. -/
theorem runReads_append (m : CacheManager) (calls more : List ReadCall) :
    runReads m (calls ++ more) =
      ((runReads (runReads m calls).1 more).1,
        (runReads m calls).2 ++ (runReads (runReads m calls).1 more).2) := by
  induction calls generalizing m with
  | nil => simp [runReads]
  | cons call rest ih =>
      simp only [List.cons_append, runReads, ih, List.append_assoc]

/-- What a run does is what its reads do. -/
theorem mem_runReads_iff (m : CacheManager) (calls : List ReadCall) (effect : ReadEffect) :
    effect ∈ (runReads m calls).2 ↔ ∃ before call after, calls = before ++ call :: after ∧
      effect ∈ (queueRead (runReads m before).1 call.entry call.offset call.length).2 := by
  induction calls using List.reverseRecOn with
  | nil => simp [runReads]
  | append_singleton calls last ih =>
      have hlast : (runReads m (calls ++ [last])).2 = (runReads m calls).2 ++
          (queueRead (runReads m calls).1 last.entry last.offset last.length).2 := by
        rw [runReads_append]
        simp [runReads]
      rw [hlast, List.mem_append, ih]
      constructor
      · rintro (⟨before, call, after, rfl, heffect⟩ | heffect)
        · exact ⟨before, call, after ++ [last], by simp, heffect⟩
        · exact ⟨calls, last, [], rfl, heffect⟩
      · rintro ⟨before, call, after, hcalls, heffect⟩
        rcases List.eq_nil_or_concat' after with rfl | ⟨front, other, rfl⟩
        · obtain ⟨rfl, hcall⟩ := List.append_inj' hcalls rfl
          obtain rfl := List.singleton_inj.mp hcall
          exact Or.inr heffect
        · have hsplit : calls ++ [last] = (before ++ call :: front) ++ [other] := by
            rw [hcalls]
            simp
          obtain ⟨rfl, -⟩ := List.append_inj' hsplit rfl
          exact Or.inl ⟨before, call, front, rfl, heffect⟩

/-- In a run, the directory of the cache manager stays, and its keys are virtual paths that were
read. -/
theorem runReads_keeps (maxBytes : UInt64) (calls : List ReadCall) :
    (runReads (CacheManager.create cacheDirectory maxBytes) calls).1.root = cacheDirectory ∧
      ∀ e ∈ (runReads (CacheManager.create cacheDirectory maxBytes) calls).1.entries,
        ∃ call ∈ calls, call.entry.virtualPath = e.1 := by
  induction calls using List.reverseRecOn with
  | nil => exact ⟨rfl, by simp [runReads, CacheManager.create]⟩
  | append_singleton calls last ih =>
      obtain ⟨hroot, hkeys⟩ := ih
      have hkeep := queueRead_keeps
        (runReads (CacheManager.create cacheDirectory maxBytes) calls).1 last
      have hlast : (runReads (CacheManager.create cacheDirectory maxBytes) (calls ++ [last])).1 =
          (queueRead (runReads (CacheManager.create cacheDirectory maxBytes) calls).1 last.entry
            last.offset last.length).1 := by
        rw [runReads_append]
        simp [runReads]
      rw [hlast]
      refine ⟨hkeep.1.trans hroot, ?_⟩
      intro e he
      rcases hkeep.2 e he with hkey | hold
      · exact ⟨last, by simp, hkey.symm⟩
      · obtain ⟨call, hcall, hkey⟩ := hkeys e hold
        exact ⟨call, by simp [hcall], hkey⟩

/-- **What reads remove.**  A run of reads of files of the index removes payload files of the
entries read only, if and only if each read removes safely: each key it is about to evict starts
with two slashes and lies below the payload directory.
SRCLINE: CacheManager.cpp:21-45, TorrentSession.cpp:121-133 -/
theorem removesPayloadFiles_iff {files : List TorrentFileRecord} {calls : List ReadCall}
    (h : ∀ call ∈ calls, IsFileEntry (buildIndex files) call.entry) (maxBytes : UInt64) :
    RemovesPayloadFiles cacheDirectory maxBytes calls ↔
      EveryStep (RemovesSafely cacheDirectory) (CacheManager.create cacheDirectory maxBytes)
        calls := by
  -- a key that is evicted is the virtual path of an entry that was read
  have hread : ∀ before call after key, calls = before ++ call :: after →
      Evicts (runReads (CacheManager.create cacheDirectory maxBytes) before).1 call key →
        ∃ read ∈ calls, read.entry.virtualPath = key := by
    intro before call after key hcalls hevicts
    rcases key_of_evicts hevicts with rfl | ⟨e, he, rfl⟩
    · exact ⟨call, by simp [hcalls], rfl⟩
    · obtain ⟨read, hmem, hkey⟩ := (runReads_keeps maxBytes before).2 e he
      exact ⟨read, by simp [hcalls, hmem], hkey⟩
  have hnormalized : ∀ call ∈ calls, Normalized call.entry.virtualPath :=
    fun call hcall => normalized_virtualPath (h call hcall)
  constructor
  · intro hremoves before call after hcalls key hevicts
    obtain ⟨read, hreadMem, rfl⟩ := hread before call after key hcalls hevicts
    have hpath := removal_path (runReads (CacheManager.create cacheDirectory maxBytes) before).1
      (hnormalized read hreadMem)
    obtain ⟨other, hother, hkey, hsame, hbelow⟩ :=
      hremoves ⟨read.entry.virtualPath, read.entry.virtualPath⟩
        ((mem_runReads_iff _ _ _).mpr ⟨before, call, after, hcalls,
          (mem_queueRead_iff _ _ _).mpr ⟨hevicts, hpath.symm⟩⟩)
    simp only at hkey hsame hbelow
    rw [← hkey] at hsame hbelow ⊢
    exact ⟨(samePath_payloadPathFor_iff cacheDirectory (hnormalized other hother)).mp hsame, hbelow⟩
  · intro hsafe removal hremoval
    obtain ⟨before, call, after, hcalls, heffect⟩ := (mem_runReads_iff _ _ _).mp hremoval
    obtain ⟨hevicts, hpath⟩ := (mem_queueRead_iff _ _ _).mp heffect
    obtain ⟨read, hreadMem, hkey⟩ := hread before call after _ hcalls hevicts
    obtain ⟨hslashes, hbelow⟩ := hsafe before call after hcalls _ hevicts
    rw [← hkey] at hpath hslashes hbelow
    rw [removal_path _ (hnormalized read hreadMem)] at hpath
    refine ⟨read, hreadMem, hkey, ?_⟩
    rw [hpath]
    exact ⟨(samePath_payloadPathFor_iff cacheDirectory (hnormalized read hreadMem)).mpr hslashes,
      hbelow⟩

end Runs

/-- The file of a torrent `a` with five bytes. -/
def plainEntry : FileEntry := ⟨bytes "/a", 5, 0, 0, false⟩

/-- This entry is that of the file. -/
theorem plainEntry_isFileEntry : IsFileEntry (buildIndex [⟨bytes "a", 5, 0⟩]) plainEntry :=
  ⟨rfl, Or.inl ⟨bytes "/a", by decide +kernel⟩⟩

/-- The file of a torrent whose name is a path below the payload directory, after two slashes. -/
def slashedEntry : FileEntry := ⟨bytes "//cache/payload/a", 5, 0, 0, false⟩

/-- Without room for this file its read removes it, where it is. -/
theorem removesPayloadFiles_twoSlashes :
    .remove ⟨bytes "//cache/payload/a", bytes "//cache/payload/a"⟩ ∈
        (runReads (CacheManager.create (bytes "/cache") 1) [⟨slashedEntry, 0, 1⟩]).2 ∧
      RemovesPayloadFiles (bytes "/cache") 1 [⟨slashedEntry, 0, 1⟩] := by
  have hcalls : ∀ call ∈ [(⟨slashedEntry, 0, 1⟩ : ReadCall)],
      IsFileEntry (buildIndex [⟨bytes "//cache/payload/a", 5, 0⟩]) call.entry := by
    intro call hcall
    rw [List.mem_singleton.mp hcall]
    exact ⟨rfl, Or.inl ⟨bytes "//cache/payload/a", by decide +kernel⟩⟩
  refine ⟨by decide +kernel, (removesPayloadFiles_iff hcalls 1).mpr ?_⟩
  intro before call after hsplit key hevicts
  obtain ⟨rfl, rfl, rfl⟩ : before = [] ∧ call = ⟨slashedEntry, 0, 1⟩ ∧ after = [] := by
    cases before <;> simp_all
  rcases key_of_evicts hevicts with rfl | ⟨e, he, -⟩
  · decide +kernel
  · cases he

/-- A torrent with the name `a`. -/
def plainTorrent : StringView :=
  ⟨bytes "d4:infod6:lengthi5e4:name1:a12:piece lengthi1e6:pieces0:ee", by decide⟩

/-- The torrent of one file loads. -/
theorem accepts_plainTorrent :
    ∃ metadata, Accepts plainTorrent metadata ∧ metadata.files = [⟨bytes "a", 5, 0⟩] :=
  exists_accepts_of_files 40 (by decide +kernel)

/-- Without room a read of the file `a` removes `/a`. -/
theorem removesPayloadFiles_fails : ¬ ∀ raw metadata, Accepts raw metadata →
    ∀ cacheDirectory maxBytes calls,
      (∀ call ∈ calls, IsFileEntry (buildIndex metadata.files) call.entry) →
        RemovesPayloadFiles cacheDirectory maxBytes calls := by
  intro h
  obtain ⟨metadata, haccepts, hfiles⟩ := accepts_plainTorrent
  have hcalls : ∀ call ∈ [(⟨plainEntry, 0, 1⟩ : ReadCall)],
      IsFileEntry (buildIndex metadata.files) call.entry := by
    intro call hcall
    rw [List.mem_singleton.mp hcall, hfiles]
    exact plainEntry_isFileEntry
  have hremoval : ReadEffect.remove ⟨bytes "/a", bytes "/a"⟩ ∈
      (runReads (CacheManager.create (bytes "/cache") 1) [⟨plainEntry, 0, 1⟩]).2 := by
    decide +kernel
  obtain ⟨call, hcall, -, hsame, -⟩ :=
    h _ _ haccepts (bytes "/cache") 1 [⟨plainEntry, 0, 1⟩] hcalls _ hremoval
  obtain rfl := List.mem_singleton.mp hcall
  exact absurd hsame (by decide +kernel)

end Vtfs.Analysis
