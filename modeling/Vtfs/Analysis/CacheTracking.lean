import Vtfs.Analysis.RedundantDownloads

/-!
# Published files are tracked

A file is published long after it was asked for, and what the cache manager knows at that time is
what reads and evictions have left.  Where downloads are claimed for tracked paths only and
evictions are safe, what is underway stays tracked until it publishes (`Tracking`).
-/

set_option autoImplicit false

namespace Vtfs.Analysis

open Vtfs.Library
open Vtfs.Model
open Vtfs.Interface

/-! ## The cache manager -/

section Manager

variable {m : CacheManager} {key : Bytes}

/-- A key that was touched is tracked. -/
theorem tracked_touch_self (m : CacheManager) (key : Bytes) (size : UInt64) :
    Tracked (m.touch key size) key :=
  ⟨_, List.mem_cons_self, rfl⟩

/-- A touch keeps what is tracked. -/
theorem tracked_touch (h : Tracked m key) (other : Bytes) (size : UInt64) :
    Tracked (m.touch other size) key := by
  by_cases hother : key = other
  · subst hother
    exact tracked_touch_self m key size
  · obtain ⟨e, he, rfl⟩ := h
    exact ⟨e, List.mem_cons_of_mem _ (List.mem_filter.mpr ⟨he, by simpa using hother⟩), rfl⟩

/-- The loop keeps what it does not remove. -/
theorem mem_evictLoop_entries (m : CacheManager) (ordered : List (Bytes × CacheEntry))
    (total : UInt64) {e : Bytes × CacheEntry} (he : e ∈ m.entries)
    (hkept : ∀ removal ∈ (m.evictLoop ordered total).2, removal.key ≠ e.1) :
    e ∈ (m.evictLoop ordered total).1.entries := by
  induction ordered generalizing m total with
  | nil => exact he
  | cons first rest ih =>
      rw [CacheManager.evictLoop] at hkept ⊢
      split
      · next hfits =>
        rw [if_pos hfits] at hkept
        have hne := hkept _ (List.mem_singleton_self _)
        exact List.mem_filter.mpr ⟨he, by simpa using hne.symm⟩
      · next hfits =>
        rw [if_neg hfits] at hkept
        have hne := hkept _ List.mem_cons_self
        apply ih
        · exact List.mem_filter.mpr ⟨he, by simpa using hne.symm⟩
        · intro removal hremoval
          exact hkept removal (List.mem_cons_of_mem _ hremoval)

/-- An eviction keeps what it does not remove. -/
theorem tracked_evictIfNeeded (h : Tracked m key)
    (hkept : ∀ removal ∈ m.evictIfNeeded.2, removal.key ≠ key) :
    Tracked m.evictIfNeeded.1 key := by
  obtain ⟨e, he, rfl⟩ := h
  refine ⟨e, ?_, rfl⟩
  unfold CacheManager.evictIfNeeded at hkept ⊢
  split
  · exact he
  · next hfits =>
    rw [if_neg hfits] at hkept
    exact mem_evictLoop_entries m _ _ he hkept

end Manager

/-! ## Removals -/

section Removals

variable (removes : Removal → Bool) (disk : Disk) (removals : List Removal) (path : Bytes)

/-- A removal leaves a path as it is, or nothing there. -/
theorem removeFile_cases (succeeds : Bool) (other : Bytes) :
    removeFile succeeds disk other path = disk path ∨
      removeFile succeeds disk other path = none := by
  by_cases hpath : path = other
  · subst hpath
    rw [removeFile_self]
    cases succeeds with
    | false => exact Or.inl rfl
    | true => exact Or.inr rfl
  · exact Or.inl (removeFile_of_ne disk succeeds hpath)

/-- Removals leave a file or take it away. -/
theorem removeAll_cases :
    removeAll removes disk removals path = disk path ∨
      removeAll removes disk removals path = none := by
  induction removals generalizing disk with
  | nil => exact Or.inl rfl
  | cons removal rest ih =>
      have hfirst := removeFile_cases disk path (removes removal) removal.path
      rcases ih (removeFile (removes removal) disk removal.path) with hsame | hnone
      · rcases hfirst with hkept | hgone
        · exact Or.inl (hsame.trans hkept)
        · exact Or.inr (hsame.trans hgone)
      · exact Or.inr hnone

/-- What one of the removals took away is gone after all of them. -/
theorem removeAll_of_removed {removal : Removal} (hremoval : removal ∈ removals)
    (hremoves : removes removal = true) : removeAll removes disk removals removal.path = none := by
  induction removals generalizing disk with
  | nil => cases hremoval
  | cons first rest ih =>
      rcases List.mem_cons.mp hremoval with rfl | hrest
      · have hgone : removeFile (removes removal) disk removal.path removal.path = none := by
          simp [removeFile, hremoves]
        rcases removeAll_cases removes (removeFile (removes removal) disk removal.path) rest
          removal.path with hsame | hnone
        · exact hsame.trans hgone
        · exact hnone
      · exact ih (removeFile (removes first) disk first.path) hrest

end Removals

/-! ## One action -/

/-- What is published and what is underway is tracked. -/
structure Tracking (state : TorrentSession × Publisher) : Prop where
  published : PublishedTracked state
  underway : ∀ key, Underway state.1 key → Tracked state.1.cacheManager key

/-- A call publishes nothing. -/
theorem recordPublisher_of_call {s : TorrentSession} {a : Action} {publisher : Publisher}
    (h : ∀ t outside, a ≠ .proceed t outside) : recordPublisher s a publisher = publisher := by
  cases a with
  | proceed t outside => exact absurd rfl (h t outside)
  | _ => rfl

/-- Neither does a thread anywhere but in a download. -/
theorem recordPublisher_of_other {s : TorrentSession} {t : ℕ} {outside : Outside}
    {location : Location} {publisher : Publisher} (hlocation : s.threads t = some location)
    (hother : ∀ entry, location ≠ .downloadFile entry) :
    recordPublisher s (.proceed t outside) publisher = publisher := by
  cases location with
  | downloadFile entry => exact absurd rfl (hother entry)
  | _ => simp [recordPublisher, hlocation]

/-- An action that leaves the files alone, keeps what is tracked, and publishes nothing. -/
theorem tracking_of_same {s later : TorrentSession} {publisher : Publisher}
    (h : Tracking (s, publisher)) (hdisk : later.disk = s.disk)
    (hkept : ∀ key, Tracked s.cacheManager key → Tracked later.cacheManager key)
    (hunderway : ∀ key, Underway later key → Tracked later.cacheManager key) :
    Tracking (later, publisher) where
  published := by
    intro path key hpublisher hfile
    simp only [hdisk] at hfile
    exact hkept key (h.published path key hpublisher hfile)
  underway := hunderway

/-- An action that leaves the files and the cache manager alone. -/
theorem tracking_of_unchanged {s later : TorrentSession} {publisher : Publisher}
    (h : Tracking (s, publisher)) (hdisk : later.disk = s.disk)
    (hmanager : later.cacheManager = s.cacheManager)
    (hunderway : ∀ key, Underway later key → Underway s key) : Tracking (later, publisher) := by
  apply tracking_of_same h hdisk
  · intro key htracked
    rwa [hmanager]
  · intro key hkey
    rw [hmanager]
    exact h.underway key (hunderway key hkey)

/-- A safe eviction. -/
theorem tracking_evict {s later : TorrentSession} {publisher : Publisher} {removes : Removal → Bool}
    (h : Tracking (s, publisher)) (hmanager : later.cacheManager = s.cacheManager.evictIfNeeded.1)
    (hdisk : later.disk = removeAll removes s.disk s.cacheManager.evictIfNeeded.2)
    (hunderway : ∀ key, Underway later key → Underway s key)
    (hsafe : ∀ removal ∈ s.cacheManager.evictIfNeeded.2, ¬ Underway s removal.key ∧
      ∀ path, publisher path = some removal.key → s.disk path = none ∨
        ∃ other ∈ s.cacheManager.evictIfNeeded.2, other.path = path ∧ removes other = true) :
    Tracking (later, publisher) := by
  constructor
  · intro path key hpublisher hfile
    simp only [hmanager, hdisk] at hfile ⊢
    have hbefore : (s.disk path).isSome = true := by
      rcases removeAll_cases removes s.disk s.cacheManager.evictIfNeeded.2 path with hsame | hnone
      · rwa [hsame] at hfile
      · rw [hnone] at hfile
        cases hfile
    apply tracked_evictIfNeeded (h.published path key hpublisher hbefore)
    -- an entry that is dropped would have lost its file
    rintro removal hremoval rfl
    rcases (hsafe removal hremoval).2 path hpublisher with hnone | ⟨other, hother, rfl, hremoves⟩
    · rw [hnone] at hbefore
      cases hbefore
    · rw [removeAll_of_removed removes s.disk _ hother hremoves] at hfile
      cases hfile
  · intro key hkey
    simp only [hmanager]
    apply tracked_evictIfNeeded (h.underway key (hunderway key hkey))
    rintro removal hremoval rfl
    exact (hsafe removal hremoval).1 (hunderway _ hkey)

/-- The end of a download. -/
theorem tracking_download {s : TorrentSession} {publisher : Publisher} {t : ℕ} {outside : Outside}
    {entry : FileEntry} (h : Tracking (s, publisher))
    (hlocation : s.threads t = some (.downloadFile entry)) :
    Tracking ({ s with disk := (downloadOf s outside entry).2 }.moveTo t (some (.erase entry)),
      recordPublisher s (.proceed t outside) publisher) := by
  set destination := payloadPathFor s.cacheDirectory entry with hdestination
  have hpart := partPathFor_ne destination
  have hrecord : recordPublisher s (.proceed t outside) publisher =
      if (downloadOf s outside entry).1 then
        Function.update (Function.update publisher (partPathFor destination) none) destination
          (some entry.virtualPath)
      else Function.update publisher (partPathFor destination) none := by
    simp [recordPublisher, hlocation, hdestination]
  constructor
  · intro path key hpublisher hfile
    simp only [hrecord, TorrentSession.moveTo] at hpublisher hfile ⊢
    by_cases hpath : path = destination
    · subst hpath
      rcases downloadFile_cases s.webSeedClient outside.network outside.fileSystem s.disk
        entry.virtualPath destination with ⟨-, -, hok, -⟩ | ⟨-, hfailed, hkept⟩
      · -- the file is the entry's own now
        have hok : (downloadOf s outside entry).1 = true := hok
        rw [if_pos hok, Function.update_self] at hpublisher
        rw [← Option.some.inj hpublisher]
        exact h.underway _ ⟨t, by rw [hlocation]; rfl⟩
      · have hfailed : (downloadOf s outside entry).1 = false := hfailed
        simp only [hfailed, Bool.false_eq_true, if_false, Function.update_of_ne hpart] at hpublisher
        rcases hkept with hsame | hnone
        · rw [downloadOf, hsame] at hfile
          exact h.published _ key hpublisher hfile
        · rw [downloadOf, hnone] at hfile
          cases hfile
    · by_cases hpathPart : path = partPathFor destination
      · have hnobody : (if (downloadOf s outside entry).1 then
            Function.update (Function.update publisher (partPathFor destination) none) destination
              (some entry.virtualPath)
          else Function.update publisher (partPathFor destination) none) path = none := by
          split <;> simp [hpathPart, hpart.symm]
        rw [hnobody] at hpublisher
        cases hpublisher
      · have hbefore : publisher path = some key := by
          rw [← hpublisher]
          split <;> simp [hpath, hpathPart]
        rw [downloadOf, downloadFile_of_ne _ _ _ _ _ _ hpath hpathPart] at hfile
        exact h.published path key hbefore hfile
  · intro key hkey
    rcases underway_moveTo hkey with hnone | ⟨u, -, hu⟩
    · cases hnone
    · exact h.underway key ⟨u, hu⟩

/-- One action. -/
theorem tracking_next {state after : TorrentSession × Publisher} {a : Action} (h : Tracking state)
    (hguard : KeepsTrack state a)
    (hnext : recorded TorrentSession.next recordPublisher state a = some after) :
    Tracking after := by
  obtain ⟨s, publisher⟩ := state
  obtain ⟨later, more⟩ := after
  obtain ⟨hsession, hpublisher⟩ := recorded_eq_some_iff.mp hnext
  simp only at hsession hpublisher
  rcases next_cases hsession with
    ⟨t, -, henters, hcall⟩ | ⟨t, outside, location, rfl, hlocation, hproceeds⟩
  · rw [hpublisher, recordPublisher_of_call hcall]
    have hsame : ∀ key, Underway later key → Underway s key := fun key =>
      underway_before hsession fun u outside _ _ ha => absurd ha (hcall u outside)
    rcases henters with rfl | ⟨location, rfl, -⟩
    · exact h
    · exact tracking_of_unchanged h rfl rfl hsame
  have hsame : (∀ entry request, location ≠ .insert entry request) →
      ∀ key, Underway later key → Underway s key :=
    fun hinsert _ => underway_before_proceed hlocation hsession hinsert
  cases hproceeds with
  | goesOn hgoesOn =>
      have hother : ∀ entry, location ≠ .downloadFile entry := by
        rintro entry rfl
        cases hgoesOn.unclaimed
      rw [hpublisher, recordPublisher_of_other hlocation hother]
      exact tracking_of_unchanged h rfl rfl fun key hkey =>
        underway_of_moveTo hgoesOn.claimsNothing hkey
  | touch entry request =>
      rw [hpublisher, recordPublisher_of_other hlocation (by simp)]
      exact tracking_of_same h rfl (fun _ htracked => tracked_touch htracked _ _)
        fun key hkey => tracked_touch (h.underway key (hsame (by simp) key hkey)) _ _
  | evictIfNeeded entry request =>
      rw [hpublisher, recordPublisher_of_other hlocation (by simp)]
      have hsafe := (atStep_proceed hlocation _).mp hguard.drops
      exact tracking_evict h rfl rfl (hsame (by simp)) hsafe
  | insert entry request hfree =>
      rw [hpublisher, recordPublisher_of_other hlocation (by simp)]
      refine tracking_of_same h rfl (fun _ htracked => htracked) fun key hkey => ?_
      rcases underway_insert hlocation hsession hkey with hbefore | rfl
      · exact h.underway key hbefore
      · exact ((atStep_proceed hlocation _).mp hguard.claims).resolve_left hfree
  | spawn entry request hnew =>
      rw [hpublisher, recordPublisher_of_other hlocation (by simp)]
      exact tracking_of_unchanged h rfl rfl (hsame (by simp))
  | requestFileData request =>
      rw [hpublisher, recordPublisher_of_other hlocation (by simp)]
      exact tracking_of_unchanged h rfl rfl (hsame (by simp))
  | pumpOnce engine frames hpump =>
      rw [hpublisher, recordPublisher_of_other hlocation (by simp)]
      exact tracking_of_unchanged h rfl rfl (hsame (by simp))
  | downloadFile entry =>
      rw [hpublisher]
      exact tracking_download h hlocation
  | erase entry =>
      rw [hpublisher, recordPublisher_of_other hlocation (by simp)]
      exact tracking_of_unchanged h rfl rfl (hsame (by simp))

/-! ## Runs -/

/-- **Published files are tracked.**  In every run in which downloads are claimed for tracked paths
only, and evictions are safe, every file that a download published and that is there has an entry
in the cache manager.
SRCLINE: TorrentSession.cpp:89-162, CacheManager.cpp:16-45, WebSeedClient.cpp:234-250 -/
theorem publishedTracked {config : Config} {metadata : TorrentMetadata} {disk : Disk}
    {state : TorrentSession × Publisher}
    (h : Reachable (recorded TorrentSession.next recordPublisher) KeepsTrack
      (TorrentSession.start config metadata disk, fun _ => none) state) :
    PublishedTracked state := by
  have htracking : Tracking state := by
    apply h.invariant
    · refine ⟨?_, ?_⟩
      · intro path key hpublisher
        cases hpublisher
      · rintro key ⟨t, ht⟩
        cases ht
    · intro before a after hbefore hguard hnext
      exact tracking_next hbefore hguard hnext
  exact htracking.published

/-- A read that asks the cache manager first. -/
theorem publishedTracked_streaming : ∃ state : TorrentSession × Publisher,
    state.2 (bytes "/cache/payload/a") = some (bytes "/a") ∧ PublishedTracked state := by
  have hstart : Reachable (recorded TorrentSession.next recordPublisher) KeepsTrack
      (TorrentSession.start seedConfig onePieceMetadata fun _ => none, fun _ => none) _ := .start
  have hcalled := hstart.step (a := Action.beginStreaming 0 seedEntry 0 0) ⟨trivial, trivial⟩ rfl
  have htouched := hcalled.step (a := Action.proceed 0 (answering 1)) ⟨trivial, trivial⟩ rfl
  have hevicted := htouched.step (a := Action.proceed 0 (answering 1)) (by
    refine ⟨trivial, fun removal hremoval => ?_⟩
    have hnothing : removal ∈ ([] : List Removal) := hremoval
    cases hnothing) rfl
  have habsent := hevicted.step (a := Action.proceed 0 (answering 1)) ⟨trivial, trivial⟩ rfl
  have hinserted := habsent.step (a := Action.proceed 0 (answering 1))
    ⟨Or.inr ⟨_, List.mem_cons_self, rfl⟩, trivial⟩ rfl
  have hspawned := hinserted.step (a := Action.proceed 0 (answering 1)) ⟨trivial, trivial⟩ rfl
  have hpublished := hspawned.step (a := Action.proceed 1 (answering 1)) ⟨trivial, trivial⟩ rfl
  exact ⟨_, by decide +kernel, publishedTracked hpublished⟩

/-- A read that does not: the file that is published for it is not known. -/
theorem publishedTracked_fails : ¬ ∀ raw metadata, Accepts raw metadata → ∀ config state,
    Reachable (recorded TorrentSession.next recordPublisher) (CallsOnEntries metadata.files)
      (TorrentSession.start config metadata fun _ => none, fun _ => none) state →
        PublishedTracked state := by
  intro h
  have hstart : Reachable (recorded TorrentSession.next recordPublisher)
      (CallsOnEntries onePieceMetadata.files)
      (TorrentSession.start seedConfig onePieceMetadata fun _ => none, fun _ => none) _ := .start
  have hcalled := hstart.step (a := Action.tryReadFileRange 0 seedEntry 0) isEntry_seedEntry rfl
  have hmissed := hcalled.step (a := Action.proceed 0 (answering 1)) trivial rfl
  have habsent := hmissed.step (a := Action.proceed 0 (answering 1)) trivial rfl
  have hinserted := habsent.step (a := Action.proceed 0 (answering 1)) trivial rfl
  have hspawned := hinserted.step (a := Action.proceed 0 (answering 1)) trivial rfl
  have hpublished := hspawned.step (a := Action.proceed 1 (answering 1)) trivial rfl
  obtain ⟨e, he, -⟩ := h _ _ accepts_onePieceTorrent _ _ hpublished (bytes "/cache/payload/a")
    (bytes "/a") (by decide +kernel) (by decide +kernel)
  cases he

end Vtfs.Analysis
