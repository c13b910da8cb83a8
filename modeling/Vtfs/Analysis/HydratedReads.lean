import Vtfs.Analysis.CacheTracking
import Vtfs.Analysis.FileServing
import Vtfs.Analysis.SharedStorage
import Vtfs.Analysis.StreamWindows
import Vtfs.Analysis.ThreadSteps

/-!
# What reads give

The payload file of an entry is written by downloads of its own virtual path only, so with a web
seed that has the contents it holds them or is not there, in whatever order the threads take their
steps (`holds_next`).  A read that finds no file brings one on its way: until it is there some
thread is on the way to it (`brought_next`).
-/

set_option autoImplicit false

namespace Vtfs.Analysis

open Vtfs.Library
open Vtfs.Model
open Vtfs.Interface

variable {files : List TorrentFileRecord} {contents : Contents} {s later : TorrentSession}

/-! ## Files -/

/-- No action changes where the files are and where they come from. -/
theorem fixed_next {a : Action} (h : s.next a = some later) :
    later.cacheDirectory = s.cacheDirectory ∧ later.webSeedClient = s.webSeedClient := by
  rcases next_cases h with ⟨t, -, henters, -⟩ | ⟨t, outside, location, -, -, hproceeds⟩
  · rcases henters with rfl | ⟨location, rfl, -⟩
    · exact ⟨rfl, rfl⟩
    · exact ⟨rfl, rfl⟩
  · cases hproceeds <;> exact ⟨rfl, rfl⟩

/-- The files after an action: as before, or evicted, or after a download. -/
theorem disk_next {a : Action} (h : s.next a = some later) :
    later.disk = s.disk ∨
    (∃ t outside entry request, a = .proceed t outside ∧
      s.threads t = some (.evictIfNeeded entry request) ∧
      later.disk = removeAll outside.removes s.disk s.cacheManager.evictIfNeeded.2) ∨
    ∃ t outside entry, a = .proceed t outside ∧ s.threads t = some (.downloadFile entry) ∧
      later.disk = (downloadOf s outside entry).2 := by
  rcases next_cases h with ⟨t, -, henters, -⟩ | ⟨t, outside, location, rfl, hlocation, hproceeds⟩
  · rcases henters with rfl | ⟨location, rfl, -⟩
    · exact Or.inl rfl
    · exact Or.inl rfl
  · cases hproceeds with
    | evictIfNeeded entry request =>
        exact Or.inr (Or.inl ⟨t, outside, entry, request, rfl, hlocation, rfl⟩)
    | downloadFile entry => exact Or.inr (Or.inr ⟨t, outside, entry, rfl, hlocation, rfl⟩)
    | _ => exact Or.inl rfl

section Download

variable {outside : Outside} {entry other : FileEntry}

/-- A download leaves the files of other entries alone. -/
theorem disk_downloadOf_of_ne (hapart : FilesApart s.cacheDirectory files)
    (hentry : IsFileEntry (buildIndex files) entry) (hother : IsFileEntry (buildIndex files) other)
    (hne : other.virtualPath ≠ entry.virtualPath) :
    (downloadOf s outside entry).2 (payloadPathFor s.cacheDirectory other) =
      s.disk (payloadPathFor s.cacheDirectory other) := by
  obtain ⟨hdestination, hpart⟩ := hapart.places other entry hother hentry hne
  exact downloadFile_of_ne _ _ _ _ _ _ (fun hsame => hdestination (by rw [hsame]))
    fun hsame => hpart (by rw [← hsame])

/-- After a download its file holds the contents, if it is there. -/
theorem holds_downloadOf (hholds : HoldsContents contents s.cacheDirectory files s.disk)
    (hentry : IsFileEntry (buildIndex files) entry)
    (hseed : ∀ response, responseOf (received outside.network.delivery) = some response →
      bytes "200" <:+: response.statusLine → response.body = contents entry.virtualPath)
    {payload : Bytes} (hpayload : (downloadOf s outside entry).2
      (payloadPathFor s.cacheDirectory entry) = some payload) :
    payload = contents entry.virtualPath := by
  rcases downloadFile_cases s.webSeedClient outside.network outside.fileSystem s.disk
    entry.virtualPath (payloadPathFor s.cacheDirectory entry) with
    ⟨-, hreceived, -, hcontent⟩ | ⟨-, -, hkept | hgone⟩
  · obtain ⟨response, hresponse, hstatus, hbody⟩ := receivedFile_eq_true_iff.mp hreceived
    have hsame := hcontent.symm.trans hpayload
    rw [← Option.some.inj hsame, hbody]
    exact hseed response hresponse hstatus
  · exact hholds entry hentry payload (hkept.symm.trans hpayload)
  · have hnothing := hgone.symm.trans hpayload
    cases hnothing

/-- A download that succeeds leaves its file. -/
theorem hasFile_of_downloaded (h : (downloadOf s outside entry).1 = true) :
    ((downloadOf s outside entry).2 (payloadPathFor s.cacheDirectory entry)).isSome = true := by
  rcases downloadFile_cases s.webSeedClient outside.network outside.fileSystem s.disk
    entry.virtualPath (payloadPathFor s.cacheDirectory entry) with
    ⟨-, -, -, hcontent⟩ | ⟨-, hfails, -⟩
  · exact Option.isSome_iff_exists.mpr ⟨_, hcontent⟩
  · have hnot := hfails.symm.trans h
    cases hnot

end Download

/-! ## Reads are right -/

/-- A step keeps the payload files what they should be. -/
theorem holds_next {a : Action} (hapart : FilesApart s.cacheDirectory files)
    (hentries : EntriesOf files s)
    (hholds : HoldsContents contents s.cacheDirectory files s.disk)
    (hseed : SeedHas contents s a) (hnext : s.next a = some later) :
    HoldsContents contents s.cacheDirectory files later.disk := by
  rcases disk_next hnext with hsame | ⟨t, outside, entry, request, -, -, hdisk⟩ |
    ⟨t, outside, entry, rfl, hlocation, hdisk⟩
  · rw [hsame]
    exact hholds
  · -- an eviction only takes files away
    intro other hother payload hpayload
    rw [hdisk] at hpayload
    rcases removeAll_cases outside.removes s.disk s.cacheManager.evictIfNeeded.2
      (payloadPathFor s.cacheDirectory other) with hkept | hgone
    · exact hholds other hother payload (hkept.symm.trans hpayload)
    · rw [hgone] at hpayload
      cases hpayload
  · have hentry := hentries t entry (by rw [hlocation]; rfl)
    intro other hother payload hpayload
    rw [hdisk] at hpayload
    by_cases hpath : other.virtualPath = entry.virtualPath
    · rw [payloadPathFor_congr s.cacheDirectory hpath] at hpayload
      rw [hpath]
      exact holds_downloadOf hholds hentry ((atStep_proceed hlocation _).mp hseed) hpayload
    · rw [disk_downloadOf_of_ne hapart hentry hother hpath] at hpayload
      exact hholds other hother payload hpayload

/-- What is known of the files in a run. -/
structure Holding (files : List TorrentFileRecord) (contents : Contents) (config : Config)
    (s : TorrentSession) : Prop where
  directory : s.cacheDirectory = config.cacheDirectory
  client : s.webSeedClient = ⟨config.webSeedBaseUrl⟩
  entries : EntriesOf files s
  holds : HoldsContents contents config.cacheDirectory files s.disk

/-- At the start they are what they should be. -/
theorem holding_start {config : Config} {metadata : TorrentMetadata} {disk : Disk}
    (hdisk : HoldsContents contents config.cacheDirectory files disk) :
    Holding files contents config (TorrentSession.start config metadata disk) :=
  ⟨rfl, rfl, entriesOf_start config metadata disk, hdisk⟩

/-- The invariant is kept by each action. -/
theorem holding_next {config : Config} {a : Action}
    (hapart : FilesApart config.cacheDirectory files) (h : Holding files contents config s)
    (hcalls : CallsOnEntries files s a) (hseed : SeedHas contents s a)
    (hnext : s.next a = some later) : Holding files contents config later := by
  obtain ⟨hdirectory, hclient⟩ := fixed_next hnext
  refine ⟨hdirectory.trans h.directory, hclient.trans h.client,
    entriesOf_next h.entries hcalls hnext, ?_⟩
  have hholds := h.holds
  rw [← h.directory] at hapart hholds ⊢
  exact holds_next hapart h.entries hholds hseed hnext

/-- A read of a file that is there. -/
theorem tryReadFileRange_of_holds {entry : FileEntry} {payload : Bytes}
    (hfile : entry.isDirectory = false) {offset : UInt64} (hoffset : offset < entry.size)
    (hsmall : offset.toNat < 2 ^ 63)
    (hdisk : s.disk (payloadPathFor s.cacheDirectory entry) = some payload)
    (hpayload : payload = contents entry.virtualPath) (bytesToRead : UInt32) :
    tryReadFileRange s.disk true s.cacheDirectory entry offset bytesToRead =
      ⟨true, partRead contents entry offset bytesToRead, false⟩ := by
  rw [tryReadFileRange_of_lt hfile (UInt64.lt_iff_toNat_lt.mp hoffset), hdisk, hpayload]
  simp only [Option.elim_some, not_true_eq_false, if_false, if_neg (not_le.mpr hsmall)]
  rfl

/-- **Reads are right.**  However threads interleave, with downloads, evictions and other readers
between any two steps, a read that says it is ready gives the bytes of the file it is for, when the
web seed has these.
SRCLINE: TorrentSession.cpp:76-162, WebSeedClient.cpp:165-250, CacheManager.cpp:20-46 -/
theorem reads_contents {config : Config} {metadata : TorrentMetadata} {disk : Disk}
    (hapart : FilesApart config.cacheDirectory metadata.files)
    (hdisk : HoldsContents contents config.cacheDirectory metadata.files disk)
    (h : Reachable TorrentSession.next
      (fun s a => CallsOnEntries metadata.files s a ∧ SeedHas contents s a)
      (TorrentSession.start config metadata disk) s) {entry : FileEntry}
    (hentry : IsFileEntry (buildIndex metadata.files) entry) : ReadsContents contents s entry := by
  have hholding : Holding metadata.files contents config s := by
    refine h.invariant (holding_start hdisk) fun before a after hbefore hguard hnext => ?_
    exact holding_next hapart hbefore hguard.1 hguard.2 hnext
  intro opens offset bytesToRead hsmall hoffset hready
  cases hpayload : s.disk (payloadPathFor s.cacheDirectory entry) with
  | none =>
      rw [tryReadFileRange_of_lt hentry.file (UInt64.lt_iff_toNat_lt.mp hoffset), hpayload]
        at hready
      cases hready
  | some payload =>
      have hcontents : payload = contents entry.virtualPath := by
        rw [hholding.directory] at hpayload
        exact hholding.holds entry hentry payload hpayload
      cases opens with
      | false =>
          rw [tryReadFileRange_of_lt hentry.file (UInt64.lt_iff_toNat_lt.mp hoffset), hpayload]
            at hready
          cases hready
      | true =>
          rw [tryReadFileRange_of_holds hentry.file hoffset hsmall hpayload hcontents bytesToRead]

/-! ## Files arrive -/

/-- The virtual path of the file that a thread at this place is on the way to. -/
def bringing : Location → Option Bytes
  | .touch entry _ | .evictIfNeeded entry _ | .findFile entry | .ensureWebSeedDownload entry _
  | .insert entry _ | .spawn entry _ | .downloadFile entry => some entry.virtualPath
  | .requestFileData _ | .pumpOnce | .erase _ => none

/-- The file of an entry is there, or a thread is on the way to it. -/
def Brought (s : TorrentSession) (entry : FileEntry) : Prop :=
  s.hasFile entry = true ∨ ∃ t, (s.threads t).bind bringing = some entry.virtualPath

/-- Whether there is a file goes by the virtual path. -/
theorem hasFile_congr (s : TorrentSession) {entry other : FileEntry}
    (h : other.virtualPath = entry.virtualPath) : s.hasFile other = s.hasFile entry := by
  rw [TorrentSession.hasFile, TorrentSession.hasFile, payloadPathFor_congr s.cacheDirectory h]

/-- Where downloads succeed and nothing is evicted, files stay. -/
theorem hasFile_next {a : Action} (hapart : FilesApart s.cacheDirectory files)
    (hentries : EntriesOf files s) (harrives : Arrives s a) (hnext : s.next a = some later)
    {entry : FileEntry} (hentry : IsFileEntry (buildIndex files) entry)
    (h : s.hasFile entry = true) : later.hasFile entry = true := by
  rw [TorrentSession.hasFile, (fixed_next hnext).1]
  rcases disk_next hnext with hsame | ⟨t, outside, other, request, rfl, hlocation, hdisk⟩ |
    ⟨t, outside, other, rfl, hlocation, hdisk⟩
  · rw [hsame]
    exact h
  · have hkept : removeAll outside.removes s.disk s.cacheManager.evictIfNeeded.2 = s.disk :=
      (atStep_proceed hlocation _).mp harrives
    rw [hdisk, hkept]
    exact h
  · have hother := hentries t other (by rw [hlocation]; rfl)
    rw [hdisk]
    by_cases hpath : entry.virtualPath = other.virtualPath
    · rw [payloadPathFor_congr s.cacheDirectory hpath]
      exact hasFile_of_downloaded ((atStep_proceed hlocation _).mp harrives)
    · rw [disk_downloadOf_of_ne hapart hother hentry hpath]
      exact h

/-- A thread that is to erase a path has its file. -/
def Landed (s : TorrentSession) : Prop :=
  ∀ t entry, s.threads t = some (.erase entry) → s.hasFile entry = true

section Threads

variable {t u : ℕ} {outside : Outside} {next : Option Location} {location : Location}
  {threads : ℕ → Option Location}

/-- The thread that took the step is at its next place. -/
theorem ThreadsAfter.self (h : ThreadsAfter s t outside next location threads) :
    threads t = next := by
  cases h with
  | alone | made => exact Function.update_self _ _ _

/-- The other threads are where they were. -/
theorem ThreadsAfter.of_ne (h : ThreadsAfter s t outside next location threads) (hne : u ≠ t)
    {there : Location} (hu : s.threads u = some there) : threads u = some there := by
  cases h with
  | alone => rw [Function.update_of_ne hne, hu]
  | made entry request hnew =>
      have hold : u ≠ outside.thread := by
        rintro rfl
        rw [hnew] at hu
        cases hu
      rw [Function.update_of_ne hne, Function.update_of_ne hold, hu]

/-- The thread that is made is to download. -/
theorem ThreadsAfter.new {entry : FileEntry} {request : Option StreamRequest}
    (h : ThreadsAfter s t outside next (.spawn entry request) threads)
    (ht : s.threads t = some (.spawn entry request)) :
    threads outside.thread = some (.downloadFile entry) := by
  cases h with
  | alone hother => exact absurd rfl (hother entry request)
  | made _ _ hnew =>
      have hne : outside.thread ≠ t := by
        rintro heq
        rw [heq, ht] at hnew
        cases hnew
      rw [Function.update_of_ne hne, Function.update_self]

/-- So are the other ones that are there after a step, but for one that has just been made. -/
theorem ThreadsAfter.before (h : ThreadsAfter s t outside next location threads) (hne : u ≠ t)
    {there : Location} (hu : threads u = some there)
    (hmade : ∀ entry, there ≠ .downloadFile entry) : s.threads u = some there := by
  cases h with
  | alone => rwa [Function.update_of_ne hne] at hu
  | made entry request hnew =>
      rw [Function.update_of_ne hne] at hu
      by_cases hold : u = outside.thread
      · rw [hold, Function.update_self] at hu
        exact absurd (Option.some.inj hu).symm (hmade entry)
      · rwa [Function.update_of_ne hold] at hu

end Threads

/-- What is known of a session in which files arrive. -/
structure Arriving (files : List TorrentFileRecord) (s : TorrentSession) : Prop where
  apart : FilesApart s.cacheDirectory files
  enabled : s.webSeedClient.enabled = true
  entries : EntriesOf files s
  exclusive : (claimsOf s).Exclusive
  landed : Landed s

section Arrivals

variable {a : Action} {entry : FileEntry}

/-- After a step too, a thread that is to erase a path has its file. -/
theorem landed_next (h : Arriving files s) (harrives : Arrives s a)
    (hnext : s.next a = some later) : Landed later := by
  intro u entry hu
  have hkept : ∀ v, s.threads v = some (.erase entry) → later.hasFile entry = true :=
    fun v hv => hasFile_next h.apart h.entries harrives hnext
      (h.entries v entry (by rw [hv]; rfl)) (h.landed v entry hv)
  by_cases hstep : IsStep a
  · obtain ⟨t, outside, rfl⟩ := hstep
    obtain ⟨location, hlocation, hproceed⟩ := Option.bind_eq_some_iff.mp hnext
    obtain ⟨next, hgoes, hthreads⟩ := proceed_goesTo hproceed
    by_cases hut : u = t
    · subst hut
      rw [hthreads.self] at hu
      -- only a download leads there
      cases hgoes with
      | downloadFile other =>
          obtain rfl := Location.erase.inj (Option.some.inj hu)
          obtain rfl := Option.some.inj hproceed
          exact hasFile_of_downloaded ((atStep_proceed hlocation _).mp harrives)
      | unneeded _ request | taken _ request | spawn _ request => cases request <;> cases hu
      | touch | evictIfNeeded | found | missing | needed | claims | requestFileData | pumpOnce
      | erase => cases hu
    · exact hkept u (hthreads.before hut hu (by simp))
  · rcases call_cases hnext hstep with rfl | ⟨t, called, location, hcalls, rfl⟩
    · exact hkept u hu
    · by_cases hut : u = t
      · subst hut
        have hat : some location = some (.erase entry) := (moveTo_threads s u _).symm.trans hu
        cases hcalls.begins <;> cases hat
      · exact hkept u ((moveTo_threads_of_ne s hut _).symm.trans hu)

/-- A path in flight has its file already, or a thread that is on the way to it. -/
theorem brought_of_inFlight (h : Arriving files s) (hkey : entry.virtualPath ∈ s.webSeedInFlight) :
    s.hasFile entry = true ∨ ∃ u there, s.threads u = some there ∧
      claimOf there = some entry.virtualPath ∧ bringing there = some entry.virtualPath := by
  obtain ⟨u, hu⟩ := (h.exclusive.mem_taken_iff entry.virtualPath).mp hkey
  obtain ⟨there, hthere, hclaim⟩ := Option.bind_eq_some_iff.mp hu
  cases there with
  | erase other =>
      left
      rw [hasFile_congr s (Option.some.inj hclaim).symm]
      exact h.landed u other hthere
  | spawn | downloadFile => exact Or.inr ⟨u, _, hthere, hclaim, hclaim⟩
  | _ => cases hclaim

/-- A thread on the way to a file brings it nearer. -/
theorem brought_proceed {t : ℕ} {outside : Outside} {location : Location}
    (h : Arriving files s) (harrives : Arrives s (.proceed t outside))
    (hnext : s.next (.proceed t outside) = some later)
    (hentry : IsFileEntry (buildIndex files) entry) (hlocation : s.threads t = some location)
    (hbringing : bringing location = some entry.virtualPath) : Brought later entry := by
  have hproceed : s.proceed t outside location = some later := by
    rwa [TorrentSession.next, hlocation, Option.bind_some] at hnext
  obtain ⟨next, hgoes, hthreads⟩ := proceed_goesTo hproceed
  have hkept : ∀ other, other.virtualPath = entry.virtualPath → s.hasFile other = true →
      Brought later entry := fun other hpath hfile =>
    Or.inl (hasFile_next h.apart h.entries harrives hnext hentry
      ((hasFile_congr s hpath).symm.trans hfile))
  have hself := hthreads.self
  cases hgoes with
  | touch | evictIfNeeded | missing | needed | claims =>
      exact Or.inr ⟨t, by rw [hself]; exact hbringing⟩
  | found other hfile => exact hkept other (Option.some.inj hbringing) hfile
  | unneeded other request hreason =>
      have hother := h.entries t other (by rw [hlocation]; rfl)
      rcases hreason with hdirectory | hdisabled | hfile
      · rw [hother.file] at hdirectory
        cases hdirectory
      · exact absurd h.enabled hdisabled
      · exact hkept other (Option.some.inj hbringing) hfile
  | taken other request htaken =>
      rw [Option.some.inj hbringing] at htaken
      rcases brought_of_inFlight h htaken with hfile | ⟨u, there, hu, hclaim, hthere⟩
      · exact hkept entry rfl hfile
      · have hne : u ≠ t := by
          rintro rfl
          rw [hlocation] at hu
          obtain rfl := Option.some.inj hu
          cases hclaim
        exact Or.inr ⟨u, by rw [hthreads.of_ne hne hu]; exact hthere⟩
  | spawn other request =>
      exact Or.inr ⟨outside.thread, by rw [hthreads.new hlocation]; exact hbringing⟩
  | downloadFile other =>
      obtain rfl := Option.some.inj hproceed
      left
      rw [← hasFile_congr _ (Option.some.inj hbringing)]
      exact hasFile_of_downloaded ((atStep_proceed hlocation _).mp harrives)
  | requestFileData | pumpOnce | erase => cases hbringing

/-- Until its file is there, some thread is on the way to it. -/
theorem brought_next (h : Arriving files s) (harrives : Arrives s a)
    (hnext : s.next a = some later) (hentry : IsFileEntry (buildIndex files) entry)
    (hbrought : Brought s entry) : Brought later entry := by
  rcases hbrought with hfile | ⟨u, hu⟩
  · exact Or.inl (hasFile_next h.apart h.entries harrives hnext hentry hfile)
  obtain ⟨there, hthere, hbringing⟩ := Option.bind_eq_some_iff.mp hu
  by_cases hstep : IsStep a
  · obtain ⟨t, outside, rfl⟩ := hstep
    by_cases hut : u = t
    · subst hut
      exact brought_proceed h harrives hnext hentry hthere hbringing
    · obtain ⟨location, -, hproceed⟩ := Option.bind_eq_some_iff.mp hnext
      obtain ⟨next, -, hthreads⟩ := proceed_goesTo hproceed
      exact Or.inr ⟨u, by rw [hthreads.of_ne hut hthere]; exact hbringing⟩
  · rcases call_cases hnext hstep with rfl | ⟨t, called, location, hcalls, rfl⟩
    · exact Or.inr ⟨u, hu⟩
    · have hut : u ≠ t := by
        rintro rfl
        rw [hcalls.idle] at hthere
        cases hthere
      exact Or.inr ⟨u, by rw [moveTo_threads_of_ne s hut, hthere]; exact hbringing⟩

/-- The invariant of a run in which files arrive. -/
theorem arriving_next (h : Arriving files s) (hcalls : CallsOnEntries files s a)
    (harrives : Arrives s a) (hnext : s.next a = some later) : Arriving files later := by
  obtain ⟨hdirectory, hclient⟩ := fixed_next hnext
  refine ⟨by rw [hdirectory]; exact h.apart, by rw [hclient]; exact h.enabled,
    entriesOf_next h.entries hcalls hnext, exclusive_next h.exclusive hnext,
    landed_next h harrives hnext⟩

/-- There is a window wherever there are bytes. -/
theorem clampStreamWindow_ne_zero {offset : UInt64} (length : UInt32)
    (hoffset : offset < entry.size) : clampStreamWindow entry offset length ≠ 0 := by
  intro hzero
  have hwindow := clampStreamWindow_toNat length hoffset
  have hlt := UInt64.lt_iff_toNat_lt.mp hoffset
  have hdesired : 0 < (desiredWindow length).toNat := by
    have hahead : 0 < sequentialReadAheadWindow.toNat := by decide
    have hmax : max length sequentialReadAheadWindow =
        if length ≤ sequentialReadAheadWindow then sequentialReadAheadWindow else length := rfl
    rw [desiredWindow, hmax]
    split
    · decide
    · split
      · exact hahead
      · next hlonger =>
        rw [UInt32.le_iff_toNat_le] at hlonger
        omega
  rw [hzero] at hwindow
  simp only [UInt32.toNat_zero] at hwindow
  omega

/-- An entry is asked for when its call takes a thread on the way to its file. -/
theorem recordAsked_cases (hnext : s.next a = some later) (asked : List FileEntry) :
    recordAsked s a asked = asked ∨ ∃ t entry location, Calls s a t entry location ∧
      later = s.moveTo t (some location) ∧ recordAsked s a asked = asked ++ [entry] := by
  cases a with
  | proceed t outside => exact Or.inl rfl
  | queueRead t entry offset length =>
      simp only [TorrentSession.next, Option.ite_none_left_eq_some, Option.some.injEq] at hnext
      obtain ⟨hidle, rfl⟩ := hnext
      rw [TorrentSession.queueRead, recordAsked]
      split
      · exact Or.inl rfl
      · next hreads =>
        simp only [not_or, Bool.not_eq_true] at hreads
        exact Or.inr ⟨t, entry, _, ⟨rfl, by simpa using hidle, hreads.1, .touch offset length⟩, rfl,
          rfl⟩
  | beginStreaming t entry offset length =>
      simp only [TorrentSession.next, Option.ite_none_left_eq_some, Option.some.injEq] at hnext
      obtain ⟨hidle, rfl⟩ := hnext
      rw [recordAsked]
      by_cases hreads : entry.isDirectory = true ∨ entry.size ≤ offset
      · rw [if_pos hreads]
        exact Or.inl rfl
      · rw [if_neg hreads]
        simp only [not_or, Bool.not_eq_true, UInt64.not_le] at hreads
        have hwindow := clampStreamWindow_ne_zero length hreads.2
        refine Or.inr ⟨t, entry, _, ⟨rfl, by simpa using hidle, hreads.1,
          .touch offset (clampStreamWindow entry offset length)⟩, ?_, rfl⟩
        rw [TorrentSession.beginStreaming, TorrentSession.queueRead, if_neg]
        simp [hreads.1, hwindow, hreads.2]
  | tryReadFileRange t entry offset =>
      simp only [TorrentSession.next, Option.ite_none_left_eq_some, Option.some.injEq] at hnext
      obtain ⟨hidle, rfl⟩ := hnext
      rw [TorrentSession.tryReadFileRange, recordAsked]
      split
      · exact Or.inl rfl
      · next hreads =>
        simp only [not_or, Bool.not_eq_true] at hreads
        exact Or.inr ⟨t, entry, _, ⟨rfl, by simpa using hidle, hreads.1, .findFile⟩, rfl, rfl⟩

end Arrivals

/-- Every entry that was asked for has its file, or a thread on the way to it. -/
structure AllBrought (files : List TorrentFileRecord)
    (state : TorrentSession × List FileEntry) : Prop where
  entries : ∀ entry ∈ state.2, IsFileEntry (buildIndex files) entry
  brought : ∀ entry ∈ state.2, Brought state.1 entry

/-- A file that was asked for is there, or some thread is about to bring it. -/
theorem allBrought_next {asked asked' : List FileEntry} {a : Action} (h : Arriving files s)
    (hall : AllBrought files (s, asked)) (hcalls : CallsOnEntries files s a)
    (harrives : Arrives s a) (hnext : s.next a = some later)
    (hasked : asked' = recordAsked s a asked) : AllBrought files (later, asked') := by
  have hkept : ∀ entry ∈ asked, Brought later entry := fun entry hentry =>
    brought_next h harrives hnext (hall.entries entry hentry) (hall.brought entry hentry)
  rcases recordAsked_cases hnext asked with hsame | ⟨t, entry, location, hcall, hlater, hone⟩
  · rw [hasked, hsame]
    exact ⟨hall.entries, hkept⟩
  · rw [hasked, hone]
    constructor
    · intro other hother
      rcases List.mem_append.mp hother with hold | hnew
      · exact hall.entries other hold
      · rw [List.mem_singleton.mp hnew]
        exact ⟨hcall.file, isEntry_of_calledOn hcalls hcall.called⟩
    · intro other hother
      rcases List.mem_append.mp hother with hold | hnew
      · exact hkept other hold
      · rw [List.mem_singleton.mp hnew]
        right
        refine ⟨t, ?_⟩
        rw [hlater, moveTo_threads]
        cases hcall.begins <;> rfl

/-- **Files arrive.**  In every run in which downloads succeed and evictions take nothing away,
each file that was asked for, by a read or by streaming, can be read when all threads are done,
with its contents, however often it was asked for and whoever downloaded it.
SRCLINE: TorrentSession.cpp:89-162, WebSeedClient.cpp:165-250 -/
theorem asked_readable {config : Config} {metadata : TorrentMetadata} {disk : Disk}
    {state : TorrentSession × List FileEntry}
    (henabled : (WebSeedClient.mk config.webSeedBaseUrl).enabled = true)
    (hapart : FilesApart config.cacheDirectory metadata.files)
    (hdisk : HoldsContents contents config.cacheDirectory metadata.files disk)
    (h : Reachable (recorded TorrentSession.next recordAsked)
      (fun state a => CallsOnEntries metadata.files state a ∧ SeedHas contents state.1 a ∧
        Arrives state.1 a)
      (TorrentSession.start config metadata disk, []) state) (hquiesced : Quiesced state.1) :
    ∀ entry ∈ state.2, Readable contents state.1 entry := by
  have hinvariant : Holding metadata.files contents config state.1 ∧
      Arriving metadata.files state.1 ∧ AllBrought metadata.files state := by
    refine h.invariant (I := fun state => Holding metadata.files contents config state.1 ∧
      Arriving metadata.files state.1 ∧ AllBrought metadata.files state)
      ⟨holding_start hdisk, ⟨hapart, henabled, entriesOf_start config metadata disk,
        Claims.exclusive_empty, ?_⟩, ⟨by simp, by simp⟩⟩ ?_
    · intro t entry hentry
      cases hentry
    · rintro ⟨before, asked⟩ a ⟨after, asked'⟩ ⟨hholding, harriving, hall⟩ hguard hnext
      obtain ⟨hcalls, hseed, harrives⟩ := hguard
      obtain ⟨hstep, hasked⟩ := recorded_eq_some_iff.mp hnext
      exact ⟨holding_next hapart hholding hcalls hseed hstep,
        arriving_next harriving hcalls harrives hstep,
        allBrought_next harriving hall hcalls harrives hstep hasked⟩
  obtain ⟨hholding, -, hall⟩ := hinvariant
  intro entry hentry offset bytesToRead hsmall hoffset
  have hfile := hall.entries entry hentry
  rcases hall.brought entry hentry with hthere | ⟨t, ht⟩
  · obtain ⟨payload, hpayload⟩ := Option.isSome_iff_exists.mp hthere
    have hcontents : payload = contents entry.virtualPath := by
      rw [hholding.directory] at hpayload
      exact hholding.holds entry hfile payload hpayload
    exact tryReadFileRange_of_holds hfile.file hoffset hsmall hpayload hcontents bytesToRead
  · rw [hquiesced.threads t] at ht
    cases ht

/-! ## Concrete runs -/

/-- The web seed has these five bytes. -/
def fiveBytes : Contents := fun _ => bytes "abcde"

/-- The path of the torrent of one file leads down, and there is no other. -/
theorem leadApart_onePiece : LeadApart onePieceMetadata.files := by
  constructor
  · intro record hrecord
    obtain rfl := List.mem_singleton.mp hrecord
    exact ⟨by decide, by decide, by decide⟩
  · intro record hrecord other hother hne
    obtain rfl := List.mem_singleton.mp hrecord
    obtain rfl := List.mem_singleton.mp hother
    exact absurd rfl hne

/-- So it has nothing in its way. -/
theorem filesApart_onePiece : FilesApart seedConfig.cacheDirectory onePieceMetadata.files :=
  filesApart_of_leadApart leadApart_onePiece _

/-- An empty disk holds nothing wrong. -/
theorem holdsContents_empty (contents : Contents) (cacheDirectory : Bytes)
    (files : List TorrentFileRecord) :
    HoldsContents contents cacheDirectory files fun _ => none := by
  intro entry _ payload hpayload
  cases hpayload

/-- This web seed has the five bytes. -/
theorem seedHas_answering {s : TorrentSession} {entry : FileEntry}
    (hlocation : s.threads 1 = some (.downloadFile entry)) :
    SeedHas fiveBytes s (.proceed 1 (answering 1)) := by
  rw [SeedHas, atStep_proceed hlocation]
  intro response hresponse _
  obtain rfl := Option.some.inj hresponse
  rfl

/-- A reader has made a download start, and it has published the file. -/
theorem reads_contents_downloaded : ∃ s : TorrentSession,
    s.disk (bytes "/cache/payload/a") = some (bytes "abcde") ∧
      ReadsContents fiveBytes s seedEntry := by
  have hstart : Reachable TorrentSession.next
      (fun s a => CallsOnEntries onePieceMetadata.files s a ∧ SeedHas fiveBytes s a)
      (TorrentSession.start seedConfig onePieceMetadata fun _ => none) _ := .start
  have hcalled := hstart.step (a := Action.tryReadFileRange 0 seedEntry 0)
    ⟨isEntry_seedEntry, trivial⟩ rfl
  have hmissing := hcalled.step (a := Action.proceed 0 (answering 1)) ⟨trivial, trivial⟩ rfl
  have hneeded := hmissing.step (a := Action.proceed 0 (answering 1)) ⟨trivial, trivial⟩ rfl
  have hclaimed := hneeded.step (a := Action.proceed 0 (answering 1)) ⟨trivial, trivial⟩ rfl
  have hmade := hclaimed.step (a := Action.proceed 0 (answering 1)) ⟨trivial, trivial⟩ rfl
  have hpublished := hmade.step (a := Action.proceed 1 (answering 1))
    ⟨trivial, seedHas_answering rfl⟩ rfl
  exact ⟨_, by decide +kernel, reads_contents filesApart_onePiece (holdsContents_empty _ _ _)
    hpublished ⟨rfl, isEntry_seedEntry⟩⟩

/-- At the end of this run the file can be read. -/
theorem asked_readable_downloaded : ∃ state : TorrentSession × List FileEntry,
    state.2 = [seedEntry] ∧ ∀ entry ∈ state.2, Readable fiveBytes state.1 entry := by
  have hstart : Reachable (recorded TorrentSession.next recordAsked)
      (fun state a => CallsOnEntries onePieceMetadata.files state a ∧
        SeedHas fiveBytes state.1 a ∧ Arrives state.1 a)
      (TorrentSession.start seedConfig onePieceMetadata fun _ => none, []) _ := .start
  have hcalled := hstart.step (a := Action.tryReadFileRange 0 seedEntry 0)
    ⟨isEntry_seedEntry, trivial, trivial⟩ rfl
  have hmissing := hcalled.step (a := Action.proceed 0 (answering 1))
    ⟨trivial, trivial, trivial⟩ rfl
  have hneeded := hmissing.step (a := Action.proceed 0 (answering 1))
    ⟨trivial, trivial, trivial⟩ rfl
  have hclaimed := hneeded.step (a := Action.proceed 0 (answering 1))
    ⟨trivial, trivial, trivial⟩ rfl
  have hmade := hclaimed.step (a := Action.proceed 0 (answering 1)) ⟨trivial, trivial, trivial⟩ rfl
  have hpublished := hmade.step (a := Action.proceed 1 (answering 1))
    ⟨trivial, seedHas_answering rfl, rfl⟩ rfl
  have herased := hpublished.step (a := Action.proceed 1 (answering 1))
    ⟨trivial, trivial, trivial⟩ rfl
  refine ⟨_, rfl, asked_readable rfl filesApart_onePiece (holdsContents_empty _ _ _) herased
    ⟨fun t => ?_, rfl⟩⟩
  match t with
  | 0 => rfl
  | 1 => rfl
  | t + 2 => rfl

end Vtfs.Analysis
