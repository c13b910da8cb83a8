import Vtfs.Interface.WebDavAddresses
import Vtfs.Analysis.PayloadPaths

/-!
# Addresses that lead back

Decoding never makes a text longer, and leaves it alone only when there is nothing to decode
(`urlDecodeLoop_eq_self_iff`); the target of a request is the address up to its first white space
(`target_of_requestLineOf`).  So the length of a path tells when something was lost, and the
address of an entry leads back to it exactly when nothing was (`resolvesToItself_iff`).
-/

set_option autoImplicit false

namespace Vtfs.Analysis

open Vtfs.Library
open Vtfs.Library.PosixPath (slash)
open Vtfs.Model
open Vtfs.Interface

/-! ## Decoding -/

/-- Decoding makes no text longer. -/
theorem urlDecodeLoop_length_le (skip : ℕ) (path : Bytes) :
    (urlDecodeLoop skip path).length ≤ path.length - skip := by
  induction path generalizing skip with
  | nil => cases skip <;> simp [urlDecodeLoop]
  | cons ch rest ih =>
      cases skip with
      | succ skip =>
          have hrest := ih skip
          simp only [urlDecodeLoop, List.length_cons]
          omega
      | zero =>
          rw [urlDecodeLoop]
          split
          · have hrest := ih 2
            simp only [List.length_cons]
            omega
          · have hrest := ih 0
            simp only [List.length_cons]
            omega

/-- An escape takes three characters. -/
theorem length_of_escapedByte {text : Bytes} {decoded : UInt8}
    (h : escapedByte text = some decoded) : 3 ≤ text.length := by
  match text with
  | [] | [_] | [_, _] => cases h
  | _ :: _ :: _ :: _ => simp

/-- A text that does not get shorter has no escapes, and only its plus signs change. -/
theorem urlDecodeLoop_of_length {path : Bytes}
    (h : (urlDecodeLoop 0 path).length = path.length) :
    (∀ text, text <:+ path → escapedByte text = none) ∧
      urlDecodeLoop 0 path = path.map fun ch => if ch = byte '+' then byte ' ' else ch := by
  induction path with
  | nil =>
      refine ⟨fun text htext => ?_, rfl⟩
      rw [List.suffix_nil.mp htext]
      rfl
  | cons ch rest ih =>
      rw [urlDecodeLoop] at h ⊢
      split at h
      · rename_i decoded hescape
        have hthree := length_of_escapedByte hescape
        have hrest := urlDecodeLoop_length_le 2 rest
        simp only [List.length_cons] at h hthree
        omega
      · rename_i hnone
        obtain ⟨hsuffix, hloop⟩ := ih (by simpa using h)
        refine ⟨fun text htext => ?_, ?_⟩
        · rcases List.suffix_cons_iff.mp htext with rfl | htext
          · exact hnone
          · exact hsuffix text htext
        · rw [hloop, List.map_cons]

/-- A text is decoded to itself when it has no plus and no escape. -/
theorem urlDecodeLoop_eq_self_iff {path : Bytes} :
    urlDecodeLoop 0 path = path ↔
      byte '+' ∉ path ∧ ∀ text, text <:+ path → escapedByte text = none := by
  constructor
  · intro h
    obtain ⟨hescape, hloop⟩ := urlDecodeLoop_of_length (congrArg List.length h)
    refine ⟨fun hplus => ?_, hescape⟩
    -- decoding would have made a space of it
    have hmem : byte '+' ∈ path.map fun ch => if ch = byte '+' then byte ' ' else ch := by
      rw [← hloop, h]
      exact hplus
    obtain ⟨ch, -, hch⟩ := List.mem_map.mp hmem
    split at hch
    · exact absurd hch (by decide)
    · contradiction
  · rintro ⟨hplus, hescape⟩
    induction path with
    | nil => rfl
    | cons ch rest ih =>
        obtain ⟨hch, hrest⟩ := not_or.mp (mt List.mem_cons.mpr hplus)
        rw [urlDecodeLoop, hescape _ List.suffix_rfl, if_neg (Ne.symm hch)]
        rw [ih hrest fun text htext => hescape text (htext.trans (List.suffix_cons ch rest))]

/-- A slash is decoded to itself. -/
theorem urlDecodeLoop_of_slash (rest : Bytes) :
    urlDecodeLoop 0 (slash :: rest) = slash :: urlDecodeLoop 0 rest := by
  have hnone : escapedByte (slash :: rest) = none := by
    match rest with
    | [] | [_] => rfl
    | _ :: _ :: _ => rw [escapedByte, if_neg (by decide)]
  rw [urlDecodeLoop, hnone, if_neg (by decide)]

/-- A path with a slash in front keeps it. -/
theorem urlDecode_of_slash (rest : Bytes) :
    urlDecode (slash :: rest) = slash :: urlDecodeLoop 0 rest := by
  rw [urlDecode, urlDecodeLoop_of_slash, if_neg (by simp)]

/-! ## Normalizing -/

/-- Dropping slashes makes no path longer. -/
theorem length_dropTrailingSlashes_le (path : Bytes) :
    (dropTrailingSlashes path).length ≤ path.length := by
  cases path with
  | nil => exact le_rfl
  | cons c cs =>
      simp only [dropTrailingSlashes, List.length_cons]
      exact Nat.succ_le_succ (List.rdropWhile_prefix _ _).length_le

/-- A path that keeps its length is only changed in its backslashes. -/
theorem normalizePath_of_length {rest : Bytes}
    (h : (normalizePath (slash :: rest)).length = (slash :: rest).length) :
    normalizePath (slash :: rest) =
      slash :: rest.map fun ch => if ch = byte '\\' then slash else ch := by
  unfold normalizePath at h ⊢
  split at h
  · rename_i htrivial
    have hnil : rest = [] := by simpa using htrivial
    subst hnil
    rfl
  · rename_i hlong
    rw [if_neg hlong]
    simp only [List.head?_cons, ne_eq, not_true_eq_false, if_false, List.nil_append,
      List.map_cons] at h ⊢
    have hslash : (if slash = byte '\\' then slash else slash) = slash := by decide
    rw [hslash] at h ⊢
    simp only [dropTrailingSlashes, List.length_cons, add_left_inj] at h ⊢
    congr 1
    apply (List.rdropWhile_prefix _ _).eq_of_length
    rw [h, List.length_map]

/-- Neither does normalizing one with a slash in front. -/
theorem length_normalizePath_le (rest : Bytes) :
    (normalizePath (slash :: rest)).length ≤ (slash :: rest).length := by
  unfold normalizePath
  split
  · simp
  · have hdrop := length_dropTrailingSlashes_le
      ((slash :: rest).map fun ch => if ch = byte '\\' then slash else ch)
    simpa using hdrop

/-- Decoding and normalizing lead back to a normalized path when there is nothing to decode. -/
theorem normalizePath_urlDecode_iff {path : Bytes} (h : Normalized path) :
    normalizePath (urlDecode path) = path ↔
      byte '+' ∉ path ∧ ∀ text, text <:+ path → escapedByte text = none := by
  constructor
  · intro hback
    rw [← urlDecodeLoop_eq_self_iff]
    obtain ⟨rest, rfl⟩ : ∃ rest, path = slash :: rest := ⟨path.tail, h.eq_cons⟩
    rw [urlDecode_of_slash] at hback
    -- nothing got shorter, in decoding or in normalizing
    have hnormal := length_normalizePath_le (urlDecodeLoop 0 rest)
    have hloop := urlDecodeLoop_length_le 0 rest
    rw [hback] at hnormal
    simp only [List.length_cons, Nat.sub_zero] at hnormal hloop
    have hlength : (urlDecodeLoop 0 rest).length = rest.length := by omega
    have hwhole : (normalizePath (slash :: urlDecodeLoop 0 rest)).length =
        (slash :: urlDecodeLoop 0 rest).length := by
      rw [hback, List.length_cons, List.length_cons, hlength]
    have hkeeps := normalizePath_of_length hwhole
    rw [hback, (urlDecodeLoop_of_length hlength).2, List.cons.injEq] at hkeeps
    have hplus : byte '+' ∉ rest := by
      intro hmem
      rw [hkeeps.2] at hmem
      obtain ⟨ch, hch, hslash⟩ := List.mem_map.mp hmem
      obtain ⟨original, -, rfl⟩ := List.mem_map.mp hch
      split at hslash
      · exact absurd hslash (by decide)
      · split at hslash
        · exact absurd hslash (by decide)
        · contradiction
    have hself : urlDecodeLoop 0 rest = rest :=
      urlDecodeLoop_eq_self_iff.mpr ⟨hplus, (urlDecodeLoop_of_length hlength).1⟩
    rw [urlDecodeLoop_of_slash, hself]
  · intro hplain
    have hself := urlDecodeLoop_eq_self_iff.mpr hplain
    have hne : path ≠ [] := by
      rw [h.eq_cons]
      simp
    rw [urlDecode, hself, if_neg hne, normalizePath_of_normalized h]

/-- A target that ends before the path does leads to a shorter path. -/
theorem no_space_of_leads_back {path : Bytes} (h : Normalized path)
    (hback : normalizePath (urlDecode (path.takeWhile fun ch => !isSpace ch)) = path) :
    ∀ ch ∈ path, isSpace ch = false := by
  obtain ⟨rest, rfl⟩ : ∃ rest, path = slash :: rest := ⟨path.tail, h.eq_cons⟩
  have hslash : isSpace slash = false := by decide
  have htake : (slash :: rest).takeWhile (fun ch => !isSpace ch) =
      slash :: rest.takeWhile fun ch => !isSpace ch := by
    simp [hslash]
  rw [htake, urlDecode_of_slash] at hback
  have hnormal := length_normalizePath_le (urlDecodeLoop 0 (rest.takeWhile fun ch => !isSpace ch))
  have hloop := urlDecodeLoop_length_le 0 (rest.takeWhile fun ch => !isSpace ch)
  rw [hback] at hnormal
  simp only [List.length_cons, Nat.sub_zero] at hnormal hloop
  have hall : rest.takeWhile (fun ch => !isSpace ch) = rest :=
    (List.takeWhile_prefix _).eq_of_length_le (by omega)
  intro ch hch
  rcases List.mem_cons.mp hch with rfl | hch
  · exact hslash
  · simpa using List.takeWhile_eq_self_iff.mp hall ch hch

/-! ## The target of a request -/

/-- A word is read up to white space. -/
theorem readWord_of_split {word rest : Bytes} (hne : word ≠ [])
    (hword : ∀ ch ∈ word, isSpace ch = false) (hrest : ∀ ch, rest.head? = some ch → isSpace ch) :
    readWord (byte ' ' :: (word ++ rest)) = (word, rest) := by
  obtain ⟨c, cs, rfl⟩ := List.exists_cons_of_ne_nil hne
  have hdrop : (byte ' ' :: (c :: cs ++ rest)).dropWhile isSpace = c :: cs ++ rest := by
    have hc : isSpace c = false := hword c (by simp)
    have hspace : isSpace (byte ' ') = true := by decide
    rw [List.dropWhile_cons_of_pos hspace, List.cons_append,
      List.dropWhile_cons_of_neg (by simp [hc])]
  have hstop : rest.takeWhile (fun ch => !isSpace ch) = [] ∧
      rest.dropWhile (fun ch => !isSpace ch) = rest := by
    cases rest with
    | nil => simp
    | cons d ds => simp [hrest d rfl]
  have hall : ∀ ch ∈ c :: cs, (!isSpace ch) = true := by
    intro ch hch
    rw [hword ch hch]
    rfl
  rw [readWord, hdrop, List.takeWhile_append_of_pos hall, List.dropWhile_append_of_pos hall,
    hstop.1, hstop.2, List.append_nil]

/-- The target of a line is the word after the method. -/
theorem target_parseRequestLine {target rest : Bytes} (hne : target ≠ [])
    (htarget : ∀ ch ∈ target, isSpace ch = false)
    (hrest : ∀ ch, rest.head? = some ch → isSpace ch) :
    (parseRequestLine (bytes "GET " ++ target ++ rest)).target = target := by
  have hmethod : readWord (bytes "GET " ++ target ++ rest) =
      (bytes "GET", byte ' ' :: (target ++ rest)) := by
    rw [List.append_assoc]
    rfl
  rw [parseRequestLine, hmethod]
  simp only [readWord_of_split hne htarget hrest]

/-- The two characters of a line end. -/
theorem crlf_eq : crlf = [byte '\r', byte '\n'] := rfl

/-- What is received of a request, cut at the end of its first line. -/
theorem exists_cut_of_requestLineOf {href headers : Bytes} {n : ℕ} {line : RequestLine}
    (h : requestLineOf ((getRequest href headers).take n) = some line) :
    ∃ before after, before ++ byte '\r' :: after = getRequest href headers ∧
      before.length + 2 ≤ n ∧ parseRequestLine before = line := by
  obtain ⟨⟨before, after⟩, hcut, hline⟩ := Option.map_eq_some_iff.mp h
  have hreceived := eq_of_cutAt hcut
  rw [crlf_eq] at hreceived
  refine ⟨before, byte '\n' :: after ++ (getRequest href headers).drop n, ?_, ?_, hline⟩
  · have hall := List.take_append_drop n (getRequest href headers)
    rw [hreceived] at hall
    simpa using hall
  · have hlength := congrArg List.length hreceived
    simp only [List.length_take, List.length_append, List.length_cons, List.length_nil] at hlength
    omega

/-- The target is the address up to its first white space. -/
theorem target_of_requestLineOf {href headers : Bytes} {n : ℕ} {line : RequestLine}
    (hhead : href.head? = some slash)
    (h : requestLineOf ((getRequest href headers).take n) = some line) :
    line.target = href.takeWhile fun ch => !isSpace ch := by
  obtain ⟨before, after, hrequest, -, rfl⟩ := exists_cut_of_requestLineOf h
  set target := href.takeWhile fun ch => !isSpace ch with htarget
  set others := href.dropWhile (fun ch => !isSpace ch) with hothers
  have hword : ∀ ch ∈ target, isSpace ch = false := by
    intro ch hch
    simpa using List.mem_takeWhile_imp hch
  -- the line goes on with white space after the target
  obtain ⟨c, tail, htail, hc⟩ :
      ∃ c tail, others ++ (bytes " HTTP/1.1" ++ crlf ++ headers) = c :: tail ∧
        isSpace c = true := by
    cases hcase : others with
    | nil => exact ⟨byte ' ', bytes "HTTP/1.1" ++ crlf ++ headers, rfl, by decide⟩
    | cons c cs =>
        refine ⟨c, _, rfl, ?_⟩
        have hstop := List.head?_dropWhile_not (fun ch => !isSpace ch) href
        rw [← hothers, hcase] at hstop
        simpa using hstop
  have hsplit : before ++ byte '\r' :: after = (bytes "GET " ++ target) ++ c :: tail := by
    rw [hrequest, ← htail, getRequest]
    conv_lhs => rw [← List.takeWhile_append_dropWhile (p := fun ch => !isSpace ch) (l := href)]
    simp only [htarget, hothers, List.append_assoc]
  have hfree : byte '\r' ∉ bytes "GET " ++ target := by
    intro hmem
    rcases List.mem_append.mp hmem with hmem | hmem
    · exact absurd hmem (by decide)
    · exact absurd (hword _ hmem) (by decide)
  obtain ⟨more, rfl, hmore⟩ := exists_append_of_not_mem hsplit hfree
  apply target_parseRequestLine
  · intro hnil
    cases href with
    | nil => simp at hhead
    | cons d ds =>
        obtain rfl : d = slash := by simpa using hhead
        have hslash : isSpace slash = false := by decide
        simp [htarget, hslash] at hnil
  · exact hword
  · intro ch hch
    cases more with
    | nil => simp at hch
    | cons d ds =>
        obtain rfl : d = ch := by simpa using hch
        rw [List.cons_append, List.cons.injEq] at hmore
        rw [← hmore.1, hc]

/-- The first line of a request for an address. -/
def firstLine (href : Bytes) : Bytes := bytes "GET " ++ href ++ bytes " HTTP/1.1"

/-- The first line takes thirteen characters more than the address. -/
theorem length_firstLine (href : Bytes) : (firstLine href).length = href.length + 13 := by
  have hget : (bytes "GET ").length = 4 := by decide
  have hversion : (bytes " HTTP/1.1").length = 9 := by decide
  simp only [firstLine, List.length_append, hget, hversion]
  omega

/-- It has no line end in it. -/
theorem return_not_mem_firstLine {href : Bytes} (hspace : ∀ ch ∈ href, isSpace ch = false) :
    byte '\r' ∉ firstLine href := by
  intro hmem
  rcases List.mem_append.mp hmem with hmem | hmem
  · rcases List.mem_append.mp hmem with hmem | hmem
    · exact absurd hmem (by decide)
    · exact absurd (hspace _ hmem) (by decide)
  · exact absurd hmem (by decide)

/-- A line with an address that has no white space takes 15 bytes more than the address. -/
theorem length_of_requestLineOf {href headers : Bytes} {n : ℕ} {line : RequestLine}
    (hspace : ∀ ch ∈ href, isSpace ch = false)
    (h : requestLineOf ((getRequest href headers).take n) = some line) : href.length + 15 ≤ n := by
  obtain ⟨before, after, hrequest, hlength, -⟩ := exists_cut_of_requestLineOf h
  rw [getRequest, List.append_assoc] at hrequest
  obtain ⟨more, rfl, -⟩ := exists_append_of_not_mem hrequest (return_not_mem_firstLine hspace)
  have hfirst := length_firstLine href
  rw [firstLine] at hfirst
  rw [List.length_append, hfirst] at hlength
  omega

/-- An address that fits is received with its line end. -/
theorem exists_requestLineOf {href : Bytes} (hspace : ∀ ch ∈ href, isSpace ch = false) {n : ℕ}
    (hshort : href.length + 15 ≤ n) (headers : Bytes) :
    ∃ line, requestLineOf ((getRequest href headers).take n) = some line := by
  have hlength : (firstLine href ++ crlf).length ≤ n := by
    rw [List.length_append, length_firstLine, crlf_eq]
    exact hshort
  rw [getRequest, ← firstLine, List.take_append, List.take_of_length_le hlength, requestLineOf,
    crlf_eq, cutAt_of_not_mem (return_not_mem_firstLine hspace)]
  exact ⟨_, rfl⟩

/-! ## The entries of the index -/

/-- An entry is found under its virtual path. -/
theorem virtualPath_of_entries {files : List TorrentFileRecord} {path : Bytes} {entry : FileEntry}
    (h : (buildIndex files).entries path = some entry) : entry.virtualPath = path := by
  rcases (entriesHold_buildIndex files).cases _ _ h with ⟨rfl, -⟩ | ⟨e, -, rfl, rfl⟩
  · rfl
  · rfl

/-- The virtual path of an entry is normalized. -/
theorem normalized_of_isEntry {files : List TorrentFileRecord} {entry : FileEntry}
    (h : IsEntry (buildIndex files) entry) : Normalized entry.virtualPath := by
  by_cases hfile : entry.isDirectory = false
  · exact normalized_virtualPath ⟨hfile, h⟩
  · rcases h with ⟨path, hlookup⟩ | ⟨path, hlisted⟩
    · rw [virtualPath_of_entries hlookup]
      exact normalizePath_normalized path
    · obtain ⟨d, hseen, -, -, rfl⟩ := seen_of_mem_children hlisted (by simpa using hfile)
      rw [dirEntry, ← normalizePath_of_seen hseen]
      exact normalizePath_normalized d

/-- **Addresses lead back.**  The address published for an entry, put into a request as it is,
leads back to the entry if and only if its path has no white space, no plus sign and no escape,
fits the buffer, and is still the path of this entry.
SRCLINE: WebDavServer.cpp:98-121 -/
theorem resolvesToItself_iff {files : List TorrentFileRecord} {entry : FileEntry}
    (h : IsEntry (buildIndex files) entry) :
    ResolvesToItself (buildIndex files) entry ↔ UsableAsIs (buildIndex files) entry := by
  have hnormalized := normalized_of_isEntry h
  have hhref : webDavHref entry = entry.virtualPath := by
    unfold webDavHref
    split
    · rename_i hroot
      exact hroot.symm
    · rfl
  unfold ResolvesToItself
  rw [hhref]
  constructor
  · intro hresolves
    obtain ⟨line, hline, hentry⟩ := hresolves []
    have htarget := target_of_requestLineOf hnormalized.head hline
    have hback : normalizePath (urlDecode line.target) = entry.virtualPath :=
      (virtualPath_of_entries hentry).symm
    have hspace := no_space_of_leads_back hnormalized (by rwa [← htarget])
    have hall : line.target = entry.virtualPath := by
      rw [htarget, List.takeWhile_eq_self_iff]
      intro ch hch
      simp [hspace ch hch]
    rw [hall] at hback
    obtain ⟨hplus, hescape⟩ := (normalizePath_urlDecode_iff hnormalized).mp hback
    rw [entryFor, hall, lookup, hback] at hentry
    exact ⟨hspace, hplus, hescape, length_of_requestLineOf hspace hline, hentry⟩
  · intro husable headers
    obtain ⟨line, hline⟩ := exists_requestLineOf husable.no_space husable.short headers
    refine ⟨line, hline, ?_⟩
    have hall : line.target = entry.virtualPath := by
      rw [target_of_requestLineOf hnormalized.head hline, List.takeWhile_eq_self_iff]
      intro ch hch
      simp [husable.no_space ch hch]
    have hback := (normalizePath_urlDecode_iff hnormalized).mpr
      ⟨husable.no_plus, husable.no_escape⟩
    rw [entryFor, hall, lookup, hback]
    exact husable.kept

/-- The address of the file `x` of a torrent `a`. -/
theorem resolvesToItself_plain :
    IsEntry (buildIndex [⟨bytes "a/x", 1, 0⟩]) ⟨bytes "/a/x", 1, 0, 0, false⟩ ∧
      ResolvesToItself (buildIndex [⟨bytes "a/x", 1, 0⟩]) ⟨bytes "/a/x", 1, 0, 0, false⟩ := by
  have hentry : IsEntry (buildIndex [⟨bytes "a/x", 1, 0⟩]) ⟨bytes "/a/x", 1, 0, 0, false⟩ :=
    Or.inl ⟨bytes "/a/x", by decide +kernel⟩
  have hnone : ∀ text, text <:+ bytes "/a/x" → escapedByte text = none := by
    intro text htext
    rw [← List.mem_tails] at htext
    have hall : ∀ text ∈ (bytes "/a/x").tails, escapedByte text = none := by decide
    exact hall text htext
  exact ⟨hentry, (resolvesToItself_iff hentry).mpr
    ⟨by decide +kernel, by decide, hnone, by decide, by decide +kernel⟩⟩

/-- A torrent with the name `a b`. -/
def spacedNameTorrent : StringView :=
  ⟨bytes "d4:infod6:lengthi1e4:name3:a b12:piece lengthi1e6:pieces0:ee", by decide⟩

/-- The torrent with a space in a name loads. -/
theorem accepts_spacedNameTorrent :
    ∃ metadata, Accepts spacedNameTorrent metadata ∧ metadata.files = [⟨bytes "a b", 1, 0⟩] :=
  exists_accepts_of_files 40 (by decide +kernel)

/-- The target of a request for its file is `/a`, which is not in the index. -/
theorem resolvesToItself_fails : ¬ ∀ raw metadata, Accepts raw metadata →
    ∀ entry, IsEntry (buildIndex metadata.files) entry →
      ResolvesToItself (buildIndex metadata.files) entry := by
  intro h
  obtain ⟨metadata, haccepts, hfiles⟩ := accepts_spacedNameTorrent
  have hresolves := h _ _ haccepts
  rw [hfiles] at hresolves
  have hentry : IsEntry (buildIndex [⟨bytes "a b", 1, 0⟩]) ⟨bytes "/a b", 1, 0, 0, false⟩ :=
    Or.inl ⟨bytes "/a b", by decide +kernel⟩
  obtain ⟨line, hline, hfound⟩ := hresolves _ hentry []
  have hnothing : ((requestLineOf ((getRequest (webDavHref ⟨bytes "/a b", 1, 0, 0, false⟩) []).take
      receiveLimit)).bind (entryFor (buildIndex [⟨bytes "a b", 1, 0⟩]))) = none := by
    decide +kernel
  rw [hline, Option.bind_some, hfound] at hnothing
  exact absurd hnothing (by simp)

end Vtfs.Analysis
