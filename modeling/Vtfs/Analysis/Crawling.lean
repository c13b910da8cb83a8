import Vtfs.Interface.Crawling
import Vtfs.Analysis.Browsing
import Vtfs.Analysis.ChainedServers
import Vtfs.Analysis.IndexLookup

/-!
# A crawl finds the files

What a reader finds in the body of a listing are its entries (`readListing_multistatus`), and the
answer to the request for a directory of the index is its listing (`answer_directory`).  So a crawl
over the connections is the walk over the index (`crawl_eq_browse`), and it comes to the files that
the walk comes to.
-/

set_option autoImplicit false

namespace Vtfs.Analysis

open Vtfs.Library
open Vtfs.Library.Markup (written tagged)
open Vtfs.Library.PosixPath (slash)
open Vtfs.Model
open Vtfs.Interface

/-! ## Reading a listing -/

/-- The markup of an entry after the tag that begins it. -/
def entryParts (entry : FileEntry) : List (Bytes × Bytes) := (entryMarkup entry).tail

/-- The markup of an entry begins with its response element. -/
theorem entryMarkup_eq_cons (entry : FileEntry) :
    entryMarkup entry = (bytes "D:response", []) :: entryParts entry := rfl

/-- There is no response element inside of one. -/
theorem response_not_mem_entryParts (entry : FileEntry) :
    (bytes "D:response", []) ∉ entryParts entry := by
  have hne : bytes "D:response" ≠ bytes "D:href" ∧
      bytes "D:response" ≠ bytes "D:getcontentlength" := by decide
  have hconstant : ∀ isDirectory, (bytes "D:response", ([] : Bytes)) ∉
      (responseMarkup (bytes "x") isDirectory (bytes "x")).tail := by decide
  intro hmem
  refine hconstant entry.isDirectory ?_
  simp only [entryParts, entryMarkup, responseMarkup, List.cons_append, List.nil_append,
    List.tail_cons, List.mem_cons, List.mem_append, Prod.mk.injEq, hne.1, hne.2, false_and,
    false_or] at hmem ⊢
  exact hmem

/-- What a reader finds in the markup of an entry, whatever follows. -/
theorem readEntry_append (entry : FileEntry) (rest : List (Bytes × Bytes))
    (hrest : ∀ part ∈ rest, part.1 ≠ bytes "D:collection/") :
    readEntry (entryParts entry ++ rest) =
      (entry.virtualPath, entry.isDirectory, entry.size.toNat) := by
  have hhref : textAfter (bytes "D:href") (entryParts entry ++ rest) =
      xmlEscape (webDavHref entry) := rfl
  have hsize : textAfter (bytes "D:getcontentlength") (entryParts entry ++ rest) =
      numberText entry.size := by
    unfold entryParts entryMarkup responseMarkup
    cases entry.isDirectory <;> rfl
  have hnone : rest.any (fun part => part.1 = bytes "D:collection/") = false := by
    simpa using hrest
  have hcollection : (entryParts entry).any (fun part => part.1 = bytes "D:collection/") =
      entry.isDirectory := by
    unfold entryParts entryMarkup responseMarkup
    cases entry.isDirectory <;> rfl
  rw [readEntry, hhref, hsize, List.any_append, hnone, hcollection, Bool.or_false,
    unescape_xmlEscape, webDavHref_eq, numberText, Decimal.value_numeral]

/-- What is found of an entry. -/
def found (entry : FileEntry) : Bytes × Bool × ℕ :=
  (entry.virtualPath, entry.isDirectory, entry.size.toNat)

/-- The tag at the end of a body. -/
def closing : List (Bytes × Bytes) := [(bytes "/D:multistatus", [])]

/-- The markup of entries is cut where each of them begins. -/
theorem pieces_entries {front : List (Bytes × Bytes)} (h : (bytes "D:response", []) ∉ front)
    (entries : List FileEntry) :
    ∃ more groups, (∀ part ∈ more, part.1 ≠ bytes "D:collection/") ∧
      pieces (bytes "D:response", []) (front ++ entries.flatMap entryMarkup ++ closing) =
        (front ++ more) :: groups ∧ groups.map readEntry = entries.map found := by
  induction entries generalizing front with
  | nil =>
      have hclosing : ∀ part ∈ closing, part.1 ≠ bytes "D:collection/" ∧
          part ≠ (bytes "D:response", []) := by decide
      refine ⟨closing, [], fun part hpart => (hclosing part hpart).1, ?_, rfl⟩
      rw [List.flatMap_nil, List.append_nil]
      refine pieces_of_not_mem fun hmem => ?_
      rcases List.mem_append.mp hmem with hmem | hmem
      · exact h hmem
      · exact (hclosing _ hmem).2 rfl
  | cons entry rest ih =>
      obtain ⟨more, groups, hmore, hpieces, hgroups⟩ := ih (response_not_mem_entryParts entry)
      refine ⟨[], (entryParts entry ++ more) :: groups, by simp, ?_, ?_⟩
      · have htext : front ++ (entry :: rest).flatMap entryMarkup ++ closing =
            front ++ (bytes "D:response", []) ::
              (entryParts entry ++ rest.flatMap entryMarkup ++ closing) := by
          rw [List.flatMap_cons, entryMarkup_eq_cons]
          simp only [List.append_assoc, List.cons_append]
        rw [htext, pieces_append_sep h, hpieces, List.append_nil]
      · rw [List.map_cons, List.map_cons, hgroups, readEntry_append entry more hmore, found]

/-- **A listing is read back** entry by entry. -/
theorem readListing_multistatus (entries : List FileEntry) :
    readListing (multistatus entries) = entries.map found := by
  have hopening : bytes
      "<?xml version=\"1.0\" encoding=\"utf-8\"?><D:multistatus xmlns:D=\"DAV:\">" =
      written (byte '<') (byte '>') [(bytes "?xml version=\"1.0\" encoding=\"utf-8\"?", []),
        (bytes "D:multistatus xmlns:D=\"DAV:\"", [])] := rfl
  have hclosing : bytes "</D:multistatus>" = written (byte '<') (byte '>') closing :=
    rfl
  have hfree : ∀ part ∈ [(bytes "?xml version=\"1.0\" encoding=\"utf-8\"?", []),
      (bytes "D:multistatus xmlns:D=\"DAV:\"", [])] ++ closing,
        byte '<' ∉ part.1 ∧ byte '>' ∉ part.1 ∧ byte '<' ∉ part.2 := by decide
  have hmarkup : markupOf (multistatus entries) =
      [(bytes "?xml version=\"1.0\" encoding=\"utf-8\"?", []),
        (bytes "D:multistatus xmlns:D=\"DAV:\"", [])] ++ entries.flatMap entryMarkup ++
        closing := by
    rw [markupOf, multistatus, listing_eq, hopening, hclosing, ← Markup.written_append,
      ← Markup.written_append]
    refine Markup.tagged_written (by decide) fun part hpart => ?_
    simp only [List.mem_append, List.mem_flatMap] at hpart
    rcases hpart with (hpart | ⟨entry, -, hpart⟩) | hpart
    · exact hfree part (List.mem_append_left _ hpart)
    · exact entryMarkup_free hpart
    · exact hfree part (List.mem_append_right _ hpart)
  have hnot : (bytes "D:response", ([] : Bytes)) ∉
      [(bytes "?xml version=\"1.0\" encoding=\"utf-8\"?", []),
        (bytes "D:multistatus xmlns:D=\"DAV:\"", [])] := by decide
  obtain ⟨more, groups, -, hpieces, hgroups⟩ := pieces_entries hnot entries
  rw [readListing, hmarkup, hpieces, List.tail_cons, hgroups]

/-! ## Asking for a listing -/

/-- A request line of three words is read as these. -/
theorem parseRequestLine_words {method target version : Bytes} (hmethod : method ≠ [])
    (htarget : target ≠ []) (hversion : version ≠ [])
    (h : ∀ ch ∈ method ++ target ++ version, isSpace ch = false) :
    parseRequestLine (method ++ byte ' ' :: (target ++ byte ' ' :: version)) =
      ⟨method, target, version⟩ := by
  have hspace : isSpace (byte ' ') = true := by decide
  have hread : ∀ word rest, word ≠ [] → (∀ ch ∈ word, isSpace ch = false) →
      (∀ ch, rest.head? = some ch → isSpace ch = true) →
        readWord (word ++ rest) = (word, rest) := by
    intro word rest hne hword hrest
    have hafter := readWord_of_split hne hword hrest
    rwa [readWord, List.dropWhile_cons_of_pos hspace, ← readWord] at hafter
  have hfirst := hread method (byte ' ' :: (target ++ byte ' ' :: version)) hmethod
    (fun ch hch => h ch (by simp [hch])) (fun ch hch => by simp at hch; rw [← hch]; exact hspace)
  have hsecond : readWord (byte ' ' :: (target ++ byte ' ' :: version)) =
      (target, byte ' ' :: version) :=
    readWord_of_split htarget (fun ch hch => h ch (by simp [hch]))
      (fun ch hch => by simp at hch; rw [← hch]; exact hspace)
  have hthird : readWord (byte ' ' :: (version ++ [])) = (version, []) :=
    readWord_of_split hversion (fun ch hch => h ch (by simp [hch])) (by simp)
  rw [List.append_nil] at hthird
  rw [parseRequestLine, hfirst]
  simp only [hsecond, hthird]

/-- The server reads the path that the client spelled. -/
theorem urlDecode_of_spells {c : Crawler} {path : Bytes} (h : c.Spells path) (hne : path ≠ []) :
    urlDecode (c.spell path) = path := by
  obtain ⟨plain, hpercent, hplus, hencodes⟩ := h.encoded
  rw [urlDecode, urlDecodeLoop_of_encodes hpercent hplus hencodes]
  exact if_neg hne

/-- No path is spelled as nothing. -/
theorem spell_ne_nil {c : Crawler} {path : Bytes} (h : c.Spells path) (hne : path ≠ []) :
    c.spell path ≠ [] := by
  obtain ⟨plain, -, -, hencodes⟩ := h.encoded
  intro hnil
  rw [hnil] at hencodes
  cases hencodes
  exact hne rfl

/-- What the server takes from the request of a crawler. -/
theorem parseRequest_crawler {c : Crawler} {path : Bytes} (h : c.Spells path) (hne : path ≠ []) :
    parseRequest (c.request path) = some ⟨⟨bytes "PROPFIND", c.spell path, bytes "HTTP/1.1"⟩,
      c.headerLines.foldl addHeader fun _ => none⟩ := by
  have hfixed : (∀ ch ∈ bytes "PROPFIND", isSpace ch = false) ∧
      ∀ ch ∈ bytes "HTTP/1.1", isSpace ch = false := by decide +kernel
  have hspace : ∀ ch ∈ bytes "PROPFIND" ++ c.spell path ++ bytes "HTTP/1.1",
      isSpace ch = false := by
    intro ch hch
    simp only [List.mem_append] at hch
    rcases hch with (hch | hch) | hch
    · exact hfixed.1 ch hch
    · exact h.no_space ch hch
    · exact hfixed.2 ch hch
  have hfront : bytes "PROPFIND " = bytes "PROPFIND" ++ [byte ' '] := rfl
  have hback : bytes " HTTP/1.1" = byte ' ' :: bytes "HTTP/1.1" := rfl
  have hline : bytes "PROPFIND " ++ c.spell path ++ bytes " HTTP/1.1" =
      bytes "PROPFIND" ++ byte ' ' :: (c.spell path ++ byte ' ' :: bytes "HTTP/1.1") := by
    rw [hfront, hback]
    simp only [List.append_assoc, List.cons_append, List.nil_append]
  have hcomplete : CompleteRequest (c.request path)
      (bytes "PROPFIND " ++ c.spell path ++ bytes " HTTP/1.1") c.headerLines := by
    refine ⟨rfl, ?_, c.lines, h.fits⟩
    rintro ⟨front, rest, htext⟩
    have hmem : byte '\r' ∈ front ++ crlf ++ rest := by simp [crlf, bytes, byte]
    have hother : byte '\r' ∉ bytes "PROPFIND " ∧ byte '\r' ∉ bytes " HTTP/1.1" := by decide
    rw [htext] at hmem
    simp only [List.mem_append, hother.1, hother.2, false_or, or_false] at hmem
    exact absurd (h.no_space _ hmem) (by decide)
  have hparse := parseRequest_of_prefix hcomplete List.prefix_rfl
  rw [hparse, Crawler.request, List.append_assoc, List.drop_left' (by rfl), linesWithin_withEnds]
  rw [if_pos (by rw [← List.append_assoc]; exact List.prefix_append _ _), hline,
    parseRequestLine_words (by decide) (spell_ne_nil h hne) (by decide) hspace]

section Crawl

variable {server : Upstream} {c : Crawler} {files : List TorrentFileRecord}

/-- The answer to a crawler is the listing of the directory it asks for, with its children. -/
theorem answer_directory (hindex : server.index = buildIndex files)
    (hsends : server.surroundings.sendAll 0 = true) {d : Bytes}
    (hseen : d ∈ (buildIndex files).seenDirectories)
    (hkept : (buildIndex files).entries d = some (dirEntry d)) (hspells : c.Spells d) :
    ∃ response, server.answer (c.request d) = some response ∧
      response.body = multistatus (dirEntry d :: listDirectory (buildIndex files) d) := by
  have hnormal := normalizePath_of_seen hseen
  have hne : d ≠ [] := by
    rw [← hnormal, (normalizePath_normalized d).eq_cons]
    simp
  set request : Request := ⟨⟨bytes "PROPFIND", c.spell d, bytes "HTTP/1.1"⟩,
    c.headerLines.foldl addHeader fun _ => none⟩ with hrequest
  have hreceived : receiveRequest [c.request d] = some request := by
    have hnonempty : c.request d ≠ [] := by simp [Crawler.request, bytes]
    rw [receiveRequest, if_neg hnonempty, List.take_of_length_le hspells.fits,
      parseRequest_crawler hspells hne]
  have hentry : entryFor server.index request.line = some (dirEntry d) := by
    rw [hindex, entryFor, hrequest, urlDecode_of_spells hspells hne, lookup, hnormal, hkept]
  have hresponse : serveConnection server.surroundings server.cacheDirectory server.index
      [c.request d] server.fuel =
        some [propfindResponse server.index (dirEntry d) request.headers] := by
    have hmethod : request.line.method = bytes "PROPFIND" := rfl
    have hoptions : request.line.method ≠ bytes "OPTIONS" := by rw [hmethod]; decide
    rw [serveConnection, hreceived]
    simp only
    rw [respond, if_neg hoptions, hentry]
    simp only [hmethod, hsends, if_true]
  have hlisted : listedFor server.index request (dirEntry d) =
      dirEntry d :: listDirectory (buildIndex files) d := by
    have hdepth : request.headers (bytes "depth") = some c.depth :=
      (addHeaders_eq_some_iff _ _ _).mpr c.asks.1
    have hdirectory : (dirEntry d).isDirectory = true := rfl
    rw [listedFor, hdepth, Option.getD_some, if_pos ⟨hdirectory, c.asks.2⟩, hindex]
    rfl
  obtain ⟨response, hread, -, -, hbody⟩ := exists_responseOf (announces_multistatus _)
    (multistatus (listedFor server.index request (dirEntry d)))
  refine ⟨response, ?_, by rw [hbody, hlisted]⟩
  rw [Upstream.answer, hresponse, Option.bind_some, List.flatten_singleton, propfindResponse_eq]
  exact hread

/-- A list is mapped as its elements are. -/
theorem mapM_map_eq {α β γ δ : Type} {f : β → Option δ} {g : α → Option γ} (h : α → β)
    (k : γ → δ) {l : List α} (heq : ∀ a ∈ l, f (h a) = (g a).map k) :
    (l.map h).mapM f = (l.mapM g).map (List.map k) := by
  induction l with
  | nil => rfl
  | cons a l ih =>
      rw [List.map_cons, List.mapM_cons, List.mapM_cons, heq a List.mem_cons_self,
        ih fun b hb => heq b (List.mem_cons_of_mem a hb)]
      cases g a with
      | none => rfl
      | some c => cases l.mapM g <;> rfl

/-- What a crawl finds of a file that the walk visits. -/
def foundFile (entry : FileEntry) : Bytes × ℕ := (entry.virtualPath, entry.size.toNat)

/-- **The crawl is the walk**: over connections a client comes to what the index lists. -/
theorem crawl_eq_browse (hindex : server.index = buildIndex files)
    (hsends : server.surroundings.sendAll 0 = true)
    (hkept : ∀ d ∈ (buildIndex files).seenDirectories,
      (buildIndex files).entries d = some (dirEntry d))
    (hspells : ∀ d ∈ (buildIndex files).seenDirectories, c.Spells d) (depth : ℕ) {d : Bytes}
    (hseen : d ∈ (buildIndex files).seenDirectories) :
    crawl server c depth d = (browse (buildIndex files) depth d).map (List.map foundFile) := by
  induction depth generalizing d with
  | zero => rfl
  | succ depth ih =>
      obtain ⟨response, hanswer, hbody⟩ :=
        answer_directory hindex hsends hseen (hkept d hseen) (hspells d hseen)
      have hentries : ∀ entry ∈ listDirectory (buildIndex files) d,
          (if (found entry).2.1 then crawl server c depth (found entry).1
            else some [((found entry).1, (found entry).2.2)]) =
          (if entry.isDirectory then browse (buildIndex files) depth entry.virtualPath
            else some [entry]).map (List.map foundFile) := by
        intro entry hentry
        rw [found]
        by_cases hdirectory : entry.isDirectory = true
        · rw [if_pos hdirectory, if_pos hdirectory]
          obtain ⟨child, hchild, -, -, rfl⟩ := seen_of_mem_children hentry hdirectory
          exact ih hchild
        · rw [if_neg hdirectory, if_neg hdirectory]
          rfl
      have hrun := mapM_map_eq (f := fun entry : Bytes × Bool × ℕ =>
        if entry.2.1 then crawl server c depth entry.1 else some [(entry.1, entry.2.2)])
        found (List.map foundFile) hentries
      rw [crawl, hanswer, browse]
      simp only [Option.bind_eq_bind, Option.bind_some, hbody, readListing_multistatus,
        List.map_cons, List.tail_cons, hrun]
      cases (listDirectory (buildIndex files) d).mapM fun entry =>
          if entry.isDirectory then browse (buildIndex files) depth entry.virtualPath
          else some [entry] with
      | none => rfl
      | some visited => simp

/-- **A crawl finds the files.**  Where no file has replaced a directory in the index and every
directory can be spelled in a request, the crawl from the root ends, and finds each file whose
directory is spelled the one way exactly once, with its path and its size, and nothing else.
SRCLINE: TorrentSession.cpp:58-74, TorrentSession.cpp:164-220, WebDavServer.cpp:98-133,
WebDavServer.cpp:276-354 -/
theorem crawl_finds (hindex : server.index = buildIndex files)
    (hsends : server.surroundings.sendAll 0 = true)
    (hkept : ∀ d ∈ (buildIndex files).seenDirectories,
      (buildIndex files).entries d = some (dirEntry d))
    (hspells : ∀ d ∈ (buildIndex files).seenDirectories, c.Spells d) :
    ∃ depth found, crawl server c depth [slash] = some found ∧
      found.Perm ((files.filter fun record =>
        CanonicalDirectory (parentPathOf (normalizePath record.relativePath))).map fun record =>
          (normalizePath record.relativePath, record.size.toNat)) := by
  obtain ⟨depth, visited, hvisited, hperm⟩ := browse_root files
  have hcrawl := crawl_eq_browse hindex hsends hkept hspells depth (@root_mem_seen files)
  rw [hvisited] at hcrawl
  refine ⟨depth, _, hcrawl, (hperm.map foundFile).trans (List.Perm.of_eq ?_)⟩
  have hcanonical : files.zipIdx.filter (fun e =>
      parentPathOf (pathOf e) ∈ (buildIndex files).seenDirectories) =
      files.zipIdx.filter fun e => CanonicalDirectory (parentPathOf (pathOf e)) :=
    List.filter_congr fun e he => decide_eq_decide.mpr (parentPathOf_seen_iff files he)
  have hrecords : (files.filter fun record =>
      CanonicalDirectory (parentPathOf (normalizePath record.relativePath))) =
      (files.zipIdx.filter fun e => CanonicalDirectory (parentPathOf (pathOf e))).map Prod.fst := by
    conv_lhs => rw [← List.zipIdx_map_fst 0 files]
    rw [List.filter_map]
    rfl
  rw [hcanonical, hrecords, List.map_map, List.map_map]
  rfl

end Crawl

/-! ## A client that spells paths as they are -/

/-- The client that puts addresses into its requests as it reads them. -/
def plainCrawler : Crawler where
  spell path := path
  headerLines := [bytes "Depth: 1"]
  depth := bytes "1"
  lines := by decide
  asks := ⟨⟨[], _, [], rfl, rfl, by simp⟩, by decide⟩

/-- A path of plain characters is spelled as it is. -/
theorem spells_of_plain {path : Bytes} (hpercent : byte '%' ∉ path) (hplus : byte '+' ∉ path)
    (hspace : ∀ ch ∈ path, isSpace ch = false)
    (hfits : (plainCrawler.request path).length ≤ receiveLimit) : plainCrawler.Spells path where
  encoded := by
    refine ⟨fun ch => ch ≠ byte '%' ∧ ch ≠ byte '+', fun h => h.1 rfl, fun h => h.2 rfl,
      .self fun ch hch => ⟨?_, ?_⟩⟩
    · rintro rfl
      exact hpercent hch
    · rintro rfl
      exact hplus hch
  no_space := hspace
  fits := hfits

/-- A crawl of a server with one file. -/
theorem crawl_finds_threeBytes :
    ∃ depth found, crawl threeByteServer plainCrawler depth [slash] = some found ∧
      found.Perm [(bytes "/a/x", 3)] := by
  have hplain : ∀ d ∈ (buildIndex [⟨bytes "a/x", 3, 0⟩]).seenDirectories,
      byte '%' ∉ d ∧ byte '+' ∉ d ∧ (∀ ch ∈ d, isSpace ch = false) ∧
        (plainCrawler.request d).length ≤ receiveLimit := by decide +kernel
  have hfinds := @crawl_finds threeByteServer plainCrawler [⟨bytes "a/x", 3, 0⟩] rfl rfl
    (by decide) fun d hd =>
      spells_of_plain (hplain d hd).1 (hplain d hd).2.1 (hplain d hd).2.2.1 (hplain d hd).2.2.2
  have hfiles : (([⟨bytes "a/x", 3, 0⟩] : List TorrentFileRecord).filter fun record =>
      CanonicalDirectory (parentPathOf (normalizePath record.relativePath))).map (fun record =>
        (normalizePath record.relativePath, record.size.toNat)) = [(bytes "/a/x", 3)] :=
    rfl
  rwa [hfiles] at hfinds

end Vtfs.Analysis
