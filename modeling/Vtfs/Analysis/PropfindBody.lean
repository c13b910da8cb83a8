import Vtfs.Interface.PropfindBody
import Mathlib.Data.List.Basic

/-!
# The entries in the body of a listing

An entry is written as markup (`appendPropResponse_eq`) of which only texts depend on its path and
its size, and these have no item that opens a tag; so the markup of a listing is that of its
entries, one after the other (`markupOf_listing`).
-/

set_option autoImplicit false

namespace Vtfs.Analysis

open Vtfs.Library
open Vtfs.Library.Markup (written tagged)
open Vtfs.Library.Decimal (numeral)
open Vtfs.Model
open Vtfs.Interface

/-- The escaping of the code is that of a table. -/
theorem xmlEscape_eq (text : Bytes) : xmlEscape text = xmlEntities.escape text := by
  unfold xmlEscape Markup.Entities.escape
  refine List.flatMap_congr fun c _ => ?_
  have hitem : ∀ n < 256, (if UInt8.ofNat n = byte '&' then bytes "&amp;"
      else if UInt8.ofNat n = byte '<' then bytes "&lt;"
      else if UInt8.ofNat n = byte '>' then bytes "&gt;"
      else if UInt8.ofNat n = byte '"' then bytes "&quot;"
      else if UInt8.ofNat n = 39 then bytes "&apos;"
      else [UInt8.ofNat n]) = xmlEntities.escapeItem (UInt8.ofNat n) := by decide +kernel
  have hc := hitem c.toNat c.toNat_lt
  rwa [UInt8.ofNat_toNat] at hc

/-- What was escaped is read back. -/
theorem unescape_xmlEscape (text : Bytes) : xmlEntities.unescape (xmlEscape text) = text := by
  rw [xmlEscape_eq, xmlEntities.unescape_escape]

/-- No markup character is left. -/
theorem lt_not_mem_xmlEscape (text : Bytes) : byte '<' ∉ xmlEscape text := by
  rw [xmlEscape_eq]
  exact xmlEntities.not_mem_escape (by decide) (by decide) text

/-- The address of an entry is its virtual path. -/
theorem webDavHref_eq (entry : FileEntry) : webDavHref entry = entry.virtualPath := by
  unfold webDavHref
  split
  · rename_i h
    exact h.symm
  · rfl

/-! ## The markup of a listing -/

/-- The markup that is written for an entry. -/
def entryMarkup (entry : FileEntry) : List (Bytes × Bytes) :=
  responseMarkup (xmlEscape (webDavHref entry)) entry.isDirectory (numberText entry.size)

/-- Text that follows is text of the last tag. -/
theorem written_snoc (parts : List (Bytes × Bytes)) (tag text : Bytes) :
    written (byte '<') (byte '>') (parts ++ [(tag, text)]) =
      written (byte '<') (byte '>') (parts ++ [(tag, [])]) ++ text := by
  simp [written, rooted]

/-- An entry is written as its markup. -/
theorem appendPropResponse_eq (xml : Bytes) (entry : FileEntry) :
    appendPropResponse xml entry =
      xml ++ written (byte '<') (byte '>') (entryMarkup entry) := by
  have hhref : bytes "<D:response><D:href>" =
      written (byte '<') (byte '>') ([(bytes "D:response", [])] ++ [(bytes "D:href", [])]) := by
    decide +kernel
  have htype : bytes "</D:href><D:propstat><D:prop><D:resourcetype>" =
      written (byte '<') (byte '>') [(bytes "/D:href", []), (bytes "D:propstat", []),
        (bytes "D:prop", []), (bytes "D:resourcetype", [])] := by
    decide +kernel
  have hcollection : (if entry.isDirectory then bytes "<D:collection/>" else []) =
      written (byte '<') (byte '>')
        (if entry.isDirectory then [(bytes "D:collection/", [])] else []) := by
    cases entry.isDirectory <;> decide +kernel
  have hsize : bytes "</D:resourcetype><D:getcontentlength>" =
      written (byte '<') (byte '>')
        ([(bytes "/D:resourcetype", [])] ++ [(bytes "D:getcontentlength", [])]) := by
    decide +kernel
  have hstatus :
      bytes "</D:getcontentlength></D:prop><D:status>HTTP/1.1 200 OK</D:status>" ++
        bytes "</D:propstat></D:response>" =
      written (byte '<') (byte '>') [(bytes "/D:getcontentlength", []), (bytes "/D:prop", []),
        (bytes "D:status", bytes "HTTP/1.1 200 OK"), (bytes "/D:status", []),
        (bytes "/D:propstat", []), (bytes "/D:response", [])] := by
    decide +kernel
  have hparts : entryMarkup entry =
      ([(bytes "D:response", [])] ++ [(bytes "D:href", xmlEscape (webDavHref entry))]) ++
      [(bytes "/D:href", []), (bytes "D:propstat", []), (bytes "D:prop", []),
        (bytes "D:resourcetype", [])] ++
      (if entry.isDirectory then [(bytes "D:collection/", [])] else []) ++
      ([(bytes "/D:resourcetype", [])] ++ [(bytes "D:getcontentlength", numberText entry.size)]) ++
      [(bytes "/D:getcontentlength", []), (bytes "/D:prop", []),
        (bytes "D:status", bytes "HTTP/1.1 200 OK"), (bytes "/D:status", []),
        (bytes "/D:propstat", []), (bytes "/D:response", [])] := by
    simp [entryMarkup, responseMarkup]
  rw [hparts, Markup.written_append, Markup.written_append, Markup.written_append,
    Markup.written_append, written_snoc _ (bytes "D:href"),
    written_snoc _ (bytes "D:getcontentlength"), ← hhref, ← htype, ← hcollection, ← hsize,
    ← hstatus, appendPropResponse]
  simp only [List.append_assoc]

/-- A listing is the markup of its entries. -/
theorem listing_eq (entries : List FileEntry) :
    listing entries = written (byte '<') (byte '>') (entries.flatMap entryMarkup) := by
  have hfold : ∀ xml, entries.foldl appendPropResponse xml =
      xml ++ written (byte '<') (byte '>') (entries.flatMap entryMarkup) := by
    induction entries with
    | nil => exact fun xml => (List.append_nil xml).symm
    | cons entry rest ih =>
        intro xml
        rw [List.foldl_cons, ih, appendPropResponse_eq, List.flatMap_cons, Markup.written_append,
          List.append_assoc]
  rw [listing, hfold, List.nil_append]

/-- Of the markup of an entry only texts depend on the path and the size, and no text opens a
tag. -/
theorem entryMarkup_free {entry : FileEntry} {part : Bytes × Bytes}
    (h : part ∈ entryMarkup entry) :
    byte '<' ∉ part.1 ∧ byte '>' ∉ part.1 ∧ byte '<' ∉ part.2 := by
  have hconstant : ∀ part ∈ responseMarkup [] entry.isDirectory [],
      byte '<' ∉ part.1 ∧ byte '>' ∉ part.1 ∧ byte '<' ∉ part.2 := by
    cases entry.isDirectory <;> decide +kernel
  have hcases : part ∈ responseMarkup [] entry.isDirectory [] ∨
      part = (bytes "D:href", xmlEscape (webDavHref entry)) ∨
      part = (bytes "D:getcontentlength", numberText entry.size) := by
    simp only [entryMarkup, responseMarkup, List.mem_append, List.mem_cons] at h ⊢
    grind
  have hnames : ∀ tag ∈ [bytes "D:href", bytes "D:getcontentlength"],
      byte '<' ∉ tag ∧ byte '>' ∉ tag := by decide
  rcases hcases with hpart | rfl | rfl
  · exact hconstant part hpart
  · obtain ⟨hopens, hcloses⟩ := hnames (bytes "D:href") (by simp)
    exact ⟨hopens, hcloses, lt_not_mem_xmlEscape _⟩
  · obtain ⟨hopens, hcloses⟩ := hnames (bytes "D:getcontentlength") (by simp)
    exact ⟨hopens, hcloses,
      Decimal.not_mem_of_all_isDigit (Decimal.numeral_all_isDigit _) (by decide)⟩

/-- **The markup of a listing** is that of its entries, one after the other. -/
theorem markupOf_listing (entries : List FileEntry) :
    markupOf (listing entries) = entries.flatMap entryMarkup := by
  rw [markupOf, listing_eq]
  refine Markup.tagged_written (by decide) fun part hpart => ?_
  obtain ⟨entry, -, hmem⟩ := List.mem_flatMap.mp hpart
  exact entryMarkup_free hmem

/-! ## What the markup determines -/

/-- Different numbers are written differently. -/
theorem numberText_injective : Function.Injective numberText := by
  intro n n' h
  have hvalue := congrArg Decimal.value h
  rw [numberText, numberText, Decimal.value_numeral, Decimal.value_numeral] at hvalue
  exact UInt64.toNat_inj.mp hvalue

/-- The markup of an entry ends where that of the next one begins, and shows the entry. -/
theorem entryMarkup_append_inj {entry entry' : FileEntry} {rest rest' : List (Bytes × Bytes)}
    (h : entryMarkup entry ++ rest = entryMarkup entry' ++ rest') :
    shown entry = shown entry' ∧ rest = rest' := by
  have hne : bytes "D:collection/" ≠ bytes "/D:resourcetype" := by decide
  unfold entryMarkup responseMarkup at h
  cases hd : entry.isDirectory <;> cases hd' : entry'.isDirectory <;>
    simp only [hd, hd', if_true, if_false, Bool.false_eq_true, List.append_nil, List.cons_append,
      List.nil_append, List.cons.injEq, Prod.mk.injEq, true_and, and_true, hne, hne.symm,
      false_and, and_false] at h
  all_goals
    obtain ⟨hhref, hsize, hrest⟩ := h
    rw [xmlEscape_eq, xmlEscape_eq] at hhref
    refine ⟨?_, hrest⟩
    rw [shown, shown, hd, hd', xmlEntities.escape_injective hhref, numberText_injective hsize]

/-- The same markup shows the same entries. -/
theorem flatMap_entryMarkup_inj {entries entries' : List FileEntry}
    (h : entries.flatMap entryMarkup = entries'.flatMap entryMarkup) :
    entries.map shown = entries'.map shown := by
  have hne : ∀ entry : FileEntry, entryMarkup entry ≠ [] := fun entry => by
    simp [entryMarkup, responseMarkup]
  induction entries generalizing entries' with
  | nil =>
      cases entries' with
      | nil => rfl
      | cons entry' rest' =>
          rw [List.flatMap_nil, List.flatMap_cons] at h
          exact absurd (List.append_eq_nil_iff.mp h.symm).1 (hne entry')
  | cons entry rest ih =>
      cases entries' with
      | nil =>
          rw [List.flatMap_nil, List.flatMap_cons] at h
          exact absurd (List.append_eq_nil_iff.mp h).1 (hne entry)
      | cons entry' rest' =>
          obtain ⟨hentry, hrest⟩ := entryMarkup_append_inj h
          rw [List.map_cons, List.map_cons, hentry, ih hrest]

/-- What is shown of an entry is all that its markup depends on. -/
theorem flatMap_entryMarkup_congr {entries entries' : List FileEntry}
    (h : entries.map shown = entries'.map shown) :
    entries.flatMap entryMarkup = entries'.flatMap entryMarkup := by
  have hshown : ∀ entries : List FileEntry, entries.flatMap entryMarkup =
      (entries.map shown).flatMap fun part =>
        responseMarkup (xmlEscape part.1) part.2.1 (numberText part.2.2) := fun entries => by
    rw [List.flatMap_map]
    rfl
  rw [hshown, hshown, h]

/-- The addresses in a listing are those of its entries. -/
theorem hrefs_listing (entries : List FileEntry) :
    hrefs (listing entries) = entries.map (·.virtualPath) := by
  have hentry : ∀ entry : FileEntry, ((entryMarkup entry).filter fun part =>
      part.1 = bytes "D:href") = [(bytes "D:href", xmlEscape (webDavHref entry))] := by
    intro entry
    unfold entryMarkup responseMarkup
    cases entry.isDirectory <;> rfl
  rw [hrefs, markupOf_listing]
  induction entries with
  | nil => rfl
  | cons entry rest ih =>
      rw [List.flatMap_cons, List.filter_append, List.map_append, ih, hentry, List.map_cons,
        List.map_cons, unescape_xmlEscape, webDavHref_eq]
      rfl

/-- The tags in a listing are those of its entries. -/
theorem tags_listing (entries : List FileEntry) :
    tags (listing entries) = entries.flatMap fun entry => responseTags entry.isDirectory := by
  rw [tags, markupOf_listing, List.map_flatMap]
  refine List.flatMap_congr fun entry _ => ?_
  unfold entryMarkup responseTags responseMarkup
  cases entry.isDirectory <;> rfl

/-- **The body of a listing determines its entries**: the addresses, the flags and the sizes, in
order.  The virtual paths are the texts of the `href` elements with the entities undone, and which
tags there are depends on the flags only.
SRCLINE: WebDavServer.cpp:70-83, WebDavServer.cpp:116-133, WebDavServer.cpp:335-344 -/
theorem listing_determines :
    (∀ entries entries', listing entries = listing entries' ↔
        entries.map shown = entries'.map shown) ∧
      (∀ entries, hrefs (listing entries) = entries.map (·.virtualPath)) ∧
      ∀ entries, tags (listing entries) =
        entries.flatMap fun entry => responseTags entry.isDirectory := by
  refine ⟨fun entries entries' => ⟨fun h => ?_, fun h => ?_⟩, hrefs_listing, tags_listing⟩
  · refine flatMap_entryMarkup_inj ?_
    rw [← markupOf_listing, h, markupOf_listing]
  · rw [listing_eq, flatMap_entryMarkup_congr h, ← listing_eq]

end Vtfs.Analysis
