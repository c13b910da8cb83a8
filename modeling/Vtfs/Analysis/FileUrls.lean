import Vtfs.Interface.FileUrls

/-!
# The address of a file on the web seed

An address is a scheme, a host with a port, and a path from the first slash on
(`parseHttpUrl_of_path`, `parseHttpUrl_of_host`).  What the client appends to the address of the
web seed comes after that slash, so it changes the path only, and it is an encoding of the path of
the file (`encodes_percentEncodePath`).
-/

set_option autoImplicit false

namespace Vtfs.Analysis

open Vtfs.Library
open Vtfs.Library.PosixPath (slash)
open Vtfs.Library.PercentEncoding (Encodes hexValue percent)
open Vtfs.Model
open Vtfs.Interface

/-! ## The encoding -/

/-- A character that need not be encoded may be in a path. -/
theorem isPathCharacter_of_isUnreserved {c : UInt8} (h : isUnreserved c = true) :
    IsPathCharacter c := by
  have hall : ∀ n < 256, isUnreserved (UInt8.ofNat n) = true → IsPathCharacter (UInt8.ofNat n) := by
    decide +kernel
  have hc := hall c.toNat c.toNat_lt
  rw [UInt8.ofNat_toNat] at hc
  exact hc h

/-- A byte that does not stand for itself is written with its two digits. -/
theorem hexValue_upperHexDigit (c : UInt8) :
    ∃ a b : UInt8, hexValue (upperHexDigit (c >>> 4 &&& 0xF)) = some a ∧
      hexValue (upperHexDigit (c &&& 0xF)) = some b ∧ 16 * a + b = c := by
  have hall : ∀ n < 256, hexValue (upperHexDigit (UInt8.ofNat n >>> 4 &&& 0xF)) =
      some (UInt8.ofNat n >>> 4) ∧ hexValue (upperHexDigit (UInt8.ofNat n &&& 0xF)) =
      some (UInt8.ofNat n &&& 0xF) ∧
      (16 : UInt8) * (UInt8.ofNat n >>> 4) + (UInt8.ofNat n &&& 0xF) = UInt8.ofNat n := by
    decide +kernel
  have hc := hall c.toNat c.toNat_lt
  rw [UInt8.ofNat_toNat] at hc
  exact ⟨_, _, hc⟩

/-- What is written for a path encodes it. -/
theorem encodes_percentEncodePath (text : Bytes) :
    Encodes IsPathCharacter (percentEncodePath text) text := by
  induction text with
  | nil => exact .nil
  | cons c cs ih =>
      rw [percentEncodePath, List.flatMap_cons]
      by_cases hc : isUnreserved c = true
      · rw [if_pos hc]
        exact .plain (isPathCharacter_of_isUnreserved hc) ih
      · obtain ⟨a, b, hhigh, hlow, heq⟩ := hexValue_upperHexDigit c
        have hescaped : Encodes IsPathCharacter _ _ := .escaped hhigh hlow ih
        rw [if_neg hc]
        rwa [heq] at hescaped

/-- The characters that end a path or a request line are none of an encoding. -/
theorem reserved_not_mem {text data : Bytes} (h : Encodes IsPathCharacter text data) {c : UInt8}
    (hc : c ∈ bytes " \r\n?#") : c ∉ text := by
  have hnone : (bytes " \r\n?#").all
      (fun c => ¬ IsPathCharacter c ∧ c ≠ percent ∧ hexValue c = none) = true := by decide
  obtain ⟨hplain, hpercent, hdigit⟩ := of_decide_eq_true (List.all_eq_true.mp hnone c hc)
  intro hmem
  rcases h.mem_cases hmem with hpath | rfl | ⟨a, ha⟩
  · exact hplain hpath
  · exact hpercent rfl
  · rw [hdigit] at ha
    cases ha

/-! ## Addresses -/

/-- The scheme of an address. -/
def scheme : Bytes := bytes "http://"

/-- Only the path depends on what comes after the first slash. -/
theorem parseHttpUrl_append {hostPort : Bytes} (h : slash ∉ hostPort) {path : Bytes}
    (hpath : path.head? = some slash) :
    parseHttpUrl (scheme ++ (hostPort ++ path)) =
      { parseHttpUrl (scheme ++ hostPort) with path } := by
  obtain ⟨more, rfl⟩ : ∃ more, path = slash :: more := by
    cases path with
    | nil => cases hpath
    | cons c cs => exact ⟨cs, by rw [Option.some.inj hpath]⟩
  have hbegins : scheme <+: scheme ++ (hostPort ++ slash :: more) := List.prefix_append _ _
  have hbegins' : scheme <+: scheme ++ hostPort := List.prefix_append _ _
  have hmem : slash ∈ hostPort ++ slash :: more := by simp
  unfold parseHttpUrl
  rw [← scheme]
  simp only [not_true_eq_false, if_false, hbegins, hbegins', List.drop_left,
    upTo_append h, upTo_eq_self h, if_pos hmem, if_neg h]
  split <;> rfl

/-- An address that is a host has the root as its path. -/
theorem parseHttpUrl_path_of_host {hostPort : Bytes} (h : slash ∉ hostPort) :
    (parseHttpUrl (scheme ++ hostPort)).path = [slash] := by
  have hbegins : scheme <+: scheme ++ hostPort := List.prefix_append _ _
  unfold parseHttpUrl
  rw [← scheme]
  simp only [not_true_eq_false, if_false, hbegins, List.drop_left, if_neg h]
  split <;> rfl

/-- An address that is valid has the scheme, a host that is not empty, and nothing after it or a
path. -/
theorem exists_hostPort {url : Bytes} (h : (parseHttpUrl url).valid = true) :
    ∃ hostPort path, url = scheme ++ (hostPort ++ path) ∧ slash ∉ hostPort ∧ hostPort ≠ [] ∧
      (path = [] ∨ path.head? = some slash) := by
  by_cases hbegins : scheme <+: url
  swap
  · rw [parseHttpUrl, ← scheme, if_pos hbegins] at h
    cases h
  obtain ⟨rest, rfl⟩ := hbegins
  have hhost : ∀ hostPort path, rest = hostPort ++ path → slash ∉ hostPort →
      (path = [] ∨ path.head? = some slash) → hostPort ≠ [] := by
    rintro hostPort path rfl hslash hpath rfl
    have hnone : (parseHttpUrl (scheme ++ [])).valid = false := by decide
    rcases hpath with rfl | hpath
    · rw [List.append_nil, hnone] at h
      cases h
    · rw [parseHttpUrl_append hslash hpath, hnone] at h
      cases h
  by_cases hslash : slash ∈ rest
  · obtain ⟨more, hmore⟩ := exists_upTo_append hslash
    have hnot := stop_not_mem_upTo slash rest
    exact ⟨_, slash :: more, by rw [← hmore], hnot, hhost _ _ hmore hnot (Or.inr rfl), Or.inr rfl⟩
  · have hself : rest = rest ++ [] := (List.append_nil rest).symm
    exact ⟨rest, [], by rw [← hself], hslash, hhost _ _ hself hslash (Or.inl rfl), Or.inl rfl⟩

/-! ## The address of a file -/

/-- A slash at the end leaves the one at the beginning. -/
theorem endedBySlash_head? {path : Bytes} (h : path.head? = some slash) :
    (endedBySlash path).head? = some slash := by
  unfold endedBySlash
  split
  · exact h
  · rw [List.head?_append, h]
    rfl

/-- What the address of a file begins with: that of the web seed with a slash at its end. -/
theorem endedBySlash_append {front path : Bytes} (h : path ≠ []) :
    endedBySlash (front ++ path) = front ++ endedBySlash path := by
  have hlast : (front ++ path).getLast? = path.getLast? := List.getLast?_append_of_ne_nil _ h
  unfold endedBySlash
  rw [hlast]
  split
  · rfl
  · rw [List.append_assoc]

/-- The address of a file is the base, ended by a slash, and the encoded path. -/
theorem buildFileUrl_eq {c : WebSeedClient} (hbase : c.baseUrl ≠ []) {virtualPath : Bytes}
    (hpath : virtualPath.head? = some slash) :
    c.buildFileUrl virtualPath =
      some (endedBySlash c.baseUrl ++ percentEncodePath virtualPath.tail) := by
  have henabled : c.enabled = true := by simpa [WebSeedClient.enabled] using hbase
  unfold WebSeedClient.buildFileUrl endedBySlash
  by_cases hlast : c.baseUrl.getLast? = some slash
  · simp [henabled, hpath, hlast]
  · simp [henabled, hpath, hlast]

section Base

variable {c : WebSeedClient}

/-- The address of a file has the parts of that of the web seed, with a longer path. -/
theorem parseHttpUrl_fileUrl (hvalid : (parseHttpUrl c.baseUrl).valid = true) (tail : Bytes) :
    parseHttpUrl (endedBySlash c.baseUrl ++ tail) =
      { parseHttpUrl c.baseUrl with
        path := endedBySlash (parseHttpUrl c.baseUrl).path ++ tail } := by
  obtain ⟨hostPort, path, hurl, hslash, hne, hpath⟩ := exists_hostPort hvalid
  rcases hpath with rfl | hpath
  · -- the address of the web seed ends with the host
    rw [List.append_nil] at hurl
    have hlast : c.baseUrl.getLast? ≠ some slash := by
      rw [hurl, List.getLast?_append_of_ne_nil _ hne]
      exact fun hlast => hslash (List.mem_of_getLast? hlast)
    have hended : endedBySlash c.baseUrl = scheme ++ (hostPort ++ [slash]) := by
      rw [endedBySlash, if_neg hlast, hurl, List.append_assoc]
    have hroot : endedBySlash [slash] = [slash] := rfl
    rw [hended, hurl, parseHttpUrl_path_of_host hslash, hroot, List.append_assoc,
      List.append_assoc, parseHttpUrl_append hslash rfl]
  · have hpathne : path ≠ [] := by
      rintro rfl
      cases hpath
    have hhead : (endedBySlash path ++ tail).head? = some slash := by
      rw [List.head?_append, endedBySlash_head? hpath]
      rfl
    rw [hurl, endedBySlash_append (by simp [hne]), endedBySlash_append hpathne, List.append_assoc,
      List.append_assoc, parseHttpUrl_append hslash hhead, parseHttpUrl_append hslash hpath]

/-- **The address of a file.**  For a web seed with a valid address, the address of a file has the
same host and port, its path is an encoding of the path of the file after the path of the web
seed, and two files have two addresses.
SRCLINE: WebSeedClient.cpp:34-72, WebSeedClient.cpp:147-163 -/
theorem buildFileUrl_addressesFile (hvalid : (parseHttpUrl c.baseUrl).valid = true) :
    (∀ virtualPath : Bytes, virtualPath.head? = some slash →
      ∃ url, AddressesFile c virtualPath url) ∧
    ∀ virtualPath virtualPath' : Bytes, virtualPath.head? = some slash →
      virtualPath'.head? = some slash →
        c.buildFileUrl virtualPath = c.buildFileUrl virtualPath' → virtualPath = virtualPath' := by
  have hbase : c.baseUrl ≠ [] := by
    intro hnil
    rw [hnil] at hvalid
    exact absurd hvalid (by decide)
  refine ⟨fun virtualPath hpath => ?_, fun virtualPath virtualPath' hpath hpath' heq => ?_⟩
  · have hencodes := encodes_percentEncodePath virtualPath.tail
    have hparts := parseHttpUrl_fileUrl hvalid (percentEncodePath virtualPath.tail)
    refine ⟨_, buildFileUrl_eq hbase hpath, ?_, ?_, ?_, _, ?_, hencodes,
      fun ch hch => reserved_not_mem hencodes hch⟩
    · rw [hparts]
      exact hvalid
    · rw [hparts]
    · rw [hparts]
    · rw [hparts]
  · rw [buildFileUrl_eq hbase hpath, buildFileUrl_eq hbase hpath'] at heq
    have hsame := List.append_cancel_left (Option.some.inj heq)
    have hencodes := encodes_percentEncodePath virtualPath.tail
    rw [hsame] at hencodes
    have htail := hencodes.unique (by decide) (encodes_percentEncodePath virtualPath'.tail)
    calc virtualPath = slash :: virtualPath.tail := (List.cons_head?_tail hpath).symm
      _ = slash :: virtualPath'.tail := by rw [htail]
      _ = virtualPath' := List.cons_head?_tail hpath'

/-- A file with a space in its name, on a web seed with a path. -/
theorem buildFileUrl_addressesFile_space :
    ∃ url, AddressesFile ⟨bytes "http://h:80/s"⟩ (bytes "/a b") url :=
  (buildFileUrl_addressesFile (by decide)).1 (bytes "/a b") rfl

end Base

end Vtfs.Analysis
