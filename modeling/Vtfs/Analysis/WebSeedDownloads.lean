import Vtfs.Interface.HttpResponse
import Vtfs.Model.TorrentSession

/-!
# What a web seed download publishes

The receive loop does not depend on how the bytes received are cut into chunks, nor on how the
connection ends (`receiveLoop_eq`): once the header is there, with the text 200 in its status
line, whatever came after it is published.
-/

set_option autoImplicit false

namespace Vtfs.Analysis

open Vtfs.Library
open Vtfs.Model
open Vtfs.Interface

/-! ## The status line -/

/-- A line end that follows a text is found, when the text has none. -/
theorem cutAt_crlf_append {text : Bytes} (h : cutAt crlf text = none) (rest : Bytes) :
    cutAt crlf (text ++ crlf ++ rest) = some (text, rest) :=
  cutAt_pair_append (a := 13) (b := 10) (by decide) h rest

/-- The first line of a header with what follows it is the first line of the header. -/
theorem cutAt_crlf_of_header {text header body : Bytes}
    (h : cutAt endOfHeader text = some (header, body)) :
    ∃ rest, cutAt crlf text = some (firstLine header, rest) := by
  have htext : text = header ++ crlf ++ (crlf ++ body) := by
    have hend : endOfHeader = crlf ++ crlf := by decide
    rw [eq_of_cutAt h, hend]
    simp only [List.append_assoc]
  unfold firstLine
  cases hline : cutAt crlf header with
  | none => exact ⟨crlf ++ body, by rw [htext, cutAt_crlf_append hline]⟩
  | some cut =>
      obtain ⟨line, after⟩ := cut
      refine ⟨after ++ (crlf ++ (crlf ++ body)), ?_⟩
      rw [htext, List.append_assoc, cutAt_append (by decide) hline]

/-! ## The receive loop -/

/-- Behind the header all that is received is written. -/
theorem receiveLoop_parsed (ending : Ending) (headerBuffer out : Bytes) (chunks : List Bytes) :
    receiveLoop ending ⟨headerBuffer, true, out⟩ chunks = (true, out ++ chunks.flatten) := by
  induction chunks generalizing out with
  | nil => cases ending <;> simp [receiveLoop]
  | cons chunk rest ih => simp [receiveLoop, ih]

/-- What the loop gives for the bytes received: nothing before the header is there or when its
status line has no 200, and else the bytes after the header. -/
def receivedFile (bytesReceived : Bytes) : Bool × Bytes :=
  match responseOf bytesReceived with
  | none => (false, [])
  | some response =>
      if bytes "200" <:+: response.statusLine then (true, response.body) else (false, [])

/-- **The receive loop** depends on the bytes received only: neither on their chunks nor on the
way the connection ends.
SRCLINE: WebSeedClient.cpp:204-232 -/
theorem receiveLoop_eq (ending : Ending) (headerBuffer : Bytes) (chunks : List Bytes)
    (h : cutAt endOfHeader headerBuffer = none) :
    receiveLoop ending ⟨headerBuffer, false, []⟩ chunks =
      receivedFile (headerBuffer ++ chunks.flatten) := by
  induction chunks generalizing headerBuffer with
  | nil =>
      have hnone : receivedFile (headerBuffer ++ [].flatten) = (false, []) := by
        simp [receivedFile, responseOf, h]
      rw [hnone]
      cases ending <;> rfl
  | cons chunk rest ih =>
      have hflatten : headerBuffer ++ (chunk :: rest).flatten =
          headerBuffer ++ chunk ++ rest.flatten := by simp
      rw [hflatten, receiveLoop]
      cases hcut : cutAt endOfHeader (headerBuffer ++ chunk) with
      | none => simpa [hcut] using ih (headerBuffer ++ chunk) hcut
      | some cut =>
          obtain ⟨header, body⟩ := cut
          obtain ⟨after, hline⟩ := cutAt_crlf_of_header hcut
          have hresponse : responseOf (headerBuffer ++ chunk ++ rest.flatten) =
              some ⟨header, body ++ rest.flatten⟩ := by
            rw [responseOf, cutAt_append (by decide) hcut]
            rfl
          simp only [Bool.false_eq_true, not_false_eq_true, if_true, hcut, hline]
          by_cases hstatus : bytes "200" <:+: firstLine header
          · have hfile : receivedFile (headerBuffer ++ chunk ++ rest.flatten) =
                (true, body ++ rest.flatten) := by
              simp only [receivedFile, hresponse]
              exact if_pos hstatus
            rw [if_neg (not_not.mpr hstatus), receiveLoop_parsed, hfile, List.nil_append]
          · have hfile : receivedFile (headerBuffer ++ chunk ++ rest.flatten) = (false, []) := by
              simp only [receivedFile, hresponse]
              exact if_neg hstatus
            rw [if_pos hstatus, hfile]

/-- The loop is the cut of all that was received. -/
theorem receiveLoop_start (delivery : Delivery) :
    receiveLoop delivery.ending ⟨[], false, []⟩ delivery.chunks =
      receivedFile (received delivery) :=
  receiveLoop_eq delivery.ending [] delivery.chunks (by decide)

/-- A file was received when the status line of the answer has 200 in it. -/
theorem receivedFile_eq_true_iff {bytesReceived : Bytes} :
    (receivedFile bytesReceived).1 = true ↔ ∃ response, responseOf bytesReceived = some response ∧
      bytes "200" <:+: response.statusLine ∧ (receivedFile bytesReceived).2 = response.body := by
  unfold receivedFile
  cases responseOf bytesReceived with
  | none => simp
  | some response =>
      by_cases hstatus : bytes "200" <:+: response.statusLine <;> simp [hstatus]

/-! ## The download -/

section Download

variable (c : WebSeedClient) (network : Network) (fs : FileSystem) (disk : Disk)
  (virtualPath destination : Bytes)

/-- The part file is not the payload file. -/
theorem partPathFor_ne : destination ≠ partPathFor destination := by
  intro h
  have hlength := congrArg List.length h
  simp [partPathFor, bytes] at hlength

/-- A removal leaves other files. -/
theorem removeFile_of_ne (removes : Bool) {path other : Bytes} (h : other ≠ path) :
    removeFile removes disk path other = disk other := by
  cases removes <;> simp [removeFile, h]

/-- A removal that succeeds leaves nothing. -/
theorem removeFile_self (removes : Bool) (path : Bytes) :
    removeFile removes disk path path = if removes then none else disk path := by
  cases removes <;> simp [removeFile]

/-- Renaming brings the source to the target. -/
theorem renameFile_target {source target : Bytes} (h : target ≠ source) :
    renameFile disk source target target = disk source := by
  simp [renameFile, h]

/-- The end of a download: the destination holds what was written when the loop was `ok` and a
rename succeeds, and else it is as it was or absent. -/
theorem publish_cases (ok : Bool) (out : Bytes) :
    ((ok = true ∧ (fs.renames = true ∨ fs.renamesAgain = true)) ∧
      (publish fs disk destination ok out).1 = true ∧
      (publish fs disk destination ok out).2 destination = some out) ∨
    (¬ (ok = true ∧ (fs.renames = true ∨ fs.renamesAgain = true)) ∧
      (publish fs disk destination ok out).1 = false ∧
      ((publish fs disk destination ok out).2 destination = disk destination ∨
        (publish fs disk destination ok out).2 destination = none)) := by
  have hpart := partPathFor_ne destination
  have hwritten : Function.update disk (partPathFor destination) (some out) destination =
      disk destination := Function.update_of_ne hpart _ _
  unfold publish
  cases ok with
  | false =>
      right
      have hkept := removeFile_of_ne (Function.update disk (partPathFor destination) (some out))
        fs.removes hpart
      rw [hwritten] at hkept
      simp [hkept]
  | true =>
      by_cases hrenames : fs.renames = true
      · left
        simp [hrenames, renameFile_target _ hpart]
      · by_cases hagain : fs.renamesAgain = true
        · left
          simp [hrenames, hagain, renameFile_target _ hpart, removeFile_of_ne _ _ hpart.symm]
        · right
          have hremoved := removeFile_self
            (Function.update disk (partPathFor destination) (some out)) fs.removes destination
          rw [hwritten] at hremoved
          refine ⟨by simp [hrenames, hagain], by simp [hrenames, hagain], ?_⟩
          by_cases hremoves : fs.removes = true
          · right
            simpa [hrenames, hagain, hremoves] using hremoved
          · left
            simpa [hrenames, hagain, hremoves] using hremoved

/-- The end of a download changes the destination and the `.part` file only. -/
theorem publish_of_ne (ok : Bool) (out : Bytes) {path : Bytes} (hdestination : path ≠ destination)
    (hpart : path ≠ partPathFor destination) :
    (publish fs disk destination ok out).2 path = disk path := by
  have hwritten : Function.update disk (partPathFor destination) (some out) path = disk path :=
    Function.update_of_ne hpart _ _
  unfold publish renameFile
  by_cases hok : ok = true
  swap
  · simp [hok, removeFile_of_ne _ _ hpart, hwritten]
  by_cases hrenames : fs.renames = true
  · simp [hok, hrenames, hdestination, hpart]
  by_cases hagain : fs.renamesAgain = true
  · simp [hok, hrenames, hagain, hdestination, hpart, removeFile_of_ne _ _ hdestination]
  · simp [hok, hrenames, hagain, removeFile_of_ne _ _ hdestination, hwritten]

/-- A download that does not come to receiving changes nothing; one that does ends with what the
receive loop gives for the bytes received. -/
theorem downloadFile_eq :
    (Reaches c network fs virtualPath ∧
      downloadFile c network fs disk virtualPath destination =
        publish fs disk destination (receivedFile (received network.delivery)).1
          (receivedFile (received network.delivery)).2) ∨
    (¬ Reaches c network fs virtualPath ∧
      downloadFile c network fs disk virtualPath destination = (false, disk)) := by
  unfold downloadFile
  rw [receiveLoop_start]
  cases hurl : c.buildFileUrl virtualPath with
  | none =>
      right
      refine ⟨?_, rfl⟩
      rintro ⟨url, hsome, -⟩
      rw [hurl] at hsome
      cases hsome
  | some url =>
      have hreaches : Reaches c network fs virtualPath ↔
          (parseHttpUrl url).valid = true ∧
            network.openSocket (parseHttpUrl url).host (parseHttpUrl url).port = true ∧
            network.sendRequest (requestFor (parseHttpUrl url)) = true ∧ fs.opens = true := by
        constructor
        · rintro ⟨url', hurl', hsteps⟩
          rw [hurl] at hurl'
          rwa [Option.some.inj hurl']
        · intro hsteps
          exact ⟨url, hurl, hsteps⟩
      rw [hreaches]
      by_cases hvalid : (parseHttpUrl url).valid = true
      swap; · exact Or.inr (by simp [hvalid])
      by_cases hopen : network.openSocket (parseHttpUrl url).host (parseHttpUrl url).port = true
      swap; · exact Or.inr (by simp [hvalid, hopen])
      by_cases hsend : network.sendRequest (requestFor (parseHttpUrl url)) = true
      swap; · exact Or.inr (by simp [hvalid, hopen, hsend])
      by_cases hopens : fs.opens = true
      swap; · exact Or.inr (by simp [hvalid, hopen, hsend, hopens])
      exact Or.inl (by simp [hvalid, hopen, hsend, hopens])

/-- A download returns true, with what the receive loop wrote at the destination, when all the
local steps succeed and the loop does; else it returns false, with the destination as it was or
absent. -/
theorem downloadFile_cases :
    (Carries c network fs virtualPath ∧ (receivedFile (received network.delivery)).1 = true ∧
      (downloadFile c network fs disk virtualPath destination).1 = true ∧
      (downloadFile c network fs disk virtualPath destination).2 destination =
        some (receivedFile (received network.delivery)).2) ∨
    (¬ (Carries c network fs virtualPath ∧
        (receivedFile (received network.delivery)).1 = true) ∧
      (downloadFile c network fs disk virtualPath destination).1 = false ∧
      ((downloadFile c network fs disk virtualPath destination).2 destination =
        disk destination ∨
      (downloadFile c network fs disk virtualPath destination).2 destination = none)) := by
  rcases downloadFile_eq c network fs disk virtualPath destination with
    ⟨hreaches, heq⟩ | ⟨hreaches, heq⟩
  · rw [heq]
    rcases publish_cases fs disk destination (receivedFile (received network.delivery)).1
      (receivedFile (received network.delivery)).2 with
      ⟨⟨hok, hrename⟩, hpublished⟩ | ⟨hnot, hunpublished⟩
    · exact Or.inl ⟨⟨hreaches, hrename⟩, hok, hpublished⟩
    · right
      refine ⟨?_, hunpublished⟩
      rintro ⟨⟨-, hrename⟩, hok⟩
      exact hnot ⟨hok, hrename⟩
  · right
    rw [heq]
    refine ⟨?_, rfl, Or.inl rfl⟩
    rintro ⟨⟨hreaches', -⟩, -⟩
    exact hreaches hreaches'

/-- A download changes its destination and its `.part` file only. -/
theorem downloadFile_of_ne {path : Bytes} (hdestination : path ≠ destination)
    (hpart : path ≠ partPathFor destination) :
    (downloadFile c network fs disk virtualPath destination).2 path = disk path := by
  rcases downloadFile_eq c network fs disk virtualPath destination with ⟨-, heq⟩ | ⟨-, heq⟩
  · rw [heq]
    exact publish_of_ne fs disk destination _ _ hdestination hpart
  · rw [heq]

/-- **What a download publishes.**  A download obeys the law of `PublishesComplete` if and only
if the local steps do not all succeed, or a response with the text 200 in its status line has 200
as its status code and arrives complete.  What `out.write` is given is taken to be in the file, and
`create_directories` not to throw.
SRCLINE: WebSeedClient.cpp:165-250 -/
theorem publishesComplete_iff : PublishesComplete c network fs disk virtualPath destination ↔
    (Carries c network fs virtualPath → ArrivesComplete network.delivery) := by
  constructor
  · intro h hcarries response n hresponse hlength hstatus
    have hfile : (receivedFile (received network.delivery)).1 = true ∧
        (receivedFile (received network.delivery)).2 = response.body := by
      simp [receivedFile, hresponse, hstatus]
    rcases downloadFile_cases c network fs disk virtualPath destination with
      ⟨-, -, hreturned, hcontent⟩ | ⟨hnot, -⟩
    · obtain ⟨response', hresponse', hlaw⟩ := h.published hreturned
      obtain rfl := Option.some.inj (hresponse.symm.trans hresponse')
      obtain ⟨hcode, content, hdestination, hcontentLength⟩ := hlaw n hlength
      rw [hcontent, hfile.2] at hdestination
      obtain rfl := Option.some.inj hdestination
      exact ⟨hcode, hcontentLength⟩
    · exact absurd ⟨hcarries, hfile.1⟩ hnot
  · intro h
    rcases downloadFile_cases c network fs disk virtualPath destination with
      ⟨hcarries, hok, hreturned, hcontent⟩ | ⟨-, hreturned, hkept⟩
    · obtain ⟨response, hresponse, hstatus, hbody⟩ := receivedFile_eq_true_iff.mp hok
      refine ⟨fun _ => ⟨response, hresponse, fun n hlength => ?_⟩, fun hfalse => ?_⟩
      · obtain ⟨hcode, hcomplete⟩ := h hcarries response n hresponse hlength hstatus
        exact ⟨hcode, response.body, by rw [hcontent, hbody], hcomplete⟩
      · rw [hreturned] at hfalse
        cases hfalse
    · refine ⟨fun htrue => ?_, fun _ => hkept⟩
      rw [hreturned] at htrue
      cases htrue

end Download

/-- A server that announces five bytes, sends one, and then fails. -/
def truncatingNetwork : Network where
  openSocket _ _ := true
  sendRequest _ := true
  delivery :=
    { chunks := [bytes "HTTP/1.1 200 OK\r\nContent-Length: 5\r\n\r\na"]
      ending := .failed
      nonempty := by decide
      fits := by decide }

/-- There the one byte is published. -/
theorem publishesComplete_fails : ¬ ∀ c network fs disk virtualPath destination,
    PublishesComplete c network fs disk virtualPath destination := by
  intro h
  obtain ⟨response, hresponse, hlaw⟩ :=
    (h ⟨bytes "http://h"⟩ truncatingNetwork ⟨true, true, true, true⟩ (fun _ => none)
      (bytes "/f") (bytes "d")).published (by decide +kernel)
  have hheader : responseOf (received truncatingNetwork.delivery) =
      some ⟨bytes "HTTP/1.1 200 OK\r\nContent-Length: 5", bytes "a"⟩ := by decide +kernel
  obtain rfl := Option.some.inj (hheader.symm.trans hresponse)
  obtain ⟨-, content, hcontent, hlength⟩ := hlaw 5 (by decide +kernel)
  have hfile : (downloadFile ⟨bytes "http://h"⟩ truncatingNetwork ⟨true, true, true, true⟩
      (fun _ => none) (bytes "/f") (bytes "d")).2 (bytes "d") = some (bytes "a") := by
    decide +kernel
  obtain rfl := Option.some.inj (hfile.symm.trans hcontent)
  exact absurd hlength (by decide)

end Vtfs.Analysis
