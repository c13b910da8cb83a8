import Vtfs.Interface.DownloadOutcomes
import Vtfs.Analysis.WebSeedDownloads

/-!
# What a download leaves behind

What is written is the text after the first empty line of the bytes received, however they are cut
(`downloadFile_eq_of_received`).  A download that fails after its last byte does not always clean
up (`atomicOnFailure_iff`): when both renames fail the `.part` file stays, and the destination may
be gone.
-/

set_option autoImplicit false

namespace Vtfs.Analysis

open Vtfs.Library
open Vtfs.Model
open Vtfs.Interface

/-! ## What is written -/

/-- What is in the part file is the body of what was received. -/
theorem partFile_eq (delivery : Delivery) : partFile delivery = receivedFile (received delivery) :=
  receiveLoop_start delivery

/-- An acceptable delivery is one that is taken for a file. -/
theorem acceptable_iff (delivery : Delivery) :
    Acceptable delivery ↔ (receivedFile (received delivery)).1 = true := by
  rw [receivedFile_eq_true_iff]
  unfold receivedFile Acceptable
  constructor
  · rintro ⟨response, hresponse, hstatus⟩
    exact ⟨response, hresponse, hstatus, by simp [hresponse, hstatus]⟩
  · rintro ⟨response, hresponse, hstatus, -⟩
    exact ⟨response, hresponse, hstatus⟩

/-- An answer is cut at its first empty line. -/
theorem cutsAtFirst_of_responseOf {bytesReceived : Bytes} {response : HttpResponse}
    (h : responseOf bytesReceived = some response) :
    CutsAtFirst bytesReceived response.header response.body := by
  obtain ⟨⟨header, body⟩, hcut, rfl⟩ := Option.map_eq_some_iff.mp h
  exact ⟨eq_of_cutAt hcut, fun _ _ => length_le_of_cutAt hcut⟩

/-- A server that answers with one byte. -/
def answeringNetwork : Network where
  openSocket _ _ := true
  sendRequest _ := true
  delivery :=
    { chunks := [bytes "HTTP/1.1 200 OK\r\n\r\na"]
      ending := .closed
      nonempty := by decide
      fits := by decide }

/-- The same bytes, cut inside the empty line. -/
def cutDelivery : Delivery where
  chunks := [bytes "HTTP/1.1 200 OK\r\n\r", bytes "\na"]
  ending := .closed
  nonempty := by decide
  fits := by decide

section Download

variable (c : WebSeedClient) (network : Network) (fs : FileSystem) (disk : Disk)
  (virtualPath destination : Bytes)

/-- After an accepted download the `.part` file, renamed or not, is what was written to it. -/
theorem writtenFile_publish (out : Bytes) :
    writtenFile (publish fs disk destination true out) destination = some out := by
  have hpart := partPathFor_ne destination
  unfold publish writtenFile
  by_cases hrenames : fs.renames = true
  · simp [hrenames, renameFile_target _ hpart]
  by_cases hagain : fs.renamesAgain = true
  · simp [hrenames, hagain, renameFile_target _ hpart, removeFile_of_ne _ _ hpart.symm]
  · simp [hrenames, hagain, removeFile_of_ne _ _ hpart.symm]

/-- An accepted download has written the body that was received. -/
theorem writtenFile_downloadFile (hreaches : Reaches c network fs virtualPath)
    (haccepted : (partFile network.delivery).1 = true) :
    writtenFile (downloadFile c network fs disk virtualPath destination) destination =
      some (partFile network.delivery).2 := by
  rw [partFile_eq] at haccepted ⊢
  rcases downloadFile_eq c network fs disk virtualPath destination with
    ⟨-, heq⟩ | ⟨hnot, -⟩
  · rw [heq, haccepted, writtenFile_publish]
  · exact absurd hreaches hnot

/-- **What is written does not depend on the chunks.**  For two deliveries of the same bytes the
loop decides the same, a download does the same, and what is written to the `.part` file of an
accepted download is the text after the first empty line.  What `out.write` is given is taken to be
in the file, and `create_directories` not to throw.
SRCLINE: WebSeedClient.cpp:199-240 -/
theorem downloadFile_eq_of_received {delivery delivery' : Delivery}
    (hsame : received delivery' = received delivery) :
    partFile delivery' = partFile delivery ∧
      downloadFile c { network with delivery := delivery' } fs disk virtualPath destination =
        downloadFile c { network with delivery } fs disk virtualPath destination ∧
      ((partFile delivery).1 = true →
        (∃ header, CutsAtFirst (received delivery) header (partFile delivery).2) ∧
        (Reaches c network fs virtualPath →
          writtenFile
            (downloadFile c { network with delivery } fs disk virtualPath destination)
            destination = some (partFile delivery).2)) := by
  have hpart : partFile delivery' = partFile delivery := by
    rw [partFile_eq, partFile_eq, hsame]
  refine ⟨hpart, ?_, fun haccepted => ⟨?_, fun hreaches => ?_⟩⟩
  · have hloop : receiveLoop delivery'.ending ⟨[], false, []⟩ delivery'.chunks =
        receiveLoop delivery.ending ⟨[], false, []⟩ delivery.chunks := hpart
    simp only [downloadFile, hloop]
  · rw [partFile_eq] at haccepted ⊢
    obtain ⟨response, hresponse, -, hbody⟩ := receivedFile_eq_true_iff.mp haccepted
    exact ⟨response.header, hbody ▸ cutsAtFirst_of_responseOf hresponse⟩
  · exact writtenFile_downloadFile c { network with delivery } fs disk virtualPath destination
      hreaches haccepted

/-- In both cuts the byte after the empty line is written. -/
theorem downloadFile_eq_of_received_cut :
    partFile cutDelivery = (true, bytes "a") ∧
      ∃ header, CutsAtFirst (received answeringNetwork.delivery) header (bytes "a") := by
  have hpart : partFile answeringNetwork.delivery = (true, bytes "a") := by decide +kernel
  have hreceived : received cutDelivery = received answeringNetwork.delivery := by
    decide +kernel
  obtain ⟨hsame, -, hbody⟩ := downloadFile_eq_of_received ⟨bytes "http://h"⟩ answeringNetwork
    ⟨true, true, true, true⟩ (fun _ => none) (bytes "/f") (bytes "d") hreceived
  obtain ⟨⟨header, hcut⟩, -⟩ := hbody (by rw [hpart])
  rw [hpart] at hsame hcut
  exact ⟨hsame, header, hcut⟩

/-! ## What a failed download leaves behind -/

/-- After a response that is not acceptable the destination is as it was, and the `.part` file
stays if it cannot be removed. -/
theorem publish_rejected (out : Bytes) :
    (publish fs disk destination false out).1 = false ∧
      (publish fs disk destination false out).2 destination = disk destination ∧
      (publish fs disk destination false out).2 (partPathFor destination) =
        if fs.removes then none else some out := by
  have hpart := partPathFor_ne destination
  refine ⟨rfl, ?_, ?_⟩
  · exact (removeFile_of_ne _ fs.removes hpart).trans (Function.update_of_ne hpart _ _)
  · refine (removeFile_self _ fs.removes _).trans ?_
    rw [Function.update_self]

/-- When both renames fail the `.part` file stays, and the destination is removed if it can be. -/
theorem publish_unnamed (out : Bytes) (hrenames : fs.renames = false)
    (hagain : fs.renamesAgain = false) :
    (publish fs disk destination true out).1 = false ∧
      (publish fs disk destination true out).2 destination =
        (if fs.removes then none else disk destination) ∧
      (publish fs disk destination true out).2 (partPathFor destination) = some out := by
  have hpart := partPathFor_ne destination
  have heq : publish fs disk destination true out =
      (false, removeFile fs.removes
        (Function.update disk (partPathFor destination) (some out)) destination) := by
    simp [publish, hrenames, hagain]
  rw [heq]
  refine ⟨rfl, ?_, ?_⟩
  · refine (removeFile_self _ fs.removes _).trans ?_
    rw [Function.update_of_ne hpart]
  · exact (removeFile_of_ne _ fs.removes hpart.symm).trans (Function.update_self _ _ _)

/-- A download is published when one of the two renamings succeeds. -/
theorem publish_renamed (out : Bytes) (h : fs.renames = true ∨ fs.renamesAgain = true) :
    (publish fs disk destination true out).1 = true := by
  rcases publish_cases fs disk destination true out with ⟨-, hreturned, -⟩ | ⟨hnot, -⟩
  · exact hreturned
  · exact absurd ⟨rfl, h⟩ hnot

section Failure

variable {c network fs disk virtualPath destination} {out : Bytes}

/-- A response that is not acceptable leaves nothing when the `.part` file is removed, or was
there before. -/
theorem atomicOnFailure_rejected (heq : downloadFile c network fs disk virtualPath destination =
      publish fs disk destination false out) :
    AtomicOnFailure c network fs disk virtualPath destination ↔
      fs.removes = true ∨ disk (partPathFor destination) ≠ none := by
  obtain ⟨hreturned, hkept, hpart⟩ := publish_rejected fs disk destination out
  constructor
  · intro h
    by_contra hstays
    obtain ⟨hremoves, hnone⟩ := not_or.mp hstays
    have hremoved := h.removed (by rw [heq]; exact hreturned) (not_not.mp hnone)
    rw [heq, hpart, if_neg hremoves] at hremoved
    cases hremoved
  · intro h
    refine ⟨fun _ => by rw [heq, hkept], fun _ hnone => ?_⟩
    rw [heq, hpart, if_pos (h.resolve_right (not_not.mpr hnone))]

/-- Two renames that fail leave nothing when a `.part` file was there before, and the destination
is not removed. -/
theorem atomicOnFailure_unnamed (heq : downloadFile c network fs disk virtualPath destination =
      publish fs disk destination true out) (hrenames : fs.renames = false)
    (hagain : fs.renamesAgain = false) :
    AtomicOnFailure c network fs disk virtualPath destination ↔
      disk (partPathFor destination) ≠ none ∧ (fs.removes = true → disk destination = none) := by
  obtain ⟨hreturned, hdestination, hpart⟩ :=
    publish_unnamed fs disk destination out hrenames hagain
  constructor
  · intro h
    refine ⟨fun hnone => ?_, fun hremoves => ?_⟩
    · have hremoved := h.removed (by rw [heq]; exact hreturned) hnone
      rw [heq, hpart] at hremoved
      cases hremoved
    · have hkept := h.kept (by rw [heq]; exact hreturned)
      rw [heq, hdestination, if_pos hremoves] at hkept
      exact hkept.symm
  · rintro ⟨hbefore, habsent⟩
    refine ⟨fun _ => ?_, fun _ hnone => absurd hnone hbefore⟩
    rw [heq, hdestination]
    by_cases hremoves : fs.removes = true
    · rw [if_pos hremoves, habsent hremoves]
    · rw [if_neg hremoves]

/-- A rename that succeeds makes the download return true. -/
theorem atomicOnFailure_renamed (heq : downloadFile c network fs disk virtualPath destination =
      publish fs disk destination true out) (h : fs.renames = true ∨ fs.renamesAgain = true) :
    AtomicOnFailure c network fs disk virtualPath destination := by
  have hreturned : (downloadFile c network fs disk virtualPath destination).1 ≠ false := by
    rw [heq, publish_renamed fs disk destination out h]
    decide
  exact ⟨fun hfalse => absurd hfalse hreturned, fun hfalse => absurd hfalse hreturned⟩

end Failure

/-- **What a failed download leaves behind.**  A download that returns false leaves the
destination as it was, and no `.part` file of its own, if and only if it does not come to
receiving or the local steps after the last byte leave nothing to clean up.  What `out.write` is
given is taken to be in the file, and `create_directories` not to throw.
SRCLINE: WebSeedClient.cpp:165-250 -/
theorem atomicOnFailure_iff :
    AtomicOnFailure c network fs disk virtualPath destination ↔
      (Reaches c network fs virtualPath →
        LeavesNothing network.delivery fs disk destination) := by
  rcases downloadFile_eq c network fs disk virtualPath destination with
    ⟨hreaches, heq⟩ | ⟨hreaches, heq⟩
  swap
  · refine iff_of_true ⟨fun _ => by rw [heq], fun _ hnone => by rw [heq]; exact hnone⟩ ?_
    exact fun hreaches' => absurd hreaches' hreaches
  rw [imp_iff_right hreaches]
  have hacceptable := acceptable_iff network.delivery
  generalize receivedFile (received network.delivery) = file at heq hacceptable
  obtain ⟨ok, out⟩ := file
  cases ok with
  | false =>
      have hnot : ¬ Acceptable network.delivery := by simp [hacceptable]
      rw [atomicOnFailure_rejected heq]
      exact ⟨fun h => ⟨fun _ => h, fun haccepted => absurd haccepted hnot⟩,
        fun h => h.rejected hnot⟩
  | true =>
      have haccepted : Acceptable network.delivery := hacceptable.mpr rfl
      by_cases hrenamed : fs.renames = true ∨ fs.renamesAgain = true
      · refine iff_of_true (atomicOnFailure_renamed heq hrenamed)
          ⟨fun hnot => absurd haccepted hnot, fun _ hfirst hsecond => ?_⟩
        rw [hfirst, hsecond] at hrenamed
        simp at hrenamed
      · obtain ⟨hrenames, hagain⟩ := not_or.mp hrenamed
        rw [Bool.not_eq_true] at hrenames hagain
        rw [atomicOnFailure_unnamed heq hrenames hagain]
        exact ⟨fun h => ⟨fun hnot => absurd haccepted hnot, fun _ _ _ => h⟩,
          fun h => h.unnamed haccepted hrenames hagain⟩

end Download

/-- When both renames fail the old file is gone and the new one is left as a `.part` file. -/
theorem atomicOnFailure_fails : ¬ ∀ c network fs disk virtualPath destination,
    AtomicOnFailure c network fs disk virtualPath destination := by
  intro h
  have hkept := (h ⟨bytes "http://h"⟩ answeringNetwork ⟨true, true, false, false⟩
    (fun path => if path = bytes "d" then some (bytes "b") else none) (bytes "/f")
    (bytes "d")).kept (by decide +kernel)
  have hgone : (downloadFile ⟨bytes "http://h"⟩ answeringNetwork ⟨true, true, false, false⟩
      (fun path => if path = bytes "d" then some (bytes "b") else none) (bytes "/f")
      (bytes "d")).2 (bytes "d") = none := by decide +kernel
  rw [hgone] at hkept
  exact absurd hkept (by decide)

end Vtfs.Analysis
