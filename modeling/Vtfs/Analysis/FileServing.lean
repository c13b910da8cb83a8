import Vtfs.Interface.FileServing
import Vtfs.Analysis.RangeHeaders
import Mathlib.Data.List.Infix

/-!
# The part of a file that is announced is the part that is sent

A range that is accepted lies in the file (`parseRangeHeader_bounds`).  With the payload there, a
read gives all the bytes that are wanted of it (`tryReadFileRange_eq`), at the first attempt when
there are any (`attemptLoop_eq`); so the loop sends the bytes up to the last position, whatever
the chunks are (`sendLoop_eq`).
-/

set_option autoImplicit false

namespace Vtfs.Analysis

open Vtfs.Library
open Vtfs.Library.Decimal (numeral)
open Vtfs.Model
open Vtfs.Interface

/-! ## The range -/

/-- A range that is accepted is not empty and lies in the file. -/
theorem parseRangeHeader_bounds {value : Bytes} {size start stop : UInt64}
    (h : parseRangeHeader value size = some (start, stop)) :
    start.toNat ≤ stop.toNat ∧ stop.toNat < size.toNat := by
  obtain ⟨-, -, -, -, -, hinside, ⟨-, hstop⟩ | ⟨_, -, hordered, hstop⟩⟩ :=
    parseRangeHeader_eq_some_iff.mp h
  · omega
  · omega

/-- A range that is taken lies in the file. -/
theorem rangeOf_bounds {request : Request} {size start stop : UInt64}
    (h : rangeOf request size = some (start, stop)) :
    start.toNat ≤ stop.toNat ∧ stop.toNat < size.toNat := by
  obtain ⟨value, -, hvalue⟩ := Option.bind_eq_some_iff.mp h
  exact parseRangeHeader_bounds hvalue

/-! ## Reads -/

/-- A read inside a file gives the bytes wanted, as far as the file and its payload have them. -/
theorem tryReadFileRange_of_lt {entry : FileEntry} (hfile : entry.isDirectory = false)
    {offset : UInt64} (hoffset : offset.toNat < entry.size.toNat) (disk : Disk) (opens : Bool)
    (cacheDirectory : Bytes) (wanted : UInt32) :
    tryReadFileRange disk opens cacheDirectory entry offset wanted =
      (disk (payloadPathFor cacheDirectory entry)).elim ⟨false, [], true⟩ fun payload =>
        if ¬ opens then ⟨false, [], false⟩
        else if 2 ^ 63 ≤ offset.toNat then ⟨true, [], false⟩
        else ⟨true, (payload.drop offset.toNat).take
          (min wanted.toNat (entry.size.toNat - offset.toNat)), false⟩ := by
  have hinside : ¬ (entry.isDirectory ∨ entry.size ≤ offset) := by
    rw [hfile, UInt64.le_iff_toNat_le]
    simpa using hoffset
  have hrest : (entry.size - offset).toNat = entry.size.toNat - offset.toNat :=
    UInt64.toNat_sub_of_le _ _ (UInt64.le_iff_toNat_le.mpr hoffset.le)
  have havailable : (min wanted.toUInt64 (entry.size - offset)).toUInt32.toNat =
      min wanted.toNat (entry.size.toNat - offset.toNat) := by
    rw [UInt64.toNat_toUInt32, toNat_min_uInt64, UInt32.toNat_toUInt64, hrest]
    exact Nat.mod_eq_of_lt (lt_of_le_of_lt (Nat.min_le_left _ _) wanted.toNat_lt)
  rw [tryReadFileRange, if_neg hinside]
  simp only [havailable]
  cases disk (payloadPathFor cacheDirectory entry) <;> rfl

section Present

variable {files : ServedFiles} {s : Surroundings} {cacheDirectory : Bytes} {entry : FileEntry}
  {payload : Bytes}

/-- A read inside the file gives what the payload has there. -/
theorem tryReadFileRange_eq (hpayload : PayloadPresent files cacheDirectory entry payload)
    (hfile : entry.isDirectory = false) (hsize : entry.size.toNat < 2 ^ 63) {position : UInt64}
    (hposition : position.toNat < entry.size.toNat) (wanted : UInt32) (attempt : ℕ) :
    tryReadFileRange (files.disk attempt) (files.opens attempt) cacheDirectory entry position
        wanted =
      ⟨true, (payload.drop position.toNat).take wanted.toNat, false⟩ := by
  have hsmall : ¬ 2 ^ 63 ≤ position.toNat := by omega
  have hlength : entry.size.toNat - position.toNat = (payload.drop position.toNat).length := by
    rw [List.length_drop, hpayload.length]
  rw [tryReadFileRange_of_lt hfile hposition, hpayload.present, hpayload.opens]
  simp only [Option.elim_some, not_true_eq_false, if_false, hsmall, hlength]
  rw [← List.take_eq_take_min]

/-- Bytes that are there come at the first attempt. -/
theorem attemptLoop_eq (hpayload : PayloadPresent files cacheDirectory entry payload)
    (hfile : entry.isDirectory = false) (hsize : entry.size.toNat < 2 ^ 63) {position : UInt64}
    (hposition : position.toNat < entry.size.toNat) {wanted : UInt32} (hwanted : 0 < wanted.toNat)
    (left made : ℕ) (last : FileRead) :
    attemptLoop files cacheDirectory entry position wanted (left + 1) made last =
      (⟨true, (payload.drop position.toNat).take wanted.toNat, false⟩, made + 1) := by
  have hdata : (payload.drop position.toNat).take wanted.toNat ≠ [] := by
    apply List.ne_nil_of_length_pos
    rw [List.length_take, List.length_drop, hpayload.length]
    omega
  rw [attemptLoop, tryReadFileRange_eq hpayload hfile hsize hposition]
  simp only [hdata, ne_eq, not_false_eq_true, and_self, if_true]

/-- Of an empty file nothing is read, however often. -/
theorem attemptLoop_empty (hsize : entry.size = 0) (position : UInt64) (wanted : UInt32)
    (left made : ℕ) {last : FileRead} (hlast : last.data = []) :
    (attemptLoop files cacheDirectory entry position wanted left made last).1.data = [] := by
  have hread : ∀ attempt, tryReadFileRange (files.disk attempt) (files.opens attempt)
      cacheDirectory entry position wanted = ⟨true, [], false⟩ := fun attempt => by
    rw [tryReadFileRange, if_pos (Or.inr (by rw [hsize]; exact UInt64.zero_le))]
  induction left generalizing made last with
  | zero => exact hlast
  | succ left ih =>
      rw [attemptLoop]
      simp only [hread]
      split
      · rfl
      · split
        · rfl
        · exact ih (made + 1) rfl

/-! ## The body -/

/-- What is wanted next: all that is left, or as much as the buffer holds. -/
theorem toNat_wanted {position stop : UInt64} (hle : position.toNat ≤ stop.toNat)
    (hstop : stop.toNat < 2 ^ 63) :
    (min chunkLimit (stop - position + 1)).toUInt32.toNat =
      min (64 * 1024) (stop.toNat + 1 - position.toNat) := by
  have hsub : (stop - position).toNat = stop.toNat - position.toNat :=
    UInt64.toNat_sub_of_le _ _ (UInt64.le_iff_toNat_le.mpr hle)
  have hleft : (stop - position + 1).toNat = stop.toNat + 1 - position.toNat := by
    rw [UInt64.toNat_add, hsub, UInt64.toNat_one]
    omega
  have hlimit : chunkLimit.toNat = 64 * 1024 := by decide
  rw [UInt64.toNat_toUInt32, toNat_min_uInt64, hleft, hlimit]
  omega

/-- The loop sends the bytes from its position to the last one. -/
theorem sendLoop_eq (hpayload : PayloadPresent s.toServedFiles cacheDirectory entry payload)
    (hfile : entry.isDirectory = false) (hsize : entry.size.toNat < 2 ^ 63)
    (hsends : ∀ n, s.sendAll n = true) {stop : UInt64} (hstop : stop.toNat < entry.size.toNat)
    (fuel : ℕ) (position : UInt64) (made sent : ℕ) (hposition : position.toNat ≤ stop.toNat + 1)
    (hfuel : stop.toNat + 1 - position.toNat < fuel) :
    ∃ chunks, sendLoop s cacheDirectory entry stop fuel position made sent = some chunks ∧
      chunks.flatten = (payload.take (stop.toNat + 1)).drop position.toNat := by
  induction fuel generalizing position made sent with
  | zero => omega
  | succ fuel ih =>
      by_cases hdone : position ≤ stop
      · have hle := UInt64.le_iff_toNat_le.mp hdone
        set wanted := (min chunkLimit (stop - position + 1)).toUInt32 with hwantedDef
        have hwanted : wanted.toNat = min (64 * 1024) (stop.toNat + 1 - position.toNat) :=
          toNat_wanted hle (by omega)
        have hread := attemptLoop_eq hpayload hfile hsize (by omega : position.toNat < _)
          (by omega : 0 < wanted.toNat) 1199 made ⟨false, [], false⟩
        set data := (payload.drop position.toNat).take wanted.toNat with hdataDef
        have hlength : data.length = wanted.toNat := by
          rw [hdataDef, List.length_take, List.length_drop, hpayload.length]
          omega
        have hnext : (position + data.length.toUInt64).toNat =
            position.toNat + wanted.toNat := by
          rw [UInt64.toNat_add, hlength, Nat.toUInt64_eq, UInt64.toNat_ofNat']
          omega
        obtain ⟨chunks, hloop, hchunks⟩ := ih (position + data.length.toUInt64) (made + 1)
          (sent + 1) (by omega) (by omega)
        have hne : data ≠ [] := List.ne_nil_of_length_pos (by omega)
        refine ⟨data :: chunks, ?_, ?_⟩
        · have hlimit : attemptLimit = 1199 + 1 := rfl
          rw [sendLoop, if_neg (not_not.mpr hdone), hlimit]
          simp only [← hwantedDef, hread, hne, hsends, not_true_eq_false, or_self, if_false,
            hloop, Option.map_some]
        · rw [List.flatten_cons, hchunks, hnext]
          exact take_append_drop_take payload (by omega)
      · refine ⟨[], ?_, ?_⟩
        · rw [sendLoop, if_pos hdone]
        · -- the position is past the last one
          have hlt := UInt64.lt_iff_toNat_lt.mp (UInt64.not_le.mp hdone)
          rw [List.flatten_nil, eq_comm, List.drop_eq_nil_iff, List.length_take]
          omega

/-- Of an empty file nothing is sent. -/
theorem sendLoop_empty (hsize : entry.size = 0) (fuel made sent : ℕ) :
    sendLoop s cacheDirectory entry 0 (fuel + 1) 0 made sent = some [] := by
  have hdata : (attemptLoop s.toServedFiles cacheDirectory entry 0
      (min chunkLimit (0 - 0 + 1)).toUInt32 attemptLimit made ⟨false, [], false⟩).1.data = [] :=
    attemptLoop_empty hsize _ _ _ _ rfl
  rw [sendLoop, if_neg (by simp)]
  simp only [hdata, or_true, if_true]

/-! ## The answer -/

/-- The headers for a range, or for the whole file when there is none. -/
theorem headersOut_eq {range : Option (UInt64 × UInt64)} {start stop : UInt64}
    (hrange : ∀ part, range = some part → part = (start, stop)) (size responseLength : UInt64) :
    headersOut range.isSome start stop size responseLength =
      announcement size.toNat responseLength.toNat
        (range.map fun part => (part.1.toNat, part.2.toNat)) := by
  cases range with
  | none =>
      simp only [headersOut, announcement, numberText, Option.isSome_none, Option.map_none,
        Bool.false_eq_true, if_false, List.append_assoc, List.nil_append]
  | some part =>
      rw [hrange part rfl]
      simp only [headersOut, announcement, numberText, Option.isSome_some, Option.map_some,
        if_true, List.append_assoc]

/-- The headers, and the body with them unless the method is `HEAD`. -/
theorem serveFile_eq (hsends : ∀ n, s.sendAll n = true) {request : Request} {fuel : ℕ}
    {start stop responseLength : UInt64} {chunks : List Bytes}
    (hrange : (rangeOf request entry.size).getD (0, if entry.size = 0 then 0 else entry.size - 1) =
      (start, stop))
    (hlength : (if entry.size = 0 then 0 else stop - start + 1) = responseLength)
    (hbody : sendLoop s cacheDirectory entry stop fuel start 0 1 = some chunks) :
    serveFile s cacheDirectory entry request fuel =
      some (headersOut (rangeOf request entry.size).isSome start stop entry.size responseLength ::
        if request.line.method = bytes "HEAD" then [] else chunks) := by
  unfold serveFile
  simp only [hrange, hlength, hsends, not_true_eq_false, if_false, hbody, Option.map_some]
  split <;> rfl

/-- A slice is as long as its bounds say. -/
theorem length_slice (hpayload : PayloadPresent files cacheDirectory entry payload)
    {first last : ℕ} (hlast : last < entry.size.toNat) (hle : first ≤ last) :
    (slice payload (some (first, last))).length = last - first + 1 := by
  rw [slice, List.length_drop, List.length_take, hpayload.length]
  omega

/-- The body for a request is the part that it asks for, and as long as its headers say. -/
theorem exists_body (hpayload : PayloadPresent s.toServedFiles cacheDirectory entry payload)
    (hfile : entry.isDirectory = false) (hsize : entry.size.toNat < 2 ^ 63)
    (hsends : ∀ n, s.sendAll n = true) (request : Request) {fuel : ℕ}
    (hfuel : entry.size.toNat < fuel) :
    ∃ start stop chunks,
      (rangeOf request entry.size).getD (0, if entry.size = 0 then 0 else entry.size - 1) =
        (start, stop) ∧
      sendLoop s cacheDirectory entry stop fuel start 0 1 = some chunks ∧
      chunks.flatten = slice payload (partOf request entry) ∧
      (if entry.size = 0 then 0 else stop - start + 1).toNat =
        (slice payload (partOf request entry)).length := by
  unfold partOf
  cases hrange : rangeOf request entry.size with
  | none =>
      by_cases hempty : entry.size = 0
      · obtain ⟨fuel, rfl⟩ := Nat.exists_eq_succ_of_ne_zero (n := fuel) (by omega)
        have hnil : payload = [] :=
          List.length_eq_zero_iff.mp (by rw [hpayload.length, hempty]; rfl)
        refine ⟨0, 0, [], by simp [hempty], sendLoop_empty hempty fuel 0 1, ?_, ?_⟩
        · simp [slice, hnil]
        · simp [slice, hnil, hempty]
      · have hpos : 0 < entry.size.toNat :=
          Nat.pos_of_ne_zero fun hzero => hempty (UInt64.toNat_inj.mp hzero)
        have hlast : (entry.size - 1).toNat = entry.size.toNat - 1 :=
          UInt64.toNat_sub_of_le _ _ (UInt64.le_iff_toNat_le.mpr hpos)
        have hlt : (entry.size - 1).toNat < entry.size.toNat := by omega
        obtain ⟨chunks, hloop, hchunks⟩ := sendLoop_eq hpayload hfile hsize hsends hlt fuel 0 0 1
          (by simp) (by simp; omega)
        refine ⟨0, entry.size - 1, chunks, by simp [hempty], hloop, ?_, ?_⟩
        · rw [hchunks, hlast, Nat.sub_add_cancel hpos, ← hpayload.length, List.take_length]
          rfl
        · rw [if_neg hempty, UInt64.sub_zero, UInt64.sub_add_cancel]
          exact hpayload.length.symm
  | some part =>
      obtain ⟨start, stop⟩ := part
      obtain ⟨hle, hlt⟩ := rangeOf_bounds hrange
      obtain ⟨chunks, hloop, hchunks⟩ := sendLoop_eq hpayload hfile hsize hsends hlt fuel start 0 1
        (by omega) (by omega)
      have hempty : entry.size ≠ 0 := fun hzero => by simp [hzero] at hlt
      have hsub : (stop - start).toNat = stop.toNat - start.toNat :=
        UInt64.toNat_sub_of_le _ _ (UInt64.le_iff_toNat_le.mpr hle)
      refine ⟨start, stop, chunks, rfl, hloop, hchunks, ?_⟩
      rw [Option.map_some, length_slice hpayload hlt hle, if_neg hempty, UInt64.toNat_add, hsub,
        UInt64.toNat_one]
      omega

/-- A file is sent with headers that announce the part asked for, and with the bytes of it. -/
theorem serveFile_serves (hfile : entry.isDirectory = false) (hsize : entry.size.toNat < 2 ^ 63)
    (hpayload : PayloadPresent s.toServedFiles cacheDirectory entry payload)
    (hsends : ∀ n, s.sendAll n = true) (request : Request) {fuel : ℕ}
    (hfuel : entry.size.toNat < fuel) :
    ∃ sent, serveFile s cacheDirectory entry request fuel = some sent ∧
      Serves entry payload request sent := by
  obtain ⟨start, stop, chunks, hrange, hbody, hchunks, hlength⟩ :=
    exists_body hpayload hfile hsize hsends request hfuel
  have hpart : ∀ part, rangeOf request entry.size = some part → part = (start, stop) :=
    fun part hsome => by rw [hsome] at hrange; exact hrange
  have hserve := serveFile_eq hsends hrange rfl hbody
  rw [headersOut_eq hpart, hlength] at hserve
  refine ⟨_, hserve, ?_⟩
  constructor
  case inside =>
    intro first last hsome
    obtain ⟨⟨start', stop'⟩, hfound, hpair⟩ := Option.map_eq_some_iff.mp hsome
    obtain ⟨rfl, rfl⟩ := Prod.mk.inj hpair
    obtain ⟨hle, hlt⟩ := rangeOf_bounds hfound
    rw [hsome]
    exact ⟨hle, hlt, length_slice hpayload hlt hle⟩
  case headers => rfl
  case head => exact fun hhead => if_pos hhead
  case body =>
    intro hother
    rw [List.tail_cons, if_neg hother, hchunks]

/-- **A request for a file** is answered with headers that announce the part it asks for, and with
the bytes of that part.
SRCLINE: WebDavServer.cpp:361-412 -/
theorem respond_serves {index : Index} {request : Request} {fuel : ℕ}
    (hentry : entryFor index request.line = some entry) (hfile : entry.isDirectory = false)
    (hsize : entry.size.toNat < 2 ^ 63)
    (hpayload : PayloadPresent s.toServedFiles cacheDirectory entry payload)
    (hsends : ∀ n, s.sendAll n = true) (hoptions : request.line.method ≠ bytes "OPTIONS")
    (hpropfind : request.line.method ≠ bytes "PROPFIND") (hfuel : entry.size.toNat < fuel) :
    ∃ sent, respond s cacheDirectory index request fuel = some sent ∧
      Serves entry payload request sent := by
  obtain ⟨sent, hsent, hserves⟩ := serveFile_serves hfile hsize hpayload hsends request hfuel
  refine ⟨sent, ?_, hserves⟩
  rw [respond, if_neg hoptions, hentry]
  simp only [hpropfind, hfile, Bool.false_eq_true, if_false, hsent]

end Present

/-- The file `x` of a torrent `a`, of three bytes. -/
def threeBytes : FileEntry := ⟨bytes "/a/x", 3, 0, 0, false⟩

/-- Its payload is there, nothing is hydrating, and the client takes everything. -/
def calm : Surroundings where
  disk _ path := if path = payloadPathFor (bytes "/c") threeBytes then some [7, 8, 9] else none
  opens _ := true
  hydrating _ := false
  sendAll _ := true

/-- The request for its last two bytes, with a last position past the end. -/
def lastTwo : Request where
  line := ⟨bytes "GET", bytes "/a/x", bytes "HTTP/1.1"⟩
  headers name := if name = bytes "range" then some (bytes "bytes=1-9") else none

/-- The last two of three bytes. -/
theorem respond_serves_lastTwo :
    ∃ sent, respond calm (bytes "/c") (buildIndex [⟨bytes "a/x", 3, 0⟩]) lastTwo 4 = some sent ∧
      Serves threeBytes [7, 8, 9] lastTwo sent :=
  respond_serves (by decide +kernel) rfl (by decide) ⟨fun _ => by simp [calm], fun _ => rfl, rfl⟩
    (fun _ => rfl) (by decide) (by decide) (by decide)

example : slice [7, 8, 9] (partOf lastTwo threeBytes) = [8, 9] := by decide +kernel

end Vtfs.Analysis
