import Vtfs.Interface.Arguments
import Vtfs.Analysis.RangeHeaders

/-!
# The arguments that are accepted

The test before the product keeps it below `2 ^ 64` (`cacheSizeOf_eq_ok_iff`), so the size of the
cache is the number of gigabytes that was read and never wraps.
-/

set_option autoImplicit false

namespace Vtfs.Analysis

open Vtfs.Library
open Vtfs.Model
open Vtfs.Interface

/-! ## The drive letter -/

/-- A letter of either case is written for the upper one. -/
theorem spellsLetter_iff {written letter : UInt8} :
    SpellsLetter written letter ↔ isAlpha written = true ∧ toUpper written = letter := by
  have hall : ∀ n < 256, (isAlpha (UInt8.ofNat n) = true →
        SpellsLetter (UInt8.ofNat n) (toUpper (UInt8.ofNat n))) ∧
      (SpellsLetter (UInt8.ofNat n) (UInt8.ofNat n) →
        (isAlpha (UInt8.ofNat n) = true ∧ toUpper (UInt8.ofNat n) = UInt8.ofNat n) ∧
          isAlpha (UInt8.ofNat n + 32) = true ∧ toUpper (UInt8.ofNat n + 32) = UInt8.ofNat n) := by
    decide +kernel
  constructor
  · rintro ⟨hleast, hmost, hwritten⟩
    have hletter := (hall letter.toNat letter.toNat_lt).2
    rw [UInt8.ofNat_toNat] at hletter
    obtain ⟨hupper, hlower⟩ := hletter ⟨hleast, hmost, Or.inl rfl⟩
    rcases hwritten with rfl | rfl
    · exact hupper
    · exact hlower
  · rintro ⟨halpha, rfl⟩
    have hwritten := (hall written.toNat written.toNat_lt).1
    rw [UInt8.ofNat_toNat] at hwritten
    exact hwritten halpha

/-! ## The size of the cache -/

/-- A size is the number that is read, in gigabytes. -/
theorem cacheSizeOf_eq_ok_iff {text : Bytes} {size : UInt64} :
    cacheSizeOf text = .ok size ↔ ∃ number : LeadingNumber text,
      size.toNat = number.value * 2 ^ 30 := by
  have hmost : (18446744073709551615 / gib : UInt64).toNat = 2 ^ 34 - 1 := by decide
  have hgib : gib.toNat = 2 ^ 30 := by decide
  have hproduct : ∀ count : UInt64, count.toNat ≤ 2 ^ 34 - 1 →
      (count * gib).toNat = count.toNat * 2 ^ 30 := by
    intro count hcount
    rw [UInt64.toNat_mul, hgib]
    exact Nat.mod_eq_of_lt (by omega)
  unfold cacheSizeOf
  constructor
  · intro h
    cases hread : stoull text with
    | none =>
        rw [hread] at h
        cases h
    | some count =>
        rw [hread] at h
        dsimp only at h
        split at h
        · cases h
        · rename_i hle
          obtain ⟨number, hvalue⟩ := stoull_eq_some_iff.mp hread
          have hcount : count.toNat ≤ 2 ^ 34 - 1 := by
            rw [← hmost]
            exact not_lt.mp (mt UInt64.lt_iff_toNat_lt.mpr hle)
          rw [← Except.ok.inj h]
          exact ⟨number, by rw [hproduct count hcount, hvalue]⟩
  · rintro ⟨number, hsize⟩
    obtain ⟨count, hread, hvalue⟩ := exists_stoull number
    have hlt := size.toNat_lt
    have hcount : count.toNat ≤ 2 ^ 34 - 1 := by omega
    rw [hread]
    dsimp only
    rw [if_neg]
    · refine congrArg Except.ok (UInt64.toNat_inj.mp ?_)
      rw [hproduct count hcount, hvalue, hsize]
    · rw [← hmost] at hcount
      exact UInt64.not_lt.mpr (UInt64.le_iff_toNat_le.mpr hcount)

-- a negative number is the one that is missing to `2 ^ 64`: this is one gigabyte
example : cacheSizeOf (bytes "-18446744073709551615 GB") = .ok 1073741824 := by rfl

/-! ## The configuration -/

/-- A drive letter is made of exactly the texts that begin with a letter. -/
theorem driveLetterOf_eq_ok_iff {text : Bytes} {letter : UInt8} :
    driveLetterOf text = .ok letter ↔
      ∃ written rest, text = written :: rest ∧ SpellsLetter written letter := by
  cases text with
  | nil => simp [driveLetterOf]
  | cons written rest =>
      simp only [driveLetterOf, spellsLetter_iff, List.cons.injEq]
      by_cases halpha : isAlpha written = true
      · simp [halpha]
      · simp [halpha]

/-- A configuration comes of exactly the arguments that make one. -/
theorem parseConfig_eq_ok_iff {env : Environment} {argv : List Bytes} {config : ProgramConfig} :
    parseConfig env argv = some (.ok config) ↔ AcceptsArguments env argv config := by
  constructor
  · intro h
    unfold parseConfig at h
    split at h
    · rename_i program torrentFile driveArg cacheSize cacheDirectory
      obtain ⟨present, hfile, hconfig⟩ := Option.map_eq_some_iff.mp h
      cases present with
      | false => cases hconfig
      | true =>
          cases hletter : driveLetterOf driveArg with
          | error message => simp [hletter, bind, Except.bind] at hconfig
          | ok letter =>
              cases hsize : cacheSizeOf cacheSize with
              | error message => simp [hletter, hsize, bind, Except.bind] at hconfig
              | ok size =>
                  simp only [hletter, hsize, bind, Except.bind, pure, Except.pure,
                    not_true_eq_false, if_false, Except.ok.injEq] at hconfig
                  obtain ⟨written, rest, rfl, hspells⟩ := driveLetterOf_eq_ok_iff.mp hletter
                  obtain ⟨number, hnumber⟩ := cacheSizeOf_eq_ok_iff.mp hsize
                  rw [← hconfig]
                  exact .accepted hfile hspells number hnumber
    · cases h
  · intro h
    cases h with
    | @accepted program torrentFile rest cacheSize cacheDirectory written _ _ hfile hspells number
        hsize =>
        have hletter := driveLetterOf_eq_ok_iff.mpr ⟨written, rest, rfl, hspells⟩
        have hcache := cacheSizeOf_eq_ok_iff.mpr ⟨number, hsize⟩
        simp [parseConfig, hfile, hletter, hcache, bind, Except.bind, pure, Except.pure]

/-- The exception that nothing catches comes of the look at the file. -/
theorem parseConfig_eq_none_iff {env : Environment} {argv : List Bytes} :
    parseConfig env argv = none ↔ FileThrows env argv := by
  unfold parseConfig FileThrows
  split
  · simp
  · rename_i hshort
    refine iff_of_false nofun ?_
    rintro ⟨hlength, -⟩
    match argv, hlength with
    | [a, b, c, d, e], _ => exact hshort a b c d e rfl

/-- **The program.**  It goes on exactly when its arguments make a configuration, whose cache has as
many gigabytes as were read, without wrapping; otherwise nothing is started and the exit code is 1,
unless the look at the file throws, which nothing catches.
SRCLINE: main.cpp:6-16, Config.cpp:9-50 -/
theorem main_accepts (env : Environment) (argv : List Bytes) (build : Build)
    (session : ProgramConfig → Option TorrentMetadata) :
    (∀ config, AcceptsArguments env argv config →
      main env argv build session = some (App.run build config (session config))) ∧
    ((∀ config, ¬ AcceptsArguments env argv config) →
      main env argv build session =
        if FileThrows env argv then none else some { code := 1, calls := [] }) := by
  refine ⟨fun config h => ?_, fun hnone => ?_⟩
  · rw [main, parseConfig_eq_ok_iff.mpr h]
  · rcases hparse : parseConfig env argv with - | message | config
    · rw [main, hparse, if_pos (parseConfig_eq_none_iff.mp hparse)]
    · have hnot : ¬ FileThrows env argv := fun hthrows => by
        rw [parseConfig_eq_none_iff.mpr hthrows] at hparse
        cases hparse
      rw [main, hparse, if_neg hnot]
    · exact absurd (parseConfig_eq_ok_iff.mp hparse) (hnone config)

end Vtfs.Analysis
