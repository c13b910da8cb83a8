import Vtfs.Interface.RangeHeaders
import Vtfs.Model.App

/-!
# The arguments of the program

`AcceptsArguments` says which arguments make a configuration, and which one.  The number of
gigabytes is what `std::stoull` takes, so there may be white space before it and anything after it,
and a minus sign stands for what is missing to `2 ^ 64`.
-/

set_option autoImplicit false

namespace Vtfs.Interface

open Vtfs.Library
open Vtfs.Model

/-- A letter from A to Z, written as it is or in lower case. -/
def SpellsLetter (written letter : UInt8) : Prop :=
  byte 'A' ≤ letter ∧ letter ≤ byte 'Z' ∧ (written = letter ∨ written = letter + 32)

instance (written letter : UInt8) : Decidable (SpellsLetter written letter) := by
  unfold SpellsLetter; infer_instance

/-- Arguments make a configuration: there are four after the name of the program, the first is a
file, the second begins with the letter of a drive, and the third with a number of gigabytes that
are less than `2 ^ 64` bytes. -/
inductive AcceptsArguments (env : Environment) : List Bytes → ProgramConfig → Prop
  | accepted {program torrentFile driveRest cacheSize cacheDirectory : Bytes}
      {written driveLetter : UInt8} {cacheSizeBytes : UInt64}
      (hfile : env.fileExists torrentFile = some true)
      (hletter : SpellsLetter written driveLetter) (number : LeadingNumber cacheSize)
      (hsize : cacheSizeBytes.toNat = number.value * 2 ^ 30) :
      AcceptsArguments env
        [program, torrentFile, written :: driveRest, cacheSize, cacheDirectory]
        { cacheSizeBytes, cacheDirectory, torrentFile, driveLetter
          webSeedBaseUrl := env.webSeedBaseUrl.getD []
          sessionDirectory := PosixPath.append cacheDirectory (bytes ".vtfs-state")
          readAheadPieces := 16 }

/-- The look at the file of the torrent throws. -/
def FileThrows (env : Environment) (argv : List Bytes) : Prop :=
  argv.length = 5 ∧ argv[1]?.bind env.fileExists = none

instance (env : Environment) (argv : List Bytes) : Decidable (FileThrows env argv) := by
  unfold FileThrows; infer_instance

end Vtfs.Interface
