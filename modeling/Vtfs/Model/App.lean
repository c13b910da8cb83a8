import Vtfs.Model.Mounting
import Vtfs.Model.SessionThreads

/-!
# The program

`main` takes the configuration from the arguments; `App::run` starts a session, mounts the drive
and returns what `mount` returns, and the drive is destroyed then.  What is printed is left out,
but for the message of an error in the arguments.
-/

set_option autoImplicit false

namespace Vtfs.Model

open Vtfs.Library

/-! ## The configuration -/

/-- `Config`, with the fields that a session does not read. -/
structure ProgramConfig extends Config where
  torrentFile : Bytes
  driveLetter : UInt8
  sessionDirectory : Bytes
  readAheadPieces : UInt32

/-- What the arguments are read in: whether there is a file, where `none` is an exception, and the
environment variable `VTFS_WEB_SEED_BASE_URL`. -/
structure Environment where
  fileExists : Bytes → Option Bool
  webSeedBaseUrl : Option Bytes

/-- `std::isalpha`, in the classic locale. -/
def isAlpha (ch : UInt8) : Bool :=
  (byte 'A' ≤ ch && ch ≤ byte 'Z') || (byte 'a' ≤ ch && ch ≤ byte 'z')

/-- `std::toupper`, in the classic locale. -/
def toUpper (ch : UInt8) : UInt8 := if byte 'a' ≤ ch ∧ ch ≤ byte 'z' then ch - 32 else ch

/-- The number of bytes of a gigabyte. -/
def gib : UInt64 := 1024 * 1024 * 1024

/-- The size of the cache in bytes, or the message of an error. -/
def cacheSizeOf (text : Bytes) : Except Bytes UInt64 :=
  match stoull text with
  | none => .error (bytes "Cache size must be a valid integer number of gigabytes.")
  | some cacheSizeGb =>
      if cacheSizeGb > 18446744073709551615 / gib then .error (bytes "Cache size is too large.")
      else .ok (cacheSizeGb * gib)

/-- The letter of the drive, or the message of an error. -/
def driveLetterOf : Bytes → Except Bytes UInt8
  | [] => .error (bytes "Drive letter must begin with A-Z.")
  | letter :: _ =>
      if isAlpha letter then .ok (toUpper letter)
      else .error (bytes "Drive letter must begin with A-Z.")

/-- The configuration, or the message of an error; `none` is an exception.  The arguments begin
with the name of the program.
SRCLINE: Config.cpp:9-50 -/
def parseConfig (env : Environment) : List Bytes → Option (Except Bytes ProgramConfig)
  | [_, torrentFile, driveArg, cacheSize, cacheDirectory] =>
      (env.fileExists torrentFile).map fun (present : Bool) =>
        if ¬ present then .error (bytes "Torrent file not found: " ++ torrentFile)
        else do
          let driveLetter ← driveLetterOf driveArg
          let cacheSizeBytes ← cacheSizeOf cacheSize
          pure
            { cacheSizeBytes, cacheDirectory, torrentFile, driveLetter
              webSeedBaseUrl := env.webSeedBaseUrl.getD []
              sessionDirectory := PosixPath.append cacheDirectory (bytes ".vtfs-state")
              readAheadPieces := 16 }
  | _ => some (.error (bytes
      "Usage: virtualtorrentfs.exe <torrent-file> <drive-letter> <cache-size-gb> <cache-path>"))

/-! ## The run -/

/-- The system that the program is built for: Windows, with its answers and the text it makes of a
path, or another one. -/
inductive Build where
  | windows (answers : WindowsAnswers) (pathText : Bytes → Wide)
  | other

/-- The exit code, and the calls of the system. -/
structure Exit where
  code : ℕ
  calls : List SystemCall
  deriving DecidableEq

namespace App

/-- The drive is mounted for a session with these files, and destroyed.
SRCLINE: App.cpp:15-16 -/
def mountDrive (build : Build) (config : ProgramConfig) (files : List TorrentFileRecord) : Exit :=
  match build with
  | .windows answers pathText =>
      let root := WindowsPath.append (pathText config.cacheDirectory) (wideText ".projfs-root")
      let mounted := DriveProvider.create.mount answers (buildIndex files)
        config.driveLetter.toUInt16 root files.length
      -- an exception destroys the drive as well, and is caught
      { code := mounted.code.getD 1, calls := mounted.calls ++ mounted.provider.destroy answers }
  | .other => { code := 2, calls := [] }

/-- The session is what its `start` comes to: the metadata, or an exception.
SRCLINE: App.cpp:11-22 -/
def run (build : Build) (config : ProgramConfig) (session : Option TorrentMetadata) : Exit :=
  match session with
  | none => { code := 1, calls := [] }
  | some metadata => mountDrive build config metadata.files

end App

/-- `main`; nothing catches an exception of the configuration.
SRCLINE: main.cpp:6-16 -/
def main (env : Environment) (argv : List Bytes) (build : Build)
    (session : ProgramConfig → Option TorrentMetadata) : Option Exit :=
  match parseConfig env argv with
  | none => none
  | some (.error _) => some { code := 1, calls := [] }
  | some (.ok config) => some (App.run build config (session config))

end Vtfs.Model
