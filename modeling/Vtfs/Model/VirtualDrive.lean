import Vtfs.Library.FirstWins
import Vtfs.Library.WindowsPath
import Vtfs.Model.TorrentSession

/-!
# The projected file system

The Windows drive shows the index of a torrent under names that Windows takes.  A file is known by
two keys, one from sanitised names and one from ASCII names with a hash; `projectedToVirtual_` maps
the keys of every leading part of a path back to virtual paths, and the first path that is entered
under a key stays.  Directories are enumerated by callbacks, which keep their place in
`enumerations_`.

Characters are wide, of 16 bits.  What Windows does, and the order in which `std::sort` leaves
equal entries, are parameters.  The callbacks for placeholders and data call `beginStreaming`, which
changes the session only; it is taken to come back here.  It does when no call that may throw does
so and `pumpOnce` does not divide by zero, as for a piece length that is not 0 in 32 bits.
-/

set_option autoImplicit false

namespace Vtfs.Model

open Vtfs.Library
open Vtfs.Library.PosixPath (slash)

/-! ## Wide text -/

/-- `std::wstring`. -/
abbrev Wide := List UInt16

/-- The wide character of an ASCII character. -/
def wideChar (c : Char) : UInt16 := c.toNat.toUInt16

/-- An ASCII text in wide characters. -/
def wideText (text : String) : Wide := text.toList.map wideChar

/-- A wide text up to its terminating zero. -/
structure PCWSTR where
  chars : Wide
  no_zero : 0 ∉ chars
  deriving DecidableEq

/-- `c_str()`, as it is read: up to the first zero. -/
def cStr (text : Wide) : PCWSTR := ⟨upTo 0 text, stop_not_mem_upTo 0 text⟩

inductive CodePage where
  | utf8
  | acp
  deriving DecidableEq

/-- `MultiByteToWideChar` for a text that is not empty; nothing when it fails. -/
abbrev MultiByteToWideChar := CodePage → Bytes → Wide

/-- SRCLINE: VirtualDrive.cpp:29-40 -/
def decodeText (decoder : MultiByteToWideChar) (value : Bytes) (codePage : CodePage) : Wide :=
  if value = [] then [] else decoder codePage value

/-- A text of the torrent in wide characters.  `char` is signed.
SRCLINE: VirtualDrive.cpp:42-50 -/
def torrentTextToWide (decoder : MultiByteToWideChar) (value : Bytes) : Wide :=
  let utf8 := decodeText decoder value .utf8
  let acp := decodeText decoder value .acp
  if utf8 ≠ [] then utf8
  else if acp ≠ [] then acp
  else value.map fun ch => ch.toInt8.toInt16.toUInt16

/-! ## Names -/

/-- The characters that Windows does not take in a name. -/
def invalidChars : Wide := wideText "<>:\"/\\|?*"

/-- A name that Windows takes.  The loop over trailing dots and spaces runs at most once, since it
leaves an underscore at the end.
SRCLINE: VirtualDrive.cpp:52-67 -/
def sanitizeWindowsComponent (name : Wide) : Wide :=
  let replaced := name.map fun ch => if ch < 32 ∨ ch ∈ invalidChars then wideChar '_' else ch
  let trimmed := match replaced.getLast? with
    | some last =>
        if last = wideChar ' ' ∨ last = wideChar '.' then replaced.dropLast ++ [wideChar '_']
        else replaced
    | none => replaced
  if trimmed = [] then [wideChar '_'] else trimmed

/-- A byte that `asciiFallbackComponent` keeps. -/
def isKept (ch : UInt8) : Bool :=
  (byte 'A' ≤ ch && ch ≤ byte 'Z') || (byte 'a' ≤ ch && ch ≤ byte 'z') ||
    (byte '0' ≤ ch && ch ≤ byte '9') || ch ∈ bytes " .-_()[]"

/-- The hash of a name. -/
def componentHash (token : Bytes) : UInt32 :=
  token.foldl (fun hash ch => (hash ^^^ ch.toUInt32) * 16777619) 2166136261

/-- `swprintf_s` with `_%08X`. -/
def hashSuffix (hash : UInt32) : Wide :=
  wideChar '_' :: (List.range 8).map fun i =>
    let digit := (hash >>> (28 - 4 * i).toUInt32 &&& 0xF).toUInt16
    if digit < 10 then wideChar '0' + digit else wideChar 'A' + (digit - 10)

/-- An ASCII name with a hash.
SRCLINE: VirtualDrive.cpp:157-179 -/
def asciiFallbackComponent (token : Bytes) : Wide :=
  let out := token.map fun ch => if isKept ch then ch.toUInt16 else wideChar '_'
  let named := if out = [] then wideText "file" else out
  sanitizeWindowsComponent (named ++ hashSuffix (componentHash token))

/-- The tokens that the loops over a path take: the parts between slashes, without the last one
when it is empty, since `start` is then at the end. -/
def pathTokens (path : Bytes) : List Bytes :=
  let parts := pieces slash path
  if parts.getLast? = some [] then parts.dropLast else parts

/-- SRCLINE: VirtualDrive.cpp:101-117 -/
def relativeProjectedPathFor (decoder : MultiByteToWideChar) (path : Bytes) (forceAscii : Bool) :
    Wide :=
  (pathTokens path).foldl (fun out token =>
    (if out = [] then out else out ++ [wideChar '/']) ++
      if forceAscii then asciiFallbackComponent token
      else sanitizeWindowsComponent (torrentTextToWide decoder token)) []

/-- SRCLINE: VirtualDrive.cpp:119-121 -/
def projectedLookupKey (decoder : MultiByteToWideChar) (path : Bytes) (forceAscii : Bool) : Wide :=
  wideChar '/' :: relativeProjectedPathFor decoder path forceAscii

/-- The tokens of a projected path, taken by the same loop. -/
def projectedTokens (path : Wide) : List Wide :=
  let parts := pieces (wideChar '/') path
  if parts.getLast? = some [] then parts.dropLast else parts

/-- Where a file of the torrent is put in the sparse tree.
SRCLINE: VirtualDrive.cpp:181-194 -/
def materializedPath (decoder : MultiByteToWideChar) (root : Wide) (torrentRelativePath : Bytes)
    (forceAscii : Bool) : Wide :=
  (projectedTokens (relativeProjectedPathFor decoder torrentRelativePath forceAscii)).foldl
    WindowsPath.append root

/-- A path of a callback with slashes only, one in front and none at the end.
SRCLINE: VirtualDrive.cpp:85-99 -/
def normalizeProjectedPath (filePathName : PCWSTR) : Wide :=
  let out := filePathName.chars.map fun ch => if ch = wideChar '\\' then wideChar '/' else ch
  wideChar '/' :: out.rdropWhile (· = wideChar '/')

/-! ## The projected names -/

/-- `projectedToVirtual_`, where `emplace` lets a key that is there keep its path. -/
abbrev ProjectedNames := Wide → Option Bytes

/-- One round of the loop of `registerProjectedPath`: the virtual path so far, and the names. -/
def registerToken (decoder : MultiByteToWideChar) (soFar : Bytes × ProjectedNames) (token : Bytes) :
    Bytes × ProjectedNames :=
  let currentVirtual := (if soFar.1 = [] then soFar.1 else soFar.1 ++ [slash]) ++ token
  let displayed := FirstWins.emplace soFar.2 (projectedLookupKey decoder currentVirtual false)
    (slash :: currentVirtual)
  (currentVirtual, FirstWins.emplace displayed (projectedLookupKey decoder currentVirtual true)
    (slash :: currentVirtual))

/-- SRCLINE: VirtualDrive.cpp:358-375 -/
def registerProjectedPath (decoder : MultiByteToWideChar) (names : ProjectedNames) (path : Bytes) :
    ProjectedNames :=
  ((pathTokens path).foldl (registerToken decoder) ([], names)).2

/-- SRCLINE: VirtualDrive.cpp:349-356 -/
def buildProjectedNameIndex (decoder : MultiByteToWideChar) (files : List TorrentFileRecord) :
    ProjectedNames :=
  files.foldl (fun names file => registerProjectedPath decoder names file.relativePath)
    (Function.update (fun _ => none) [wideChar '/'] (some [slash]))

/-! ## The provider -/

/-- What the provider gets from Windows and from the standard library. -/
structure ProjFs where
  multiByteToWideChar : MultiByteToWideChar
  fileNameMatch : PCWSTR → PCWSTR → Bool
  fileNameCompare : PCWSTR → PCWSTR → ℤ
  sort : (FileEntry → FileEntry → Bool) → List FileEntry → List FileEntry

/-- What does not change while the drive is mounted. -/
structure ProjFsProvider where
  system : ProjFs
  session : Index
  projectedToVirtual : ProjectedNames

/-- `mount`, for the files of a torrent. -/
def ProjFsProvider.mount (system : ProjFs) (files : List TorrentFileRecord) : ProjFsProvider where
  system := system
  session := buildIndex files
  projectedToVirtual := buildProjectedNameIndex system.multiByteToWideChar files

namespace ProjFsProvider

variable (provider : ProjFsProvider)

/-- SRCLINE: VirtualDrive.cpp:377-383 -/
def lookupProjectedEntry (filePathName : PCWSTR) : Option FileEntry :=
  match provider.projectedToVirtual (normalizeProjectedPath filePathName) with
  | some path => lookup provider.session path
  | none => none

/-- SRCLINE: VirtualDrive.cpp:385-391 -/
def listProjectedDirectory (filePathName : PCWSTR) : List FileEntry :=
  match provider.projectedToVirtual (normalizeProjectedPath filePathName) with
  | some path => listDirectory provider.session path
  | none => []

/-- The part of a virtual path after its last slash. -/
def leafOf (virtualPath : Bytes) : Bytes :=
  match beforeLast slash virtualPath with
  | some front => virtualPath.drop (front.length + 1)
  | none => virtualPath

/-- The name under which an entry is enumerated. -/
def emittedName (entry : FileEntry) : PCWSTR :=
  cStr (torrentTextToWide provider.system.multiByteToWideChar (leafOf entry.virtualPath))

end ProjFsProvider

/-! ## Enumerations -/

/-- `GUID`. -/
structure GUID where
  bytes : List UInt8
  size : bytes.length = 16
  deriving DecidableEq

/-- A lower-case hexadecimal digit. -/
def lowerHexDigit (d : UInt8) : UInt8 := if d < 10 then byte '0' + d else byte 'a' + (d - 10)

/-- SRCLINE: VirtualDrive.cpp:243-253 -/
def guidKey (guid : GUID) : Bytes :=
  guid.bytes.flatMap fun b : UInt8 => [lowerHexDigit (b >>> 4 &&& 0xF), lowerHexDigit (b &&& 0xF)]

/-- The entries of an enumeration, and the index of the next one. -/
structure EnumerationState where
  entries : List FileEntry
  nextIndex : ℕ

/-- `enumerations_`. -/
abbrev Enumerations := Bytes → Option EnumerationState

/-- A result of Windows: negative when it is a failure. -/
abbrev HRESULT := Int32

/-- `FAILED`. -/
def failed (result : HRESULT) : Bool := result < 0

/-- `HRESULT_FROM_WIN32(ERROR_INSUFFICIENT_BUFFER)`. -/
def insufficientBuffer : HRESULT := Int32.ofNat 0x8007007A

/-- The arguments of `getDirEnum`: `fill` has the results of `PrjFillDirEntryBuffer`, call by
call. -/
structure GetDirEnum where
  enumerationId : GUID
  filePathName : PCWSTR
  restartScan : Bool
  searchExpression : Option PCWSTR
  fill : ℕ → HRESULT

/-- The loop over the entries from `nextIndex` on: the entries that were added to the buffer, and
the result of the callback.  `n` calls of `PrjFillDirEntryBuffer` were made before. -/
def fillLoop (fill : ℕ → HRESULT) : ℕ → List FileEntry → List FileEntry × HRESULT
  | _, [] => ([], 0)
  | n, entry :: rest =>
      if fill n = insufficientBuffer then ([], 0)
      else if failed (fill n) then ([], fill n)
      else
        let (added, result) := fillLoop fill (n + 1) rest
        (entry :: added, result)

namespace ProjFsProvider

variable (provider : ProjFsProvider)

/-- The test of the search expression. -/
def isMatch (searchExpression : Option PCWSTR) (entry : FileEntry) : Bool :=
  match searchExpression with
  | none => true
  | some expr =>
      if expr.chars = [] then true
      else provider.system.fileNameMatch (provider.emittedName entry) expr

/-- The order of the entries. -/
def isBefore (a b : FileEntry) : Bool :=
  provider.system.fileNameCompare (provider.emittedName a) (provider.emittedName b) < 0

/-- The entries that a scan goes through. -/
def scanEntries (filePathName : PCWSTR) (searchExpression : Option PCWSTR) : List FileEntry :=
  provider.system.sort provider.isBefore
    ((provider.listProjectedDirectory filePathName).filter (provider.isMatch searchExpression))

/-- SRCLINE: VirtualDrive.cpp:485-490 -/
def startDirEnum (enumerations : Enumerations) (enumerationId : GUID) : Enumerations :=
  Function.update enumerations (guidKey enumerationId) (some ⟨[], 0⟩)

/-- SRCLINE: VirtualDrive.cpp:492-497 -/
def endDirEnum (enumerations : Enumerations) (enumerationId : GUID) : Enumerations :=
  Function.update enumerations (guidKey enumerationId) none

/-- The enumerations after the callback, the entries it added to the buffer, and its result.
SRCLINE: VirtualDrive.cpp:499-545 -/
def getDirEnum (enumerations : Enumerations) (call : GetDirEnum) :
    Enumerations × List FileEntry × HRESULT :=
  let key := guidKey call.enumerationId
  let state := (enumerations key).getD ⟨[], 0⟩
  let scan :=
    if call.restartScan ∨ state.entries = [] then
      ⟨provider.scanEntries call.filePathName call.searchExpression, 0⟩
    else state
  let (added, result) := fillLoop call.fill 0 (scan.entries.drop scan.nextIndex)
  (Function.update enumerations key
    (some { scan with nextIndex := scan.nextIndex + added.length }), added, result)

end ProjFsProvider

/-! ## Reads -/

/-- `HRESULT_FROM_WIN32(ERROR_FILE_NOT_FOUND)`. -/
def fileNotFound : HRESULT := Int32.ofNat 0x80070002

/-- `HRESULT_FROM_WIN32(ERROR_FILE_OFFLINE)`. -/
def fileOffline : HRESULT := Int32.ofNat 0x800710FE

/-- `E_OUTOFMEMORY`. -/
def outOfMemory : HRESULT := Int32.ofNat 0x8007000E

/-- The arguments of `getFileData`, and what it meets: whether there is a buffer, the result of the
one call of `PrjWriteFileData`, and, at each attempt to read, the files, whether a file that is
there can be opened, and whether the file is hydrating. -/
structure GetFileData where
  filePathName : PCWSTR
  byteOffset : UInt64
  length : UInt32
  allocates : Bool
  writeFileData : HRESULT
  disk : ℕ → Disk
  opens : ℕ → Bool
  hydrating : ℕ → Bool

/-- A call of `PrjWriteFileData`: the bytes, where they are put, and the result. -/
structure FileDataWrite where
  byteOffset : UInt64
  data : Bytes
  result : HRESULT
  deriving DecidableEq

/-- The attempts of `getFileData`, with those that are left and the number made so far. -/
def readAttempts (cacheDirectory : Bytes) (call : GetFileData) (entry : FileEntry) :
    ℕ → ℕ → HRESULT × List FileDataWrite
  | 0, _ => (fileOffline, [])
  | left + 1, made =>
      let read := tryReadFileRange (call.disk made) (call.opens made) cacheDirectory entry
        call.byteOffset call.length
      if read.ready ∧ read.data ≠ [] then
        (call.writeFileData, [⟨call.byteOffset, read.data, call.writeFileData⟩])
      else if read.ready ∧ read.data = [] ∧ ¬ call.hydrating made then (fileOffline, [])
      else readAttempts cacheDirectory call entry left (made + 1)

/-- The number of attempts of `getFileData`. -/
def readAttemptLimit : ℕ := 1200

/-- The result of the callback, and the calls of `PrjWriteFileData` it made.  The calls into the
session are taken to come back.
SRCLINE: VirtualDrive.cpp:564-595 -/
def ProjFsProvider.getFileData (provider : ProjFsProvider) (cacheDirectory : Bytes)
    (call : GetFileData) : HRESULT × List FileDataWrite :=
  match provider.lookupProjectedEntry call.filePathName with
  | none => (fileNotFound, [])
  | some entry =>
      if entry.isDirectory then (fileNotFound, [])
      else if ¬ call.allocates then (outOfMemory, [])
      else readAttempts cacheDirectory call entry readAttemptLimit 0

/-! ## Placeholders -/

/-- The members of `PRJ_PLACEHOLDER_INFO` that are set. -/
structure PlaceholderInfo where
  isDirectory : Bool
  fileSize : Int64
  deriving DecidableEq

/-- The result of the callback, which for an entry is that of `PrjWritePlaceholderInfo`, and what
is written.  The call of `beginStreaming` is taken to come back.
SRCLINE: VirtualDrive.cpp:547-562 -/
def ProjFsProvider.getPlaceholderInfo (provider : ProjFsProvider) (filePathName : PCWSTR)
    (writePlaceholderInfo : HRESULT) : HRESULT × Option PlaceholderInfo :=
  match provider.lookupProjectedEntry filePathName with
  | none => (fileNotFound, none)
  | some entry => (writePlaceholderInfo, some ⟨entry.isDirectory, entry.size.toInt64⟩)

end Vtfs.Model
