import Vtfs.Model.Bencode
import Vtfs.Model.Sha1

/-!
# The metadata of a torrent file

`loadFromFile` reads the whole file, parses it, and takes the fields it needs out of the root
dictionary; the first field that is missing or has another type ends it with an exception.
Integers of the file are signed; sizes are unsigned, so a negative length is a size near
`2 ^ 64`, and sizes are added modulo `2 ^ 64`.
-/

set_option autoImplicit false

namespace Vtfs.Model

open Vtfs.Library

/-! ## Access to values -/

/-- `std::get<BencodeInteger>`. -/
def BencodeValue.asInteger : BencodeValue → Except Exception Int64
  | .integer value => .ok value
  | _ => .error .badVariantAccess

/-- `std::get<BencodeString>`. -/
def BencodeValue.asString : BencodeValue → Except Exception Bytes
  | .string value => .ok value
  | _ => .error .badVariantAccess

/-- `std::get<BencodeList>`. -/
def BencodeValue.asList : BencodeValue → Except Exception (List BencodeValue)
  | .list items => .ok items
  | _ => .error .badVariantAccess

/-- The value of a key that must be there.
SRCLINE: TorrentMetadata.cpp:14-20 -/
def requireKey (dict : BencodeDictionary) (key : String) : Except Exception BencodeValue :=
  match SortedMap.find dict (bytes key) with
  | none => .error (.runtimeError ("Missing torrent key: " ++ key))
  | some value => .ok value

/-- One round of the loop of `joinPathList`: a separator unless nothing was written so far, then
the part. -/
def joinPart (out : Bytes) : BencodeValue → Except Exception Bytes
  | .string part => .ok ((if out = [] then out else out ++ [byte '/']) ++ part)
  | _ => .error (.runtimeError "Torrent path component must be a string.")

/-- The parts of a path, joined.
SRCLINE: TorrentMetadata.cpp:22-34 -/
def joinPathList (pathParts : List BencodeValue) : Except Exception Bytes :=
  pathParts.foldlM joinPart []

/-! ## The metadata -/

/-- A file of the torrent. -/
structure TorrentFileRecord where
  relativePath : Bytes
  size : UInt64
  offset : UInt64
  deriving DecidableEq

/-- The metadata. -/
structure TorrentMetadata where
  name : Bytes
  infoHashHex : Bytes
  announceUrl : Bytes
  totalSize : UInt64
  pieceLength : UInt64
  pieceCount : ℕ
  pieceHashes : List Bytes
  files : List TorrentFileRecord
  deriving DecidableEq

/-- The announce URL, or the empty string when there is none. -/
def announceUrlOf (root : BencodeDictionary) : Bytes :=
  match SortedMap.find root (bytes "announce") with
  | some (.string url) => url
  | _ => []

/-- One round of the loop over the file entries: the offset of the next file, the total size and
the records so far. -/
def addFile (name : Bytes) (soFar : UInt64 × UInt64 × List TorrentFileRecord)
    (fileValue : BencodeValue) : Except Exception (UInt64 × UInt64 × List TorrentFileRecord) :=
  match fileValue with
  | .dictionary fileDict => do
      let parts ← (← requireKey fileDict "path").asList
      let path ← joinPathList parts
      let length ← (← requireKey fileDict "length").asInteger
      let (offset, totalSize, files) := soFar
      let record : TorrentFileRecord :=
        { relativePath := name ++ byte '/' :: path, size := length.toUInt64, offset := offset }
      pure (offset + record.size, totalSize + record.size, files ++ [record])
  | _ => .error (.runtimeError "Torrent file entry must be a dictionary.")

/-- The total size and the records of the files. -/
def filesOf (name : Bytes) (info : BencodeDictionary) :
    Except Exception (UInt64 × List TorrentFileRecord) :=
  match SortedMap.find info (bytes "files") with
  | some (.list fileValues) => do
      let (_, totalSize, files) ← fileValues.foldlM (addFile name) (0, 0, [])
      pure (totalSize, files)
  | some _ => .error (.runtimeError "Torrent files entry must be a list.")
  | none => do
      let length ← (← requireKey info "length").asInteger
      pure (length.toUInt64,
        [{ relativePath := name, size := length.toUInt64, offset := 0 }])

/-- The metadata of a parsed torrent.
SRCLINE: TorrentMetadata.cpp:44-97 -/
def metadataOf (rootValue : BencodeValue) : Except Exception TorrentMetadata :=
  match rootValue with
  | .dictionary root => do
      let announceUrl := announceUrlOf root
      match ← requireKey root "info" with
      | .dictionary info => do
          let name ← (← requireKey info "name").asString
          let pieceLength ← (← requireKey info "piece length").asInteger
          let piecesRaw ← (← requireKey info "pieces").asString
          let pieceCount := piecesRaw.length / 20
          let pieceHashes := (List.range pieceCount).map fun i =>
            (piecesRaw.drop (i * 20)).take 20
          let infoHashHex := Sha1.toHex (Sha1.digest (encodeBencode (.dictionary info)))
          let (totalSize, files) ← filesOf name info
          pure { name, infoHashHex, announceUrl, totalSize, pieceLength := pieceLength.toUInt64,
                 pieceCount, pieceHashes, files }
      | _ => .error (.runtimeError "Torrent info must be a dictionary.")
  | _ => .error (.runtimeError "Torrent root must be a dictionary.")

/-- `loadFromFile`, for a path and the contents of the file there (`none` when it cannot be
opened).
SRCLINE: TorrentMetadata.cpp:37-98 -/
def loadFromFile (path : String) (file : Option StringView) (fuel : ℕ) :
    Outcome Exception ParserState TorrentMetadata :=
  match file with
  | none => .thrown (.runtimeError ("Unable to open torrent file: " ++ path)) parserStart
  | some raw =>
      match parse raw fuel with
      | .value rootValue s =>
          match metadataOf rootValue with
          | .ok metadata => .value metadata s
          | .error e => .thrown e s
      | .thrown e s => .thrown e s
      | .running s => .running s

/-- The file is accepted, with this metadata. -/
def Accepts (raw : StringView) (metadata : TorrentMetadata) : Prop :=
  ∃ path fuel s, loadFromFile path (some raw) fuel = .value metadata s

end Vtfs.Model
