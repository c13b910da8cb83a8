import Vtfs.Library.PercentEncoding
import Vtfs.Model.WebSeedClient

/-!
# The address of a file on the web seed

The address of a file should be that of the web seed with the path of the file after it, written
in the characters of a path.
-/

set_option autoImplicit false

namespace Vtfs.Interface

open Vtfs.Library
open Vtfs.Library.PosixPath (slash)
open Vtfs.Library.PercentEncoding (Encodes)
open Vtfs.Model

/-- A letter, a digit, a hyphen, a period, an underscore or a tilde. -/
def IsUnreserved (c : UInt8) : Prop :=
  (byte 'A' ≤ c ∧ c ≤ byte 'Z') ∨ (byte 'a' ≤ c ∧ c ≤ byte 'z') ∨ Decimal.isDigit c = true ∨
    c ∈ bytes "-._~"

/-- A character of a path that stands for itself. -/
def IsPathCharacter (c : UInt8) : Prop := IsUnreserved c ∨ c = slash

instance : DecidablePred IsPathCharacter := fun c => by
  unfold IsPathCharacter IsUnreserved; infer_instance

/-- A path with a slash at its end. -/
def endedBySlash (path : Bytes) : Bytes :=
  if path.getLast? = some slash then path else path ++ [slash]

/-- The address of a file leads to the host and the port of the web seed, and to a path under that
of the web seed, which encodes the virtual path without the slash in front and has no white space,
no line end and nothing that ends a path. -/
structure AddressesFile (c : WebSeedClient) (virtualPath url : Bytes) : Prop where
  built : c.buildFileUrl virtualPath = some url
  valid : (parseHttpUrl url).valid = true
  host : (parseHttpUrl url).host = (parseHttpUrl c.baseUrl).host
  port : (parseHttpUrl url).port = (parseHttpUrl c.baseUrl).port
  path : ∃ tail,
    (parseHttpUrl url).path = endedBySlash (parseHttpUrl c.baseUrl).path ++ tail ∧
      Encodes IsPathCharacter tail virtualPath.tail ∧ ∀ ch ∈ bytes " \r\n?#", ch ∉ tail

end Vtfs.Interface
