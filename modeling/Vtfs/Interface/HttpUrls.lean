import Vtfs.Interface.BencodeGrammar
import Vtfs.Model.TrackerClient

/-!
# Addresses and their parts

`SpellsUrl` says what an address with a host, a port and a path looks like, and `Exact` that a
function finds these parts in the addresses that have them, and rejects all others.
-/

set_option autoImplicit false

namespace Vtfs.Interface

open Vtfs.Library
open Vtfs.Library.Decimal (value)
open Vtfs.Library.PosixPath (slash)
open Vtfs.Model

/-- A decimal number of 16 bits. -/
def SpellsPort (text : Bytes) (port : UInt16) : Prop := IsNumeral text ∧ value text = port.toNat

/-- The port after a host: none, which stands for 80, or a colon and a number. -/
inductive PortPart : Bytes → UInt16 → Prop
  | absent : PortPart [] 80
  | present {text : Bytes} {port : UInt16} : SpellsPort text port → PortPart (byte ':' :: text) port

/-- What a path looks like: none, which stands for the root, or anything that begins with a
slash. -/
inductive PathPart : Bytes → Bytes → Prop
  | absent : PathPart [] [slash]
  | present (rest : Bytes) : PathPart (slash :: rest) (slash :: rest)

/-- The parts of an address: the scheme, a host, a port and a path. -/
inductive SpellsUrl : Bytes → Bytes → UInt16 → Bytes → Prop
  | parts {host portPart pathPart path : Bytes} {port : UInt16} :
      host ≠ [] → byte ':' ∉ host → slash ∉ host → PortPart portPart port →
      PathPart pathPart path →
      SpellsUrl (bytes "http://" ++ (host ++ portPart ++ pathPart)) host port path

/-- An address is valid exactly when it has parts, and the parts are found. -/
structure Exact (parseUrl : Bytes → UrlParts) (url : Bytes) : Prop where
  valid_iff : (parseUrl url).valid = true ↔ ∃ host port path, SpellsUrl url host port path
  parts : ∀ host port path, SpellsUrl url host port path →
    parseUrl url = { host, port, path, valid := true }

/-- Where a host is followed by a colon, what stands between it and the path is a number of
16 bits. -/
def PortInOrder (url : Bytes) : Prop :=
  ∀ host text pathPart path, url = bytes "http://" ++ (host ++ byte ':' :: text ++ pathPart) →
    host ≠ [] → byte ':' ∉ host → slash ∉ host → slash ∉ text → PathPart pathPart path →
    ∃ port, SpellsPort text port

end Vtfs.Interface
