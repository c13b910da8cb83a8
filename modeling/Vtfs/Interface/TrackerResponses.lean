import Vtfs.Interface.BencodeGrammar
import Vtfs.Library.BigEndian
import Vtfs.Model.TrackerClient

/-!
# What a tracker answers

`AnnouncesNormally` is what the caller of `announce` relies on, whatever the tracker sends: a
result, which is a response exactly when the body is a bencoded dictionary.  A compact list gives
each peer in six bytes, the number of the port in big-endian order.
-/

set_option autoImplicit false

namespace Vtfs.Interface

open Vtfs.Library
open Vtfs.Library.BigEndian (bigEndian)
open Vtfs.Library.Decimal (numeral)
open Vtfs.Model
open Vtfs.Model.TrackerClient

/-! ## Bodies -/

/-- A text of the bencode grammar, or one that is read to its end by way of a string whose end
wraps. -/
def BencodeText (text : Bytes) : Prop :=
  (∃ v, Derives text v) ∨ ∃ q, text.length ≤ q ∧ Wraps text 0 q

/-- Such a text for a dictionary. -/
structure BencodedDictionary (text : Bytes) : Prop where
  bencode : BencodeText text
  first : text.head? = some (byte 'd')

/-- What follows the header in the answer to the request. -/
def bodyOf (network : TrackerNetwork) (a : Announcement) : Option StringView :=
  (network.answer (announceRequest (TrackerClient.parseHttpUrl a.announceUrl) a)).body

/-- There is a connection to the tracker. -/
structure Connects (network : TrackerNetwork) (a : Announcement) : Prop where
  valid : (TrackerClient.parseHttpUrl a.announceUrl).valid = true
  opened : network.openSocket (TrackerClient.parseHttpUrl a.announceUrl).host
    (TrackerClient.parseHttpUrl a.announceUrl).port = true

/-- `announce` returns with this result. -/
def Announces (network : TrackerNetwork) (a : Announcement) (result : Option TrackerResponse) :
    Prop :=
  ∃ fuel s, announce network a fuel = .value result s

/-- `announce` returns, with a response exactly when the answer has a header and then a bencoded
dictionary. -/
def AnnouncesNormally (network : TrackerNetwork) (a : Announcement) : Prop :=
  ∃ result, Announces network a result ∧
    (result.isSome = true ↔
      ∃ body, bodyOf network a = some body ∧ BencodedDictionary body.bytes)

/-- `parseTrackerResponse` returns with this result. -/
def Responds (body : StringView) (result : Option TrackerResponse) : Prop :=
  ∃ fuel s, parseTrackerResponse body fuel = .value result s

/-! ## Peers -/

/-- An IPv4 address, as four bytes, and a port. -/
structure Ipv4Peer where
  a : UInt8
  b : UInt8
  c : UInt8
  d : UInt8
  port : UInt16

namespace Ipv4Peer

/-- The peer in a compact list. -/
def compact (p : Ipv4Peer) : Bytes := [p.a, p.b, p.c, p.d] ++ bigEndian 2 p.port.toNat

/-- The peer with its address in dotted decimal. -/
def dotted (p : Ipv4Peer) : TrackerPeer where
  host := numeral p.a.toNat ++ bytes "." ++ numeral p.b.toNat ++ bytes "." ++
    numeral p.c.toNat ++ bytes "." ++ numeral p.d.toNat
  port := p.port

end Ipv4Peer

/-- A compact list. -/
def compactList (peers : List Ipv4Peer) : Bytes := peers.flatMap Ipv4Peer.compact

end Vtfs.Interface
