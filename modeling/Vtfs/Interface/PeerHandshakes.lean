import Vtfs.Model.PeerConnection

/-!
# Handshakes

The decoder of handshakes should be the inverse of the encoder: `DecodesHandshake` says so for one
byte vector, and `AcceptsGenuine` what follows for a connection.  The text of a handshake between
its first byte and its fields is the name of the protocol (`protocolField`).
-/

set_option autoImplicit false

namespace Vtfs.Interface

open Vtfs.Library
open Vtfs.Model

/-- The bytes of a handshake that name the protocol. -/
def protocolField (data : Bytes) : Bytes := (data.drop 1).take 19

/-- A handshake is decoded from the data if and only if the data has 68 bytes and the first 68 of
them are the handshake as it is encoded. -/
def DecodesHandshake (data : Bytes) : Prop :=
  ∀ hs : Handshake, decodeHandshake data = some hs ↔
    68 ≤ data.length ∧ data.take 68 = encodeHandshake hs

/-- What there is to be read before a call of `recv` gives nothing. -/
def readable (inbound : List Bytes) : Bytes := (inbound.takeWhile (· ≠ [])).flatten

/-- A connection that takes the handshake of the peer has received the handshake, as it is
encoded, of a peer with the same info hash. -/
def AcceptsGenuine (connection : PeerConnection) (network : PeerNetwork) (inbound : List Bytes)
    (infoHash peerId : List.Vector UInt8 20) : Prop :=
  (connection.performHandshake network inbound infoHash peerId).1 = true →
    ∃ hs : Handshake, hs.infoHash = infoHash ∧
      (readable inbound).take 68 = encodeHandshake hs

/-- The data says which protocol it is of, if it is as long as a handshake and begins like one. -/
def NamesProtocol (data : Bytes) : Prop :=
  68 ≤ data.length → data[0]? = some 19 → protocolField data = protocol

/-- A connection comes to look at the handshake of the peer: there is a socket, and it takes the
handshake of this side. -/
def Exchanges (connection : PeerConnection) (network : PeerNetwork)
    (infoHash peerId : List.Vector UInt8 20) : Prop :=
  0 ≤ connection.socket ∧
    network.sendAll
      (encodeHandshake (PeerConnection.ownHandshake infoHash peerId)) = true

/-- The bytes at the place of the info hash. -/
def infoHashField (data : Bytes) : Bytes := (data.drop 28).take 20

end Vtfs.Interface
