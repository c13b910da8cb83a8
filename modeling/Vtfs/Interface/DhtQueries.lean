import Vtfs.Model.DhtClient

/-!
# Queries as a node reads them

A node takes the transaction, the sender and what is asked for from a parsed message, by the names
of the entries alone.  Other entries are passed over, and a message that lacks one, or has one of
another type or size, is no query.
-/

set_option autoImplicit false

namespace Vtfs.Interface

open Vtfs.Library
open Vtfs.Model

/-- What is asked for. -/
inductive DhtQuery where
  | ping
  | findNode (target : List.Vector UInt8 20)
  | getPeers (infoHash : List.Vector UInt8 20)
  | announcePeer (infoHash : List.Vector UInt8 20) (port : UInt16) (token : Bytes)
  deriving DecidableEq

/-- A query that was received. -/
structure ReceivedQuery where
  txId : Bytes
  sender : List.Vector UInt8 20
  query : DhtQuery
  deriving DecidableEq

/-- The text under a name. -/
def textAt (entries : BencodeDictionary) (name : Bytes) : Option Bytes :=
  match SortedMap.find entries name with
  | some (.string text) => some text
  | _ => none

/-- The 20 bytes under a name. -/
def idAt (entries : BencodeDictionary) (name : Bytes) : Option (List.Vector UInt8 20) := do
  let text ← textAt entries name
  if h : text.length = 20 then some ⟨text, h⟩ else none

/-- The number under a name. -/
def numberAt (entries : BencodeDictionary) (name : Bytes) : Option ℤ :=
  match SortedMap.find entries name with
  | some (.integer number) => some number.toInt
  | _ => none

/-- The port of a sender: the one it names, unless it implies the one it sends from. -/
def portAt (args : BencodeDictionary) : Option UInt16 := do
  let number ← numberAt args (bytes "port")
  let implied := (numberAt args (bytes "implied_port")).getD 0
  if implied = 0 ∧ 0 ≤ number ∧ number < 65536 then some (UInt16.ofNat number.toNat) else none

/-- What a method with its arguments asks for. -/
def askedFor (method : Bytes) (args : BencodeDictionary) : Option DhtQuery :=
  if method = bytes "ping" then some .ping
  else if method = bytes "find_node" then (idAt args (bytes "target")).map .findNode
  else if method = bytes "get_peers" then (idAt args (bytes "info_hash")).map .getPeers
  else if method = bytes "announce_peer" then do
    let infoHash ← idAt args (bytes "info_hash")
    let port ← portAt args
    let token ← textAt args (bytes "token")
    some (.announcePeer infoHash port token)
  else none

/-- A message as a query. -/
def receivedQuery : BencodeValue → Option ReceivedQuery
  | .dictionary root =>
      match textAt root (bytes "y"), SortedMap.find root (bytes "a") with
      | some kind, some (.dictionary args) => do
          let txId ← textAt root (bytes "t")
          let method ← textAt root (bytes "q")
          let sender ← idAt args (bytes "id")
          let query ← askedFor method args
          if kind = bytes "q" then some { txId, sender, query } else none
      | _, _ => none
  | _ => none

/-- The text that a client builds for a query. -/
def builtQuery (client : DhtClient) (txId : Bytes) : DhtQuery → Bytes
  | .ping => client.buildPingQuery txId
  | .findNode target => client.buildFindNodeQuery txId target
  | .getPeers infoHash => client.buildGetPeersQuery txId infoHash
  | .announcePeer infoHash port token => client.buildAnnouncePeerQuery txId infoHash port token

end Vtfs.Interface
