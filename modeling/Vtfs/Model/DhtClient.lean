import Vtfs.Model.Bencode
import Mathlib.Data.Vector.Defs

/-!
# Queries of the distributed hash table

Each of the four queries is a dictionary with the transaction, the name of the method and the
arguments, which have the id of the client.  The texts are built only; nothing of this client is
sent, and no answer is read.
-/

set_option autoImplicit false

namespace Vtfs.Model

open Vtfs.Library

/-- `DhtClient`. -/
structure DhtClient where
  nodeId : List.Vector UInt8 20
  deriving DecidableEq

/-- SRCLINE: DhtClient.cpp:11-13 -/
def byteString (id : List.Vector UInt8 20) : BencodeValue := .string id.toList

/-- A query as a value: the arguments are in the order in which they are emplaced. -/
def queryRoot (txId method : Bytes) (args : List (Bytes × BencodeValue)) : BencodeValue :=
  .dictionary (SortedMap.emplaceAll []
    [(bytes "t", .string txId), (bytes "y", .string (bytes "q")), (bytes "q", .string method),
      (bytes "a", .dictionary (SortedMap.emplaceAll [] args))])

namespace DhtClient

variable (client : DhtClient) (txId : Bytes)

/-- SRCLINE: DhtClient.cpp:23-35 -/
def buildPingQuery : Bytes :=
  encodeBencode (queryRoot txId (bytes "ping") [(bytes "id", byteString client.nodeId)])

/-- SRCLINE: DhtClient.cpp:37-51 -/
def buildFindNodeQuery (targetId : List.Vector UInt8 20) : Bytes :=
  encodeBencode (queryRoot txId (bytes "find_node")
    [(bytes "id", byteString client.nodeId), (bytes "target", byteString targetId)])

/-- SRCLINE: DhtClient.cpp:54-67 -/
def buildGetPeersQuery (infoHash : List.Vector UInt8 20) : Bytes :=
  encodeBencode (queryRoot txId (bytes "get_peers")
    [(bytes "id", byteString client.nodeId), (bytes "info_hash", byteString infoHash)])

/-- SRCLINE: DhtClient.cpp:69-88 -/
def buildAnnouncePeerQuery (infoHash : List.Vector UInt8 20) (port : UInt16) (token : Bytes) :
    Bytes :=
  encodeBencode (queryRoot txId (bytes "announce_peer")
    [(bytes "id", byteString client.nodeId), (bytes "info_hash", byteString infoHash),
      (bytes "port", .integer (Int64.ofNat port.toNat)), (bytes "token", .string token),
      (bytes "implied_port", .integer 0)])

end DhtClient

end Vtfs.Model
