import Vtfs.Model.PeerProtocol

/-!
# The connection to a peer

The socket is outside: whether there is a connection, whether a vector is written whole, and what
there is to be read, is a parameter.  Every function that writes also gives the frames that were
written whole.
-/

set_option autoImplicit false

namespace Vtfs.Model

open Vtfs.Library
open Vtfs.Library.BigEndian (bytesOfWord)

/-- `TrackerPeer`. -/
structure TrackerPeer where
  host : Bytes
  port : UInt16
  deriving DecidableEq

/-- What the network does: the socket for a peer, or a negative number, and whether all of a vector
is sent. -/
structure PeerNetwork where
  connectSocket : TrackerPeer → Int32
  sendAll : Bytes → Bool

/-- `PeerConnection`. -/
structure PeerConnection where
  socket : Int32
  deriving DecidableEq

namespace PeerConnection

/-- The connection after `connectTo`, and its result.
SRCLINE: PeerConnection.cpp:94-98 -/
def connectTo (network : PeerNetwork) (peer : TrackerPeer) : PeerConnection × Bool :=
  (⟨network.connectSocket peer⟩, 0 ≤ network.connectSocket peer)

/-- A frame is sent: the result, and the frames written whole. -/
def send (connection : PeerConnection) (network : PeerNetwork) (frame : Bytes) :
    Bool × List Bytes :=
  if connection.socket < 0 then (false, [])
  else if network.sendAll frame then (true, [frame])
  else (false, [])

/-- `recvExact`: `size` bytes, or `none` for `false`.  The list is what is there to be read at each
call of `recv`; a call gives no more of it than is asked for, and none at the end of the list or
for an empty item, where its result is not positive.
SRCLINE: PeerConnection.cpp:76-88 -/
def recvExact (size : ℕ) (read : Bytes) : List Bytes → Option Bytes
  | [] => if read.length < size then none else some read
  | arrived :: rest =>
      if read.length < size then
        if arrived = [] then none
        else recvExact size (read ++ arrived.take (size - read.length)) rest
      else some read

/-- The handshake that is sent: nothing is reserved. -/
def ownHandshake (infoHash peerId : List.Vector UInt8 20) : Handshake where
  reserved := List.Vector.replicate 8 0
  infoHash := infoHash
  peerId := peerId

/-- SRCLINE: PeerConnection.cpp:100-112 -/
def performHandshake (connection : PeerConnection) (network : PeerNetwork) (inbound : List Bytes)
    (infoHash peerId : List.Vector UInt8 20) : Bool × List Bytes :=
  let (sent, frames) := connection.send network (encodeHandshake (ownHandshake infoHash peerId))
  if ¬ sent then (false, frames)
  else
    match recvExact 68 [] inbound with
    | none => (false, frames)
    | some data =>
        match decodeHandshake data with
        | none => (false, frames)
        | some decoded => (decoded.infoHash = infoHash, frames)

/-- SRCLINE: PeerConnection.cpp:114-117 -/
def sendInterested (connection : PeerConnection) (network : PeerNetwork) : Bool × List Bytes :=
  connection.send network (messageFrame ⟨interested, []⟩)

/-- The frame that asks for a block; with 12 bytes of payload it is what `encodeMessage` gives. -/
def requestFrame (pieceIndex blockOffset blockLength : UInt32) : Bytes :=
  messageFrame
    ⟨request, bytesOfWord pieceIndex ++ bytesOfWord blockOffset ++ bytesOfWord blockLength⟩

/-- SRCLINE: PeerConnection.cpp:119-135 -/
def requestBlock (connection : PeerConnection) (network : PeerNetwork)
    (pieceIndex blockOffset blockLength : UInt32) : Bool × List Bytes :=
  connection.send network (requestFrame pieceIndex blockOffset blockLength)

end PeerConnection

end Vtfs.Model
