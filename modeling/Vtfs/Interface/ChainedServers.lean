import Vtfs.Interface.ResponseFraming

/-!
# A server as the web seed of another instance

The address of a server can be given to another instance as its web seed.  `LeadsTo` is a network
that joins the two: the request of the client reaches the server in segments, and what the client
receives is a beginning of what goes out of the answer, which may be cut short itself.  `PassesOn`
is what it takes for a download to succeed then, and `PassedOn` what it leaves.  A chain of
instances is made of downloads whose answers arrived whole.
-/

set_option autoImplicit false

namespace Vtfs.Interface

open Vtfs.Library
open Vtfs.Library.PosixPath (slash)
open Vtfs.Model

/-- A server that listens at a port: its files, what it meets while it answers one request, and
fuel for any answer. -/
structure Upstream where
  surroundings : Surroundings
  cacheDirectory : Bytes
  index : Index
  port : UInt16
  fuel : ℕ
  listening : port ≠ 0
  enough : 2 ^ 64 ≤ fuel

/-- The client that has a server as its web seed. -/
def Upstream.client (server : Upstream) : WebSeedClient := ⟨endpoint server.port⟩

/-- The request that a client makes for a path. -/
def requestMade (c : WebSeedClient) (virtualPath : Bytes) : Bytes :=
  (c.buildFileUrl virtualPath).elim [] fun url => requestFor (parseHttpUrl url)

/-- The first line of that request, where the web seed is a server. -/
def seedLine (virtualPath : Bytes) : Bytes :=
  bytes "GET " ++ slash :: percentEncodePath virtualPath.tail ++ bytes " HTTP/1.1"

/-- What the server does on a connection that it accepts, with what interrupts the answer. -/
def Upstream.answerOnWire (server : Upstream) (met : Interruptions) (segments : List Bytes) :
    Option Answered :=
  serveConnectionOnWire server.surroundings.toServedFiles met server.cacheDirectory server.index
    segments server.fuel

/-- Connections to the server are made, the request is sent and arrives in these segments, and
the client receives a beginning of what goes out for it, in whatever chunks. -/
structure LeadsTo (network : Network) (server : Upstream) (met : Interruptions)
    (virtualPath : Bytes) (segments : List Bytes) : Prop where
  connects : network.openSocket (bytes "127.0.0.1") server.port = true
  sends : network.sendRequest (requestMade server.client virtualPath) = true
  nonempty : ∀ segment ∈ segments, segment ≠ []
  arrives : segments.flatten = requestMade server.client virtualPath
  answered : ∃ answered, server.answerOnWire met segments = some answered ∧
    received network.delivery <+: answered.out

/-- Nothing cut the answer short, and all of it was received. -/
def ArrivesWhole (network : Network) (server : Upstream) (met : Interruptions)
    (segments : List Bytes) : Prop :=
  ∃ answered, server.answerOnWire met segments = some answered ∧ answered.ending = .finished ∧
    received network.delivery = answered.out

/-- The first line of the request is in the first segment, with its end, as far as the server
reads. -/
def FirstLineArrives (virtualPath : Bytes) (segments : List Bytes) : Prop :=
  ∃ first rest, segments = first :: rest ∧ seedLine virtualPath ++ crlf <+: first.take receiveLimit

/-- The first line arrives, the server has a file for the path and its headers are received, and
the client can write and rename. -/
structure PassesOn (network : Network) (server : Upstream) (fs : FileSystem) (virtualPath : Bytes)
    (segments : List Bytes) : Prop where
  line : FirstLineArrives virtualPath segments
  file : ∃ entry, lookup server.index virtualPath = some entry ∧ entry.isDirectory = false ∧
    announcement entry.size.toNat entry.size.toNat none <+: received network.delivery
  opens : fs.opens = true
  renames : fs.renames = true ∨ fs.renamesAgain = true

/-- What is passed on of a file is what the server read of it, each byte at its place; it is all of
the file if that was there, complete, and the answer arrived whole. -/
structure PassedOn (network : Network) (server : Upstream) (met : Interruptions)
    (segments : List Bytes) (entry : FileEntry) (content : Bytes) : Prop where
  length : content.length ≤ entry.size.toNat
  places : ReadFrom server.surroundings.toServedFiles server.cacheDirectory entry 0 content
  complete : ∀ payload,
    PayloadPresent server.surroundings.toServedFiles server.cacheDirectory entry payload →
      ArrivesWhole network server met segments → entry.size.toNat < 2 ^ 63 → content = payload

/-! ## Chains -/

/-- The files of an instance, and where its cache is. -/
structure Node where
  cacheDirectory : Bytes
  disk : Disk

/-- The payload of an entry. -/
def Node.payload (node : Node) (entry : FileEntry) : Option Bytes :=
  node.disk (payloadPathFor node.cacheDirectory entry)

/-- One instance has downloaded the entry from the server of another one, in an answer that arrived
whole, while the files of that one stayed as they are and could be opened. -/
inductive DownloadedFrom (files : List TorrentFileRecord) (entry : FileEntry) :
    Node → Node → Prop
  | step {up : Node} {server : Upstream} {met : Interruptions} {network : Network}
      {fs : FileSystem} {disk : Disk} {cacheDirectory : Bytes} {segments : List Bytes} :
      server.index = buildIndex files → server.cacheDirectory = up.cacheDirectory →
      (∀ attempt, server.surroundings.disk attempt = up.disk) →
      (∀ attempt, server.surroundings.opens attempt = true) →
      LeadsTo network server met entry.virtualPath segments →
      ArrivesWhole network server met segments →
      PassesOn network server fs entry.virtualPath segments →
      DownloadedFrom files entry up ⟨cacheDirectory, (downloadFile server.client network fs disk
        entry.virtualPath (payloadPathFor cacheDirectory entry)).2⟩

end Vtfs.Interface
