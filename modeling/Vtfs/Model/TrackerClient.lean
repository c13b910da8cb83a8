import Vtfs.Model.Bencode
import Vtfs.Model.PeerConnection
import Vtfs.Model.WebSeedClient

/-!
# The tracker client

`announce` asks a tracker for peers and reads all that the tracker sends until it closes the
connection.  What follows the header is parsed as bencode; the parser may throw, and may run for
ever, and so may `announce`.  The host name service and the sockets are outside: what they answer
is a parameter.

The bytes of the peers are read through a pointer, which is not checked; the model keeps the
positions that are read, which the code does not have.
-/

set_option autoImplicit false

namespace Vtfs.Model

open Vtfs.Library
open Vtfs.Library.Decimal (numeral)
open Vtfs.Library.PosixPath (slash)

/-- `TrackerResponse`. -/
structure TrackerResponse where
  intervalSeconds : UInt32
  peers : List TrackerPeer
  deriving DecidableEq

namespace TrackerClient

/-! ## Addresses -/

/-- The parts of an address, in the copy that the tracker client has: without the scheme the path
is empty.
SRCLINE: TrackerClient.cpp:43-65 -/
def parseHttpUrl (url : Bytes) : UrlParts :=
  let scheme := bytes "http://"
  if ¬ scheme <+: url then { host := [], port := 80, path := [], valid := false }
  else
    let rest := url.drop scheme.length
    let hostPort := upTo slash rest
    let path := if slash ∈ rest then rest.drop hostPort.length else [slash]
    if byte ':' ∉ hostPort then { host := hostPort, port := 80, path, valid := hostPort ≠ [] }
    else
      let host := upTo (byte ':') hostPort
      let portToken := hostPort.drop (host.length + 1)
      let port := match Decimal.fromCharsUnsigned (2 ^ 16) portToken with
        | some (number, _) => number.toUInt16
        | none => 0
      { host, port, path, valid := host ≠ [] }

/-- Bytes in hexadecimal.
SRCLINE: TrackerClient.cpp:34-41 -/
def percentEncode (data : Bytes) : Bytes :=
  data.flatMap fun (ch : UInt8) => [byte '%', upperHexDigit (ch >>> 4), upperHexDigit (ch &&& 0xF)]

/-- The arguments of `announce`. -/
structure Announcement where
  announceUrl : Bytes
  infoHash : Bytes
  peerId : Bytes
  downloaded : UInt64
  left : UInt64
  uploaded : UInt64

/-- The path that is asked for.
SRCLINE: TrackerClient.cpp:156-163 -/
def announcePath (url : UrlParts) (a : Announcement) : Bytes :=
  url.path ++ (if byte '?' ∉ url.path then bytes "?" else bytes "&") ++
    bytes "info_hash=" ++ percentEncode a.infoHash ++
    bytes "&peer_id=" ++ percentEncode a.peerId ++
    bytes "&port=6881&uploaded=" ++ numeral a.uploaded.toNat ++
    bytes "&downloaded=" ++ numeral a.downloaded.toNat ++
    bytes "&left=" ++ numeral a.left.toNat ++ bytes "&compact=1&event=started"

/-- The request.
SRCLINE: TrackerClient.cpp:165-169 -/
def announceRequest (url : UrlParts) (a : Announcement) : Bytes :=
  bytes "GET " ++ announcePath url a ++ bytes " HTTP/1.1\r\nHost: " ++ url.host ++
    bytes "\r\nUser-Agent: torrentfs\r\nConnection: close\r\n\r\n"

/-! ## Receiving -/

/-- The results of `recv` up to the first one that is not positive: bytes, never none of them and
never more than the buffer takes.  All of them together are put into one `std::string`. -/
structure Transmission where
  chunks : List Bytes
  nonempty : ∀ chunk ∈ chunks, chunk ≠ []
  fits : ∀ chunk ∈ chunks, chunk.length ≤ 4096
  size_lt : chunks.flatten.length < sizeLimit

/-- The receive loop.
SRCLINE: TrackerClient.cpp:177-189 -/
def receiveLoop : Bytes → List Bytes → Bytes
  | response, [] => response
  | response, received :: rest => receiveLoop (response ++ received) rest

/-- The loop appends all chunks. -/
theorem receiveLoop_eq (response : Bytes) (chunks : List Bytes) :
    receiveLoop response chunks = response ++ chunks.flatten := by
  induction chunks generalizing response with
  | nil => simp [receiveLoop]
  | cons received rest ih => rw [receiveLoop, ih, List.flatten_cons, List.append_assoc]

namespace Transmission

/-- All that is received. -/
def received (t : Transmission) : Bytes := receiveLoop [] t.chunks

/-- What is received is the chunks, one after the other. -/
theorem received_eq (t : Transmission) : t.received = t.chunks.flatten := by
  rw [received, receiveLoop_eq, List.nil_append]

/-- A body is smaller than what was received, which has a size. -/
theorem size_lt_of_cutAt {t : Transmission} {before after : Bytes}
    (h : cutAt endOfHeader t.received = some (before, after)) : after.length < sizeLimit := by
  have hreceived := congrArg List.length (eq_of_cutAt h)
  have hsize := t.size_lt
  rw [← t.received_eq] at hsize
  simp only [List.length_append] at hreceived
  omega

/-- What follows the first end of a header, if there is one.
SRCLINE: TrackerClient.cpp:192-196 -/
def body (t : Transmission) : Option StringView :=
  match h : cutAt endOfHeader t.received with
  | none => none
  | some (_, body) => some ⟨body, size_lt_of_cutAt h⟩

/-- What follows the empty line is the body. -/
theorem body_of_cutAt {t : Transmission} {before after : Bytes}
    (h : cutAt endOfHeader t.received = some (before, after)) :
    ∃ hsize, t.body = some ⟨after, hsize⟩ := by
  unfold body
  split
  · rename_i hnone
    exact absurd (hnone.symm.trans h) nofun
  · rename_i body hsome
    obtain ⟨rfl, rfl⟩ := Prod.mk.inj (Option.some.inj (hsome.symm.trans h))
    exact ⟨size_lt_of_cutAt h, rfl⟩

end Transmission

/-! ## Responses -/

/-- The peers of a compact list, and the positions that were read. -/
structure CompactPeers where
  peers : List TrackerPeer
  reads : List ℕ

/-- The peer in the six bytes from `i` on. -/
def peerAt (blob : Bytes) (i : ℕ) : TrackerPeer :=
  let byteAt (k : ℕ) : UInt8 := blob.getD (i + k) 0
  { host := numeral (byteAt 0).toNat ++ bytes "." ++ numeral (byteAt 1).toNat ++ bytes "." ++
      numeral (byteAt 2).toNat ++ bytes "." ++ numeral (byteAt 3).toNat
    port := (byteAt 4).toUInt16 <<< 8 ||| (byteAt 5).toUInt16 }

/-- The loop over the compact list.  The sum `i + 5` does not wrap: no `std::string` has as many as
`2 ^ 64 - 5` bytes.
SRCLINE: TrackerClient.cpp:125-134 -/
def peersLoop (blob : Bytes) (i : ℕ) (sofar : CompactPeers) : CompactPeers :=
  if i + 5 < blob.length then
    peersLoop blob (i + 6)
      ⟨sofar.peers ++ [peerAt blob i], sofar.reads ++ [i, i + 1, i + 2, i + 3, i + 4, i + 5]⟩
  else sofar
  termination_by blob.length - i

/-- The peers of a compact list. -/
def compactPeers (blob : Bytes) : CompactPeers := peersLoop blob 0 ⟨[], []⟩

/-- The response that a parsed body is.
SRCLINE: TrackerClient.cpp:117-136 -/
def trackerResponseOf : BencodeValue → Option TrackerResponse
  | .dictionary dict =>
      let intervalSeconds := match SortedMap.find dict (bytes "interval") with
        | some (.integer seconds) => seconds.toUInt64.toUInt32
        | _ => 1800
      let peers := match SortedMap.find dict (bytes "peers") with
        | some (.string blob) => (compactPeers blob).peers
        | _ => []
      some { intervalSeconds, peers }
  | _ => none

/-- `parseTrackerResponse`, which catches nothing.
SRCLINE: TrackerClient.cpp:115-137 -/
def parseTrackerResponse (body : StringView) (fuel : ℕ) :
    Outcome Exception ParserState (Option TrackerResponse) :=
  match parse body fuel with
  | .value root s => .value (trackerResponseOf root) s
  | .thrown e s => .thrown e s
  | .running s => .running s

/-- What the network does: whether there is a connection to a host and a port, and what is
received there after a request. -/
structure TrackerNetwork where
  openSocket : Bytes → UInt16 → Bool
  answer : Bytes → Transmission

/-- `announce`.
SRCLINE: TrackerClient.cpp:140-197 -/
def announce (network : TrackerNetwork) (a : Announcement) (fuel : ℕ) :
    Outcome Exception ParserState (Option TrackerResponse) :=
  let url := parseHttpUrl a.announceUrl
  if ¬ url.valid then .value none parserStart
  else if ¬ network.openSocket url.host url.port then .value none parserStart
  else
    match (network.answer (announceRequest url a)).body with
    | none => .value none parserStart
    | some body => parseTrackerResponse body fuel

end TrackerClient

end Vtfs.Model
