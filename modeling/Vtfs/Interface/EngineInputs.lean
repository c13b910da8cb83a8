import Vtfs.Interface.StreamRequests

/-!
# What the engine takes from outside

Two calls are alike when they differ in nothing but what the tracker answers, and in the sockets
for peers other than the first of the bootstrap nodes.
-/

set_option autoImplicit false

namespace Vtfs.Interface

open Vtfs.Library
open Vtfs.Model

/-- The first of the bootstrap nodes. -/
def firstNode : TrackerPeer := ⟨bytes "router.bittorrent.com", 6881⟩

/-- What comes with a call is the same, as far as it is about sending and the first node. -/
inductive AlikeCalls : EngineCall → EngineCall → Prop
  | same (call : EngineCall) : AlikeCalls call call
  | pumpOnce (announced answered : Option (List TrackerPeer)) (network other : PeerNetwork) :
      network.sendAll = other.sendAll →
      network.connectSocket firstNode = other.connectSocket firstNode →
      AlikeCalls (.pumpOnce announced network) (.pumpOnce answered other)

end Vtfs.Interface
