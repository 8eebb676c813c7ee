import Mathlib.Data.Fin.Basic
import Mathlib.Data.Fintype.Basic
import Mathlib.Logic.Function.Basic

/-! The shared vocabulary of the simulator (`coherence_defs.h`). Counters are
natural numbers. `total_data_traffic_bytes` and `compute_cycles` are 64-bit and
the others `int` in the source; none of them is ever read back by a decision, so
their width cannot influence a run. -/

namespace CoherenceFormal
set_option autoImplicit false

inductive BusTransactionType where
  | busRd
  | busRdx
  | busUpgr
  | writeback
  | none
  deriving Repr, DecidableEq

instance : Fintype BusTransactionType :=
  ⟨{.busRd, .busRdx, .busUpgr, .writeback, .none}, by intro type; cases type <;> decide⟩

structure ProtocolResponse where
  isHit : Bool
  busAction : BusTransactionType
  deriving Repr, DecidableEq

structure Statistics where
  computeCycles : Nat := 0
  loadCount : Nat := 0
  storeCount : Nat := 0
  cacheHits : Nat := 0
  cacheMisses : Nat := 0
  invalidationsSent : Nat := 0
  invalidationsReceived : Nat := 0
  privateAccesses : Nat := 0
  sharedAccesses : Nat := 0
  deriving Repr, DecidableEq

structure GlobalStatistics where
  totalDataTrafficBytes : Nat := 0
  totalInvalidations : Nat := 0
  busReads : Nat := 0
  busReadx : Nat := 0
  busUpgrades : Nat := 0
  busWritebacks : Nat := 0
  cacheToCacheTransfers : Nat := 0
  deriving Repr, DecidableEq

/-- A protocol's enumeration of line states. Every protocol has its own, and all
of them have an INVALID member, the state a line is created in. -/
class LineState (S : Type) where
  invalid : S
  decEq : DecidableEq S

instance (priority := low) {S : Type} [LineState S] : DecidableEq S := LineState.decEq

abbrev Addr := BitVec 32

end CoherenceFormal
