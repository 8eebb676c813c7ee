import CoherenceFormal.Cache
import CoherenceFormal.Shared.IndexLoop

/-!
# The two handlers of a protocol

The five protocol classes are copies of one another with different state tests
and transitions. `ProtocolRules` collects what differs; the handlers below are
their common text. `Protocols.lean` has the five sets of rules.

A handler works on the caches and on the statistics, which the source shares
with the simulator by reference. `handleBusTransaction` returns `none` where the
source dereferences a null line or takes the back of an empty list.
-/

namespace CoherenceFormal
open LineState
set_option autoImplicit false

structure ProtocolRules (S : Type) [LineState S] where
  /-- A store to such a line needs BUS_UPGR, a hit on it counts as shared. -/
  isShared : S → Bool
  writeHit : S → S
  missAction : Bool → BusTransactionType
  isSupplier : S → Bool
  snoop : BusTransactionType → S → S
  countsReceived : BusTransactionType → Bool
  countsSent : Bool
  upgrLatency : Nat
  upgrTraffic : Nat
  /-- The requester's state after BUS_UPGR, by the shared signal. -/
  upgrState : Bool → S
  countsRead : BusTransactionType → Bool
  fillState : BusTransactionType → Bool → S
  /-- An evicted line in such a state is written back. -/
  isDirty : S → Bool
  replacement : Replacement S

structure Machine (S : Type) (n : Nat) where
  caches : Fin n → Cache S
  gStats : GlobalStatistics
  cStats : Fin n → Statistics

variable {S : Type} [LineState S] {n : Nat}

namespace Machine

def init : Machine S n := ⟨fun _ => Cache.empty, {}, fun _ => {}⟩

def setCache (m : Machine S n) (i : Fin n) (cache : Cache S) : Machine S n :=
  { m with caches := Function.update m.caches i cache }

def updStats (m : Machine S n) (i : Fin n) (f : Statistics → Statistics) : Machine S n :=
  { m with cStats := Function.update m.cStats i (f (m.cStats i)) }

def updGlobal (m : Machine S n) (f : GlobalStatistics → GlobalStatistics) : Machine S n :=
  { m with gStats := f m.gStats }

end Machine

def handleProcessorRequest (R : ProtocolRules S) (g : Geometry) (m : Machine S n) (id : Fin n)
    (addr : Addr) (isWrite : Bool) : ProtocolResponse × Machine S n :=
  let found := (m.caches id).getLine g addr
  let m := m.setCache id found.2
  match found.1 with
  | none => (⟨false, R.missAction isWrite⟩, m)
  | some line =>
    if line.state = invalid then (⟨false, R.missAction isWrite⟩, m)
    else if isWrite && R.isShared line.state then (⟨false, .busUpgr⟩, m)
    else
      let state := if isWrite then R.writeHit line.state else line.state
      let m := if isWrite then m.setCache id ((m.caches id).setLineState g addr state) else m
      let m := m.updStats id fun st =>
        if R.isShared state then { st with sharedAccesses := st.sharedAccesses + 1 }
        else { st with privateAccesses := st.privateAccesses + 1 }
      (⟨true, .none⟩, m)

structure Snooped (S : Type) (n : Nat) where
  machine : Machine S n
  sharedSignal : Bool
  supplierFound : Bool

/-- `invalidations_received`, `invalidations_sent` and `total_invalidations`. -/
def countInvalidation (R : ProtocolRules S) (type : BusTransactionType) (m : Machine S n)
    (i reqId : Fin n) : Machine S n :=
  if R.countsReceived type then
    let m := m.updStats i fun st =>
      { st with invalidationsReceived := st.invalidationsReceived + 1 }
    let m := if R.countsSent then m.updStats reqId fun st =>
      { st with invalidationsSent := st.invalidationsSent + 1 } else m
    m.updGlobal fun gs => { gs with totalInvalidations := gs.totalInvalidations + 1 }
  else m

/-- One iteration of the snooping loop. -/
def snoopCore (R : ProtocolRules S) (g : Geometry) (reqId : Fin n) (type : BusTransactionType)
    (addr : Addr) (acc : Snooped S n) (i : Fin n) : Snooped S n :=
  if i = reqId then acc
  else
    let found := (acc.machine.caches i).getLine g addr
    let m := acc.machine.setCache i found.2
    match found.1 with
    | none => { acc with machine := m }
    | some line =>
      if line.state = invalid then { acc with machine := m }
      else
        let m := m.setCache i ((m.caches i).setLineState g addr (R.snoop type line.state))
        { machine := countInvalidation R type m i reqId
          sharedSignal := true
          supplierFound := acc.supplierFound || R.isSupplier line.state }

def snoopAll (R : ProtocolRules S) (g : Geometry) (m : Machine S n) (reqId : Fin n)
    (type : BusTransactionType) (addr : Addr) : Snooped S n :=
  (List.finRange n).foldl (snoopCore R g reqId type addr) ⟨m, false, false⟩

def countWriteback (g : Geometry) (gs : GlobalStatistics) : GlobalStatistics :=
  { gs with
    busWritebacks := gs.busWritebacks + 1
    totalDataTrafficBytes := gs.totalDataTrafficBytes + g.bsize }

def countUpgrade (R : ProtocolRules S) (gs : GlobalStatistics) : GlobalStatistics :=
  { gs with
    busUpgrades := gs.busUpgrades + 1
    totalDataTrafficBytes := gs.totalDataTrafficBytes + R.upgrTraffic }

def countFill (R : ProtocolRules S) (g : Geometry) (type : BusTransactionType)
    (cacheToCache : Bool) (gs : GlobalStatistics) : GlobalStatistics :=
  { gs with
    cacheToCacheTransfers := gs.cacheToCacheTransfers + if cacheToCache then 1 else 0
    totalDataTrafficBytes := gs.totalDataTrafficBytes + g.bsize
    busReads := gs.busReads + if R.countsRead type then 1 else 0
    busReadx := gs.busReadx + if R.countsRead type then 0 else 1 }

/-- Returns the latency with the new machine. -/
def handleBusTransaction (R : ProtocolRules S) (g : Geometry) (m : Machine S n) (reqId : Fin n)
    (type : BusTransactionType) (addr : Addr) : Option (Nat × Machine S n) :=
  let snooped := snoopAll R g m reqId type addr
  let m := snooped.machine
  if type = .writeback then some (100, m.updGlobal (countWriteback g))
  else if type = .busUpgr then
    let m := m.updGlobal (countUpgrade R)
    let found := (m.caches reqId).getLine g addr
    match found.1 with
    | none => none
    | some _ =>
      some (R.upgrLatency,
        m.setCache reqId (found.2.setLineState g addr (R.upgrState snooped.sharedSignal)))
  else
    let cacheToCache := snooped.supplierFound
    let latency := if cacheToCache then 1 + 2 * (g.bsize / 4) else 101
    let m := m.updGlobal (countFill R g type cacheToCache)
    match (m.caches reqId).allocate R.replacement g addr with
    | none => none
    | some (cache, evicted) =>
      let m := m.setCache reqId
        (cache.setLineState g addr (R.fillState type snooped.sharedSignal))
      if evicted.any fun line => R.isDirty line.state then
        some (latency + 100, m.updGlobal (countWriteback g))
      else some (latency, m)

end CoherenceFormal
