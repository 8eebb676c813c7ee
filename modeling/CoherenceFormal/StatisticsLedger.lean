import CoherenceFormal.WaitingRequests

/-!
# The statistics balance

The simulator counts an access when it is fetched, the protocol counts a transaction
when it is granted, and the snooping loop counts the copies it finds. No event leaves
the counters out of balance.
-/

namespace CoherenceFormal
open LineState
set_option autoImplicit false

variable {S : Type} {n : Nat}

/-! ### One core -/

structure Statistics.Balanced (st : Statistics) : Prop where
  accesses : st.cacheHits + st.cacheMisses = st.loadCount + st.storeCount
  hits : st.privateAccesses + st.sharedAccesses = st.cacheHits

/-- From `st` to `st'` a core has counted an entry, and `missed` misses. -/
structure Statistics.Counts (st st' : Statistics) (missed : Nat) : Prop where
  balanced : st.Balanced → st'.Balanced
  misses : st'.cacheMisses = st.cacheMisses + missed
  received : st'.invalidationsReceived = st.invalidationsReceived
  sent : st'.invalidationsSent = st.invalidationsSent

theorem Statistics.counts_compute (st : Statistics) (cycles : Nat) :
    st.Counts { st with computeCycles := st.computeCycles + cycles } 0 :=
  ⟨fun h => ⟨h.accesses, h.hits⟩, rfl, rfl, rfl⟩

/-- The count of a load or store that `access` makes. -/
def Statistics.countAccess (isWrite : Bool) (st : Statistics) : Statistics :=
  if isWrite then { st with storeCount := st.storeCount + 1 }
  else { st with loadCount := st.loadCount + 1 }

/-- The count of a hit that the protocol makes. -/
def Statistics.countHit (shared : Bool) (st : Statistics) : Statistics :=
  if shared then { st with sharedAccesses := st.sharedAccesses + 1 }
  else { st with privateAccesses := st.privateAccesses + 1 }

theorem Statistics.counts_hit (st : Statistics) (isWrite shared : Bool) :
    st.Counts { (st.countAccess isWrite).countHit shared with
      cacheHits := ((st.countAccess isWrite).countHit shared).cacheHits + 1 } 0 := by
  refine ⟨?_, ?_, ?_, ?_⟩
  · intro h
    have haccesses := h.accesses
    have hhits := h.hits
    constructor
    · cases isWrite <;> cases shared <;> simp [countAccess, countHit] <;> omega
    · cases isWrite <;> cases shared <;> simp [countAccess, countHit] <;> omega
  · cases isWrite <;> cases shared <;> rfl
  · cases isWrite <;> cases shared <;> rfl
  · cases isWrite <;> cases shared <;> rfl

theorem Statistics.counts_miss (st : Statistics) (isWrite : Bool) :
    st.Counts { st.countAccess isWrite with
      cacheMisses := (st.countAccess isWrite).cacheMisses + 1 } 1 := by
  refine ⟨?_, ?_, ?_, ?_⟩
  · intro h
    have haccesses := h.accesses
    have hhits := h.hits
    constructor
    · cases isWrite <;> simp [countAccess] <;> omega
    · cases isWrite <;> simp [countAccess] <;> omega
  · cases isWrite <;> rfl
  · cases isWrite <;> rfl
  · cases isWrite <;> rfl

variable [LineState S]

theorem handleProcessorRequest_cStats (R : ProtocolRules S) (g : Geometry) (m : Machine S n)
    (id : Fin n) (addr : Addr) (isWrite : Bool) : ∃ shared,
      (handleProcessorRequest R g m id addr isWrite).2.cStats =
        if (handleProcessorRequest R g m id addr isWrite).1.isHit
        then Function.update m.cStats id ((m.cStats id).countHit shared) else m.cStats := by
  simp only [handleProcessorRequest]
  split
  · exact ⟨false, rfl⟩
  · split
    · exact ⟨false, rfl⟩
    · split
      · exact ⟨false, rfl⟩
      · rename_i line _ _ _
        refine ⟨R.isShared (if isWrite then R.writeHit line.state else line.state), ?_⟩
        rw [if_pos rfl]
        cases isWrite <;> rfl

/-! ### Invalidations -/

namespace Machine

/-- Every counted invalidation has a receiver and, unless the protocol counts none, a
sender. -/
structure InvalidationsBalanced (R : ProtocolRules S) (m : Machine S n) : Prop where
  received : m.gStats.totalInvalidations = ∑ i, (m.cStats i).invalidationsReceived
  sent : R.countsSent = true →
    m.gStats.totalInvalidations = ∑ i, (m.cStats i).invalidationsSent

omit [LineState S] in
theorem sum_updStats (m : Machine S n) (i : Fin n) {f : Statistics → Statistics}
    (key : Statistics → Nat) {d : Nat} (hf : ∀ st, key (f st) = key st + d) :
    ∑ j, key ((m.updStats i f).cStats j) = ∑ j, key (m.cStats j) + d := by
  have hsum := IndexLoop.sum_update key m.cStats i (f (m.cStats i))
  rw [hf] at hsum
  change ∑ j, key (Function.update m.cStats i (f (m.cStats i)) j) = _
  omega

end Machine

def Statistics.receive (st : Statistics) : Statistics :=
  { st with invalidationsReceived := st.invalidationsReceived + 1 }

def Statistics.send (st : Statistics) : Statistics :=
  { st with invalidationsSent := st.invalidationsSent + 1 }

theorem invalidationsBalanced_count {R : ProtocolRules S} {m : Machine S n}
    (h : m.InvalidationsBalanced R) (type : BusTransactionType) (i reqId : Fin n) :
    (countInvalidation R type m i reqId).InvalidationsBalanced R := by
  unfold countInvalidation
  split
  · have hreceived := m.sum_updStats i (f := Statistics.receive) Statistics.invalidationsReceived
      (d := 1) fun _ => rfl
    cases hs : R.countsSent with
    | true =>
      have hsame := (m.updStats i Statistics.receive).sum_updStats reqId (f := Statistics.send)
        Statistics.invalidationsReceived (d := 0) fun _ => rfl
      have hnone := m.sum_updStats i (f := Statistics.receive) Statistics.invalidationsSent
        (d := 0) fun _ => rfl
      have hsent := (m.updStats i Statistics.receive).sum_updStats reqId (f := Statistics.send)
        Statistics.invalidationsSent (d := 1) fun _ => rfl
      constructor
      · rw [hreceived, ← h.received] at hsame
        exact hsame.symm
      · intro _
        rw [hnone, ← h.sent hs] at hsent
        exact hsent.symm
    | false =>
      constructor
      · rw [← h.received] at hreceived
        exact hreceived.symm
      · intro hsent
        rw [hs] at hsent
        simp at hsent
  · exact h

/-- The snooping loop touches no counter of a core but the invalidations. -/
def Statistics.SameButInvalidations (st st' : Statistics) : Prop :=
  ∃ received sent, st' = { st with
    invalidationsReceived := received
    invalidationsSent := sent }

theorem Statistics.SameButInvalidations.trans {st₁ st₂ st₃ : Statistics}
    (h : st₁.SameButInvalidations st₂) (h' : st₂.SameButInvalidations st₃) :
    st₁.SameButInvalidations st₃ := by
  obtain ⟨r, s, rfl⟩ := h
  obtain ⟨r', s', rfl⟩ := h'
  exact ⟨r', s', rfl⟩

theorem countInvalidation_cStats (R : ProtocolRules S) (type : BusTransactionType)
    (m : Machine S n) (i reqId j : Fin n) :
    (m.cStats j).SameButInvalidations ((countInvalidation R type m i reqId).cStats j) := by
  have updated (m : Machine S n) (k : Fin n) {f : Statistics → Statistics}
      (hf : ∀ st : Statistics, st.SameButInvalidations (f st)) :
      (m.cStats j).SameButInvalidations ((m.updStats k f).cStats j) := by
    change (m.cStats j).SameButInvalidations (Function.update m.cStats k (f (m.cStats k)) j)
    by_cases hj : j = k
    · rw [hj, Function.update_self]
      exact hf _
    · rw [Function.update_of_ne hj]
      exact ⟨_, _, rfl⟩
  unfold countInvalidation
  split
  · cases R.countsSent with
    | true =>
      exact (updated m i fun _ => ⟨_, _, rfl⟩).trans (updated _ reqId fun _ => ⟨_, _, rfl⟩)
    | false => exact updated m i fun _ => ⟨_, _, rfl⟩
  · exact ⟨_, _, rfl⟩

theorem snoopCore_ledger (R : ProtocolRules S) (g : Geometry) (reqId : Fin n)
    (type : BusTransactionType) (addr : Addr) (acc : Snooped S n) (i : Fin n) :
    (∀ j, (acc.machine.cStats j).SameButInvalidations
      ((snoopCore R g reqId type addr acc i).machine.cStats j)) ∧
    (acc.machine.InvalidationsBalanced R →
      (snoopCore R g reqId type addr acc i).machine.InvalidationsBalanced R) := by
  unfold snoopCore
  split
  · exact ⟨fun _ => ⟨_, _, rfl⟩, id⟩
  · dsimp only
    split
    · exact ⟨fun _ => ⟨_, _, rfl⟩, fun h => ⟨h.received, h.sent⟩⟩
    · split
      · exact ⟨fun _ => ⟨_, _, rfl⟩, fun h => ⟨h.received, h.sent⟩⟩
      · refine ⟨fun j => countInvalidation_cStats R type _ i reqId j, ?_⟩
        intro h
        apply invalidationsBalanced_count
        exact ⟨h.received, h.sent⟩

theorem snoopAll_ledger (R : ProtocolRules S) (g : Geometry) (m : Machine S n) (reqId : Fin n)
    (type : BusTransactionType) (addr : Addr) :
    (∀ j, (m.cStats j).SameButInvalidations
      ((snoopAll R g m reqId type addr).machine.cStats j)) ∧
    (m.InvalidationsBalanced R →
      (snoopAll R g m reqId type addr).machine.InvalidationsBalanced R) := by
  have loop (l : List (Fin n)) (acc : Snooped S n) :
      (∀ j, (acc.machine.cStats j).SameButInvalidations
        ((l.foldl (snoopCore R g reqId type addr) acc).machine.cStats j)) ∧
      (acc.machine.InvalidationsBalanced R →
        (l.foldl (snoopCore R g reqId type addr) acc).machine.InvalidationsBalanced R) := by
    induction l generalizing acc with
    | nil => exact ⟨fun _ => ⟨_, _, rfl⟩, id⟩
    | cons i l ih =>
      obtain ⟨hcores, hbalance⟩ := snoopCore_ledger R g reqId type addr acc i
      obtain ⟨hcores', hbalance'⟩ := ih (snoopCore R g reqId type addr acc i)
      rw [List.foldl_cons]
      exact ⟨fun j => (hcores j).trans (hcores' j), fun h => hbalance' (hbalance h)⟩
  exact loop _ ⟨m, false, false⟩

/-! ### Transactions -/

namespace GlobalStatistics

structure Balanced (R : ProtocolRules S) (g : Geometry) (gs : GlobalStatistics) : Prop where
  transfers : gs.cacheToCacheTransfers ≤ gs.busReads + gs.busReadx
  traffic : gs.totalDataTrafficBytes =
    g.bsize * (gs.busReads + gs.busReadx + gs.busWritebacks) + R.upgrTraffic * gs.busUpgrades
  readx : (∀ type, R.countsRead type = true) → gs.busReadx = 0

/-- The transactions granted so far. -/
def transactions (gs : GlobalStatistics) : Nat := gs.busReads + gs.busReadx + gs.busUpgrades

variable {R : ProtocolRules S} {g : Geometry} {gs : GlobalStatistics}

theorem Balanced.writeback (h : gs.Balanced R g) : (countWriteback g gs).Balanced R g := by
  refine ⟨h.transfers, ?_, h.readx⟩
  simp only [countWriteback]
  rw [h.traffic, ← Nat.add_assoc, Nat.mul_succ]
  omega

theorem Balanced.upgrade (h : gs.Balanced R g) : (countUpgrade R gs).Balanced R g := by
  refine ⟨h.transfers, ?_, h.readx⟩
  simp only [countUpgrade]
  rw [h.traffic, Nat.mul_succ]
  omega

theorem Balanced.fill (h : gs.Balanced R g) (type : BusTransactionType) (cacheToCache : Bool) :
    (countFill R g type cacheToCache gs).Balanced R g := by
  have htransfers := h.transfers
  have hsum : g.bsize * (gs.busReads + gs.busReadx + gs.busWritebacks + 1) =
      g.bsize * (gs.busReads + gs.busReadx + gs.busWritebacks) + g.bsize := Nat.mul_succ _ _
  refine ⟨?_, ?_, ?_⟩
  · simp only [countFill]
    cases cacheToCache <;> cases R.countsRead type <;> simp <;> omega
  · simp only [countFill]
    rw [h.traffic]
    cases R.countsRead type with
    | true =>
      have hcount : gs.busReads + 1 + (gs.busReadx + 0) + gs.busWritebacks =
          gs.busReads + gs.busReadx + gs.busWritebacks + 1 := by omega
      rw [if_pos rfl, if_pos rfl, hcount, hsum]
      omega
    | false =>
      have hcount : gs.busReads + 0 + (gs.busReadx + 1) + gs.busWritebacks =
          gs.busReads + gs.busReadx + gs.busWritebacks + 1 := by omega
      rw [if_neg (by simp), if_neg (by simp), hcount, hsum]
      omega
  · intro hall
    simp only [countFill, hall, if_true]
    exact h.readx hall

theorem transactions_fill (R : ProtocolRules S) (g : Geometry) (gs : GlobalStatistics)
    (type : BusTransactionType) (cacheToCache : Bool) :
    (countFill R g type cacheToCache gs).transactions = gs.transactions + 1 := by
  simp only [countFill, transactions]
  cases R.countsRead type <;> simp <;> omega

end GlobalStatistics

/-- A granted request is counted once, as a read, a readx or an upgrade. -/
theorem handleBusTransaction_gStats {R : ProtocolRules S} {g : Geometry} {m m' : Machine S n}
    {r : Fin n} {type : BusTransactionType} {addr : Addr} {latency : Nat} (ht : type.requestable)
    (h : handleBusTransaction R g m r type addr = some (latency, m'))
    (hbalance : m.gStats.Balanced R g) : m'.gStats.Balanced R g ∧
      m'.gStats.transactions = m.gStats.transactions + 1 := by
  obtain ⟨k, hk⟩ := snoopAll_gStats R g m r type addr
  have hsnooped : (snoopAll R g m r type addr).machine.gStats.Balanced R g := by
    rw [hk]
    exact ⟨hbalance.transfers, hbalance.traffic, hbalance.readx⟩
  have hcount : (snoopAll R g m r type addr).machine.gStats.transactions =
      m.gStats.transactions := by
    rw [hk]
    rfl
  cases busEffect_of_bus h with
  | writeback => simp [BusTransactionType.requestable] at ht
  | upgrade =>
    refine ⟨hsnooped.upgrade, ?_⟩
    rw [← hcount]
    exact (Nat.add_assoc _ _ _).symm
  | fill =>
    have hfilled := hsnooped.fill type (snoopAll R g m r type addr).supplierFound
    have hone := GlobalStatistics.transactions_fill R g
      (snoopAll R g m r type addr).machine.gStats type
      (snoopAll R g m r type addr).supplierFound
    rw [hcount] at hone
    cases m.victimDirty R g r addr with
    | true => exact ⟨hfilled.writeback, hone⟩
    | false => exact ⟨hfilled, hone⟩

theorem handleBusTransaction_cStats {R : ProtocolRules S} {g : Geometry} {m m' : Machine S n}
    {r : Fin n} {type : BusTransactionType} {addr : Addr} {latency : Nat}
    (h : handleBusTransaction R g m r type addr = some (latency, m')) :
    (∀ j, (m.cStats j).SameButInvalidations (m'.cStats j)) ∧
      (m.InvalidationsBalanced R → m'.InvalidationsBalanced R) := by
  obtain ⟨hcores, hbalance⟩ := snoopAll_ledger R g m r type addr
  have kept {m' : Machine S n} (hc : m'.cStats = (snoopAll R g m r type addr).machine.cStats)
      (hg : m'.gStats.totalInvalidations =
        (snoopAll R g m r type addr).machine.gStats.totalInvalidations) :
      (∀ j, (m.cStats j).SameButInvalidations (m'.cStats j)) ∧
        (m.InvalidationsBalanced R → m'.InvalidationsBalanced R) := by
    refine ⟨fun j => by rw [hc]; exact hcores j, ?_⟩
    intro h
    constructor
    · rw [hg, hc]
      exact (hbalance h).received
    · rw [hg, hc]
      exact (hbalance h).sent
  cases busEffect_of_bus h with
  | writeback => exact kept rfl rfl
  | upgrade => exact kept rfl rfl
  | fill =>
    refine kept rfl ?_
    cases m.victimDirty R g r addr <;> rfl

/-! ### Runs -/

namespace Simulator
variable {cfg : Config} {R : ProtocolRules S} {s s' : Simulator S n} {e : Event n}

structure Ledger (cfg : Config) (R : ProtocolRules S) (s : Simulator S n) : Prop where
  cores : ∀ i, (s.machine.cStats i).Balanced
  bus : s.machine.gStats.Balanced R cfg.geometry
  misses : ∑ i, (s.machine.cStats i).cacheMisses =
    s.machine.gStats.transactions + s.busQueue.length
  invalidations : s.machine.InvalidationsBalanced R

/-- A step that counts an entry of one core and leaves the bus alone. -/
theorem Ledger.counted (h : Ledger cfg R s) {i : Fin n} {st : Statistics} {missed : Nat}
    (hcounts : (s.machine.cStats i).Counts st missed)
    (hc : s'.machine.cStats = Function.update s.machine.cStats i st)
    (hg : s'.machine.gStats = s.machine.gStats)
    (hq : s'.busQueue.length = s.busQueue.length + missed) : Ledger cfg R s' := by
  have total (key : Statistics → Nat) {d : Nat} (hd : key st = key (s.machine.cStats i) + d) :
      ∑ j, key (s'.machine.cStats j) = ∑ j, key (s.machine.cStats j) + d := by
    have hsum := IndexLoop.sum_update key s.machine.cStats i st
    rw [hc]
    omega
  refine ⟨?_, by rw [hg]; exact h.bus, ?_, ?_, ?_⟩
  · intro j
    rw [hc]
    by_cases hj : j = i
    · rw [hj, Function.update_self]
      exact hcounts.balanced (h.cores i)
    · rw [Function.update_of_ne hj]
      exact h.cores j
  · rw [total Statistics.cacheMisses hcounts.misses, h.misses, hg, hq, Nat.add_assoc]
  · rw [total Statistics.invalidationsReceived (d := 0) hcounts.received, hg]
    exact h.invalidations.received
  · rw [total Statistics.invalidationsSent (d := 0) hcounts.sent, hg]
    exact h.invalidations.sent

/-- The counters after an access: the entry itself, and on a hit the kind of the block. -/
theorem access_cStats (cfg : Config) (R : ProtocolRules S) (s : Simulator S n) (i : Fin n)
    (entry : TraceEntry) : ∃ shared,
    (s.access cfg R i entry).2.cStats = Function.update s.machine.cStats i
      (if (s.access cfg R i entry).1.isHit
        then ((s.machine.cStats i).countAccess entry.isWrite).countHit shared
        else (s.machine.cStats i).countAccess entry.isWrite) := by
  obtain ⟨shared, hstats⟩ := handleProcessorRequest_cStats R cfg.geometry
    (s.machine.updStats i (Statistics.countAccess entry.isWrite)) i entry.val entry.isWrite
  refine ⟨shared, ?_⟩
  change (s.access cfg R i entry).2.cStats =
    if (s.access cfg R i entry).1.isHit then _ else _ at hstats
  rw [hstats]
  split
  · simp only [Machine.updStats, Function.update_idem, Function.update_self]
  · rfl

theorem hit_cStats (t : Nat) (i : Fin n) (entry : TraceEntry) (rest : List TraceEntry)
    (hhit : (s.access cfg R i entry).1.isHit = true) : ∃ st, (s.machine.cStats i).Counts st 0 ∧
      (s.hit cfg R t i entry rest).machine.cStats = Function.update s.machine.cStats i st := by
  obtain ⟨shared, hstats⟩ := access_cStats cfg R s i entry
  rw [if_pos hhit] at hstats
  refine ⟨_, (s.machine.cStats i).counts_hit entry.isWrite shared, ?_⟩
  simp only [hit, Machine.updStats, hstats, Function.update_idem, Function.update_self]

theorem missed_cStats (t : Nat) (i : Fin n) (entry : TraceEntry) (rest : List TraceEntry)
    (hmiss : (s.access cfg R i entry).1.isHit = false) : ∃ st, (s.machine.cStats i).Counts st 1 ∧
      (s.missed cfg R t i entry rest).machine.cStats = Function.update s.machine.cStats i st := by
  obtain ⟨shared, hstats⟩ := access_cStats cfg R s i entry
  rw [hmiss, if_neg (by simp)] at hstats
  refine ⟨_, (s.machine.cStats i).counts_miss entry.isWrite, ?_⟩
  simp only [missed, Machine.updStats, hstats, Function.update_idem, Function.update_self]

theorem ledger_granted (htok : s.TokenInv) (h : Ledger cfg R s) {req : BusRequest n}
    (hreq : req ∈ s.busQueue) {t latency : Nat} {machine : Machine S n}
    (bus : handleBusTransaction R cfg.geometry s.machine req.coreId req.type req.addr =
      some (latency, machine)) :
    Ledger cfg R ((s.pop (.busArbitration t)).granted t req latency machine) := by
  obtain ⟨hbalanced, hcount⟩ := handleBusTransaction_gStats (htok.types req hreq) bus h.bus
  obtain ⟨hcores, hinvalidations⟩ := handleBusTransaction_cStats bus
  refine ⟨?_, hbalanced, ?_, hinvalidations h.invalidations⟩
  · intro i
    obtain ⟨received, sent, heq⟩ := hcores i
    change (machine.cStats i).Balanced
    rw [heq]
    exact ⟨(h.cores i).accesses, (h.cores i).hits⟩
  · have hsame : ∑ i, (machine.cStats i).cacheMisses = ∑ i, (s.machine.cStats i).cacheMisses := by
      apply Finset.sum_congr rfl
      intro i _
      obtain ⟨received, sent, heq⟩ := hcores i
      rw [heq]
    have hlength : (s.busQueue.erase req).length + 1 = s.busQueue.length := by
      have hpos := List.length_pos_of_mem hreq
      rw [List.length_erase_of_mem hreq]
      omega
    have hmisses := h.misses
    change ∑ i, (machine.cStats i).cacheMisses =
      machine.gStats.transactions + (s.busQueue.erase req).length
    omega

theorem ledger_fired (htok : s.TokenInv) (h : Ledger cfg R s) (hf : Fired cfg R (s.pop e) e s') :
    Ledger cfg R s' := by
  cases hf with
  | grant free first bus => exact ledger_granted htok h (minElement_mem first) bus
  | @compute t i entry rest running read label =>
    exact h.counted ((s.machine.cStats i).counts_compute entry.val.toNat) rfl rfl rfl
  | @hit t i entry rest running read label resp =>
    have hhit : ((s.pop (.fetch t i)).access cfg R i entry).1.isHit = true := by
      rw [access_response, resp]
    obtain ⟨st, hcounts, hstats⟩ := hit_cStats t i entry rest hhit
    exact h.counted hcounts hstats (handleProcessorRequest_gStats _ _ _ _ _ _) rfl
  | @miss t i entry rest running read label resp =>
    rw [← access_response] at resp
    obtain ⟨st, hcounts, hstats⟩ := missed_cStats t i entry rest resp
    exact h.counted hcounts hstats (handleProcessorRequest_gStats _ _ _ _ _ _) (by simp [missed])
  | _ => exact ⟨h.cores, h.bus, h.misses, h.invalidations⟩

theorem ledger_reached {traces : Fin n → List TraceEntry} (hR : R.MissFills)
    (hr : (system cfg R traces).Reached s) : Ledger cfg R s := by
  refine hr.invariant_of (fun s => tokenInv_reached hR) ?_ ?_
  · intro s hs
    subst hs
    refine ⟨fun i => ⟨rfl, rfl⟩, ⟨Nat.le_refl _, ?_, fun _ => rfl⟩, ?_, ?_, ?_⟩
    · simp [start, Machine.init]
    · simp [start, Machine.init, GlobalStatistics.transactions]
    · simp [start, Machine.init]
    · simp [start, Machine.init]
  · intro s e s' hstep htok hinv
    obtain ⟨-, -, hf⟩ := fired_of_step hstep
    exact ledger_fired htok hinv hf

/-- In every reached state the counters of all cores and of the bus balance. -/
theorem statistics_balance (p : ProtocolName) (cfg : Config) (traces : Fin n → List TraceEntry)
    {s : Simulator p.State n} (hr : (system cfg p.rules traces).Reached s) :
    (∀ i, (s.machine.cStats i).cacheHits + (s.machine.cStats i).cacheMisses =
        (s.machine.cStats i).loadCount + (s.machine.cStats i).storeCount ∧
      (s.machine.cStats i).privateAccesses + (s.machine.cStats i).sharedAccesses =
        (s.machine.cStats i).cacheHits) ∧
    ∑ i, (s.machine.cStats i).cacheMisses = s.machine.gStats.busReads +
      s.machine.gStats.busReadx + s.machine.gStats.busUpgrades + s.busQueue.length ∧
    s.machine.gStats.cacheToCacheTransfers ≤
      s.machine.gStats.busReads + s.machine.gStats.busReadx ∧
    s.machine.gStats.totalInvalidations = ∑ i, (s.machine.cStats i).invalidationsReceived ∧
    (p ≠ .dragon →
      s.machine.gStats.totalInvalidations = ∑ i, (s.machine.cStats i).invalidationsSent) ∧
    s.machine.gStats.totalDataTrafficBytes = cfg.geometry.bsize *
        (s.machine.gStats.busReads + s.machine.gStats.busReadx + s.machine.gStats.busWritebacks) +
      (if p = .dragon then 4 * s.machine.gStats.busUpgrades else 0) ∧
    (p = .dragon → s.machine.gStats.busReadx = 0) := by
  have h := ledger_reached p.missFills hr
  have hsent : p ≠ .dragon → p.rules.countsSent = true := by
    cases p <;> simp [ProtocolName.rules, mesi, mesif, smart, moesi, MESIProtocol.rules]
  have hupgrades : p.rules.upgrTraffic = if p = .dragon then 4 else 0 := by
    cases p <;> rfl
  have hreads : p = .dragon → ∀ type, p.rules.countsRead type = true := by
    intro hp
    subst hp
    exact fun _ => rfl
  have htraffic := h.bus.traffic
  rw [hupgrades, ite_mul, Nat.zero_mul] at htraffic
  exact ⟨fun i => ⟨(h.cores i).accesses, (h.cores i).hits⟩, h.misses, h.bus.transfers,
    h.invalidations.received, fun hp => h.invalidations.sent (hsent hp), htraffic,
    fun hp => h.bus.readx (hreads hp)⟩

/-- A load, the upgrade of its block and a load by another core. -/
theorem statistics_balance_upgrade :
    ∃ s : Simulator MESIState 2, (system tinyConfig (ProtocolName.rules .mesi) fun i =>
        if i = 0 then [⟨0, 0⟩, ⟨1, 0⟩] else [⟨0, 0⟩]).Reached s ∧
      s.machine.gStats.busReads = 2 ∧ s.machine.gStats.busUpgrades = 1 ∧
      s.machine.gStats.totalInvalidations = 1 ∧
      ∑ i, (s.machine.cStats i).invalidationsSent = 1 ∧
      ∑ i, (s.machine.cStats i).cacheMisses = 3 + s.busQueue.length := by
  obtain ⟨h, s, hr, ht⟩ := exists_run tinyConfig (ProtocolName.rules .mesi)
    (fun i : Fin 2 => if i = 0 then [⟨0, 0⟩, ⟨1, 0⟩] else [⟨0, 0⟩])
    [.fetch 0 0, .busArbitration 0, .fetch 0 1, .busRelease 101, .busArbitration 101,
      .coreUnblock 101 0, .fetch 101 0, .busRelease 104, .busArbitration 104]
    (fun _ (s : Simulator MESIState 2) => s.machine.gStats.busReads == 2 &&
      s.machine.gStats.busReadx == 0 && s.machine.gStats.busUpgrades == 1 &&
      s.machine.gStats.totalInvalidations == 1) (by decide +kernel)
  simp only [Bool.and_eq_true, beq_iff_eq] at ht
  obtain ⟨⟨⟨hreads, hreadx⟩, hupgrades⟩, hinvalidations⟩ := ht
  obtain ⟨-, hmisses, -, -, hsent, -⟩ := statistics_balance .mesi tinyConfig _ hr.reached
  have hsent := hsent (by decide)
  rw [hinvalidations] at hsent
  rw [hreads, hreadx, hupgrades] at hmisses
  exact ⟨s, hr.reached, hreads, hupgrades, hinvalidations, hsent.symm, hmisses⟩

end Simulator
end CoherenceFormal
