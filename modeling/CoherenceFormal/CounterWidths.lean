import CoherenceFormal.Makespan
import Mathlib.Algebra.Order.BigOperators.Group.Finset

/-!
# Counters and timestamps fit their types

The counters of the model are natural numbers. In the source most of them are `int`, and
times are 64-bit. Every counter is bounded by the number of entries in the traces, or by that
number times the number of cores, and every time by 2 ^ 33 cycles for each entry; so for
traces of a total length below 2 ^ 31 divided by the number of cores nothing wraps around.
-/

namespace CoherenceFormal
open LineState
set_option autoImplicit false

variable {S : Type} {n : Nat}

/-- The sums that `print_report` makes of the counters of a core are `int`s too. -/
structure Statistics.Fits (st : Statistics) : Prop where
  computeCycles : st.computeCycles < 2 ^ 64
  accesses : st.loadCount + st.storeCount < 2 ^ 31
  outcomes : st.cacheHits + st.cacheMisses < 2 ^ 31
  kinds : st.privateAccesses + st.sharedAccesses < 2 ^ 31
  received : st.invalidationsReceived < 2 ^ 31
  sent : st.invalidationsSent < 2 ^ 31

structure GlobalStatistics.Fits (gs : GlobalStatistics) : Prop where
  traffic : gs.totalDataTrafficBytes < 2 ^ 64
  invalidations : gs.totalInvalidations < 2 ^ 31
  reads : gs.busReads < 2 ^ 31
  readx : gs.busReadx < 2 ^ 31
  upgrades : gs.busUpgrades < 2 ^ 31
  writebacks : gs.busWritebacks < 2 ^ 31
  transfers : gs.cacheToCacheTransfers < 2 ^ 31

/-! ### Invalidations -/

/-- From `m` to `m'` at most `k` invalidations have been counted, for any core and overall. -/
structure Machine.CountsInvalidations (m m' : Machine S n) (k : Nat) : Prop where
  total : m'.gStats = { m.gStats with
    totalInvalidations := m.gStats.totalInvalidations + k }
  received : ∀ j, (m'.cStats j).invalidationsReceived ≤ (m.cStats j).invalidationsReceived + k
  sent : ∀ j, (m'.cStats j).invalidationsSent ≤ (m.cStats j).invalidationsSent + k

namespace Machine.CountsInvalidations
variable {m m' m'' : Machine S n} {k k' : Nat}

theorem of_eq (hg : m'.gStats = m.gStats) (hc : m'.cStats = m.cStats) :
    m.CountsInvalidations m' 0 := by
  refine ⟨hg, ?_, ?_⟩
  · intro j
    rw [hc]
    exact Nat.le_refl _
  · intro j
    rw [hc]
    exact Nat.le_refl _

theorem trans (h : m.CountsInvalidations m' k) (h' : m'.CountsInvalidations m'' k') :
    m.CountsInvalidations m'' (k + k') := by
  refine ⟨?_, ?_, ?_⟩
  · rw [h'.total, h.total, Nat.add_assoc]
  · intro j
    have hle := h.received j
    have hle' := h'.received j
    omega
  · intro j
    have hle := h.sent j
    have hle' := h'.sent j
    omega

end Machine.CountsInvalidations

theorem Machine.updStats_le {m : Machine S n} {i : Fin n} {f : Statistics → Statistics}
    (key : Statistics → Nat) {d : Nat} (hf : ∀ st, key (f st) ≤ key st + d) (j : Fin n) :
    key ((m.updStats i f).cStats j) ≤ key (m.cStats j) + d := by
  change key (Function.update m.cStats i (f (m.cStats i)) j) ≤ _
  by_cases hj : j = i
  · rw [hj, Function.update_self]
    exact hf _
  · rw [Function.update_of_ne hj]
    omega

variable [LineState S]

theorem countInvalidation_counts (R : ProtocolRules S) (type : BusTransactionType)
    (m : Machine S n) (i reqId : Fin n) :
    ∃ k ≤ 1, m.CountsInvalidations (countInvalidation R type m i reqId) k := by
  unfold countInvalidation
  split
  · refine ⟨1, Nat.le_refl _, ?_⟩
    have hreceived (m : Machine S n) (j : Fin n) :
        ((m.updStats i Statistics.receive).cStats j).invalidationsReceived ≤
          (m.cStats j).invalidationsReceived + 1 :=
      Machine.updStats_le Statistics.invalidationsReceived (fun _ => Nat.le_refl _) j
    have hsent (m : Machine S n) (j : Fin n) :
        ((m.updStats reqId Statistics.send).cStats j).invalidationsSent ≤
          (m.cStats j).invalidationsSent + 1 :=
      Machine.updStats_le Statistics.invalidationsSent (fun _ => Nat.le_refl _) j
    have hkeep (m : Machine S n) (j : Fin n) :
        ((m.updStats i Statistics.receive).cStats j).invalidationsSent ≤
          (m.cStats j).invalidationsSent + 0 :=
      Machine.updStats_le Statistics.invalidationsSent (fun _ => Nat.le_refl _) j
    have hkeep' (m : Machine S n) (j : Fin n) :
        ((m.updStats reqId Statistics.send).cStats j).invalidationsReceived ≤
          (m.cStats j).invalidationsReceived + 0 :=
      Machine.updStats_le Statistics.invalidationsReceived (fun _ => Nat.le_refl _) j
    cases R.countsSent with
    | true =>
      refine ⟨rfl, ?_, ?_⟩
      · intro j
        exact (hkeep' _ j).trans (hreceived m j)
      · intro j
        have hle := hsent (m.updStats i Statistics.receive) j
        have hle' := hkeep m j
        exact hle.trans (Nat.add_le_add_right hle' 1)
    | false =>
      refine ⟨rfl, hreceived m, ?_⟩
      intro j
      exact (hkeep m j).trans (Nat.le_succ _)
  · exact ⟨0, Nat.zero_le _, .of_eq rfl rfl⟩

theorem snoopCore_counts (R : ProtocolRules S) (g : Geometry) (reqId : Fin n)
    (type : BusTransactionType) (addr : Addr) (acc : Snooped S n) (i : Fin n) :
    ∃ k ≤ 1, acc.machine.CountsInvalidations
      (snoopCore R g reqId type addr acc i).machine k := by
  unfold snoopCore
  split
  · exact ⟨0, Nat.zero_le _, .of_eq rfl rfl⟩
  · dsimp only
    split
    · exact ⟨0, Nat.zero_le _, .of_eq rfl rfl⟩
    · split
      · exact ⟨0, Nat.zero_le _, .of_eq rfl rfl⟩
      · obtain ⟨k, hk, hcounts⟩ := countInvalidation_counts R type
          ((acc.machine.setCache i ((acc.machine.caches i).getLine g addr).2).setCache i
            ((((acc.machine.setCache i ((acc.machine.caches i).getLine g addr).2).caches
              i)).setLineState g addr (R.snoop type _))) i reqId
        exact ⟨k, hk, hcounts.total, hcounts.received, hcounts.sent⟩

/-- A snoop counts at most one invalidation for each core. -/
theorem snoopAll_counts (R : ProtocolRules S) (g : Geometry) (m : Machine S n) (reqId : Fin n)
    (type : BusTransactionType) (addr : Addr) :
    ∃ k ≤ n, m.CountsInvalidations (snoopAll R g m reqId type addr).machine k := by
  have loop (l : List (Fin n)) (acc : Snooped S n) : ∃ k ≤ l.length,
      acc.machine.CountsInvalidations
        (l.foldl (snoopCore R g reqId type addr) acc).machine k := by
    induction l generalizing acc with
    | nil => exact ⟨0, Nat.le_refl _, .of_eq rfl rfl⟩
    | cons i l ih =>
      obtain ⟨k, hk, hcounts⟩ := snoopCore_counts R g reqId type addr acc i
      obtain ⟨k', hk', hcounts'⟩ := ih (snoopCore R g reqId type addr acc i)
      refine ⟨k + k', ?_, hcounts.trans hcounts'⟩
      rw [List.length_cons]
      omega
  have hloop := loop (List.finRange n) ⟨m, false, false⟩
  rwa [List.length_finRange] at hloop

/-! ### Bus counters -/

/-- The bounds on the counters of the bus that its transactions alone give. -/
structure Machine.BusBounded (m : Machine S n) : Prop where
  writebacks : m.gStats.busWritebacks ≤ m.gStats.busReads + m.gStats.busReadx
  invalidations : m.gStats.totalInvalidations ≤ n * m.gStats.transactions
  received : ∀ j, (m.cStats j).invalidationsReceived ≤ m.gStats.totalInvalidations
  sent : ∀ j, (m.cStats j).invalidationsSent ≤ m.gStats.totalInvalidations

omit [LineState S] in
/-- Invalidations of one transaction, counted before the transaction itself. -/
theorem Machine.BusBounded.counted {m m₁ m' : Machine S n} {k : Nat} (h : m.BusBounded)
    (hcounts : m.CountsInvalidations m₁ k) (hk : k ≤ n) (hc : m'.cStats = m₁.cStats)
    (htotal : m'.gStats.totalInvalidations = m₁.gStats.totalInvalidations)
    (htransactions : m'.gStats.transactions = m.gStats.transactions + 1)
    (hwritebacks : m'.gStats.busWritebacks ≤ m'.gStats.busReads + m'.gStats.busReadx) :
    m'.BusBounded := by
  have hsum : m'.gStats.totalInvalidations = m.gStats.totalInvalidations + k := by
    rw [htotal, hcounts.total]
  refine ⟨hwritebacks, ?_, ?_, ?_⟩
  · have hle := h.invalidations
    rw [hsum, htransactions, Nat.mul_succ]
    omega
  · intro j
    have hle := h.received j
    have hle' := hcounts.received j
    rw [hsum, hc]
    omega
  · intro j
    have hle := h.sent j
    have hle' := hcounts.sent j
    rw [hsum, hc]
    omega

theorem busBounded_bus {R : ProtocolRules S} {g : Geometry} {m m' : Machine S n} {r : Fin n}
    {type : BusTransactionType} {addr : Addr} {latency : Nat} (ht : type.requestable)
    (hbalance : m.gStats.Balanced R g) (h : m.BusBounded)
    (hbus : handleBusTransaction R g m r type addr = some (latency, m')) : m'.BusBounded := by
  obtain ⟨k, hk, hcounts⟩ := snoopAll_counts R g m r type addr
  have hone := (handleBusTransaction_gStats ht hbus hbalance).2
  have hwritebacks := h.writebacks
  have hsame := hcounts.total
  cases busEffect_of_bus hbus with
  | writeback => simp [BusTransactionType.requestable] at ht
  | upgrade =>
    refine h.counted hcounts hk rfl rfl hone ?_
    change (snoopAll R g m r .busUpgr addr).machine.gStats.busWritebacks ≤
      (snoopAll R g m r .busUpgr addr).machine.gStats.busReads +
        (snoopAll R g m r .busUpgr addr).machine.gStats.busReadx
    rw [hsame]
    exact hwritebacks
  | fill =>
    have hreads : (countFill R g type (snoopAll R g m r type addr).supplierFound
        (snoopAll R g m r type addr).machine.gStats).busReads +
        (countFill R g type (snoopAll R g m r type addr).supplierFound
        (snoopAll R g m r type addr).machine.gStats).busReadx =
        m.gStats.busReads + m.gStats.busReadx + 1 := by
      simp only [countFill, hsame]
      cases R.countsRead type <;> simp <;> omega
    have hold : (snoopAll R g m r type addr).machine.gStats.busWritebacks =
        m.gStats.busWritebacks := by
      rw [hsame]
    cases hdirty : m.victimDirty R g r addr with
    | true =>
      rw [hdirty] at hone
      refine h.counted hcounts hk rfl rfl hone ?_
      change (snoopAll R g m r type addr).machine.gStats.busWritebacks + 1 ≤ _
      rw [hold]
      exact Nat.le_trans (Nat.succ_le_succ hwritebacks) (Nat.le_of_eq hreads.symm)
    | false =>
      rw [hdirty] at hone
      refine h.counted hcounts hk rfl rfl hone ?_
      change (snoopAll R g m r type addr).machine.gStats.busWritebacks ≤ _
      rw [hold]
      exact Nat.le_trans (Nat.le_succ_of_le hwritebacks) (Nat.le_of_eq hreads.symm)

namespace Simulator
variable {cfg : Config} {R : ProtocolRules S} {traces : Fin n → List TraceEntry}
  {h : List (Move (Simulator S n) (Event n))} {s s' : Simulator S n} {e : Event n}

omit [LineState S] in
theorem busBounded_counted (h : s.machine.BusBounded) {i : Fin n} {st : Statistics} {missed : Nat}
    (hcounts : (s.machine.cStats i).Counts st missed)
    (hc : s'.machine.cStats = Function.update s.machine.cStats i st)
    (hg : s'.machine.gStats = s.machine.gStats) : s'.machine.BusBounded := by
  refine ⟨?_, ?_, ?_, ?_⟩
  · rw [hg]
    exact h.writebacks
  · rw [hg]
    exact h.invalidations
  · intro j
    rw [hg, hc]
    by_cases hj : j = i
    · rw [hj, Function.update_self, hcounts.received]
      exact h.received i
    · rw [Function.update_of_ne hj]
      exact h.received j
  · intro j
    rw [hg, hc]
    by_cases hj : j = i
    · rw [hj, Function.update_self, hcounts.sent]
      exact h.sent i
    · rw [Function.update_of_ne hj]
      exact h.sent j

theorem busBounded_fired (htok : s.TokenInv) (hbalance : s.machine.gStats.Balanced R cfg.geometry)
    (h : s.machine.BusBounded) (hf : Fired cfg R (s.pop e) e s') : s'.machine.BusBounded := by
  cases hf with
  | @grant t req latency machine free first bus =>
    exact busBounded_bus (htok.types req (minElement_mem first)) hbalance h bus
  | @compute t i entry rest running read label =>
    exact busBounded_counted h ((s.machine.cStats i).counts_compute entry.val.toNat) rfl rfl
  | @hit t i entry rest running read label resp =>
    have hhit : ((s.pop (.fetch t i)).access cfg R i entry).1.isHit = true := by
      rw [access_response, resp]
    obtain ⟨st, hcounts, hstats⟩ := hit_cStats t i entry rest hhit
    exact busBounded_counted h hcounts hstats (handleProcessorRequest_gStats _ _ _ _ _ _)
  | @miss t i entry rest running read label resp =>
    rw [← access_response] at resp
    obtain ⟨st, hcounts, hstats⟩ := missed_cStats t i entry rest resp
    exact busBounded_counted h hcounts hstats (handleProcessorRequest_gStats _ _ _ _ _ _)
  | _ => exact h

theorem busBounded_reached (hR : R.MissFills) (hr : (system cfg R traces).Reached s) :
    s.machine.BusBounded := by
  refine hr.invariant_of (J := fun s => s.TokenInv ∧ Ledger cfg R s)
    (I := fun s => s.machine.BusBounded) (fun s hs => ⟨tokenInv_reached hR hs, ledger_reached hR hs⟩) ?_ ?_
  · intro s hs
    subst hs
    exact ⟨Nat.le_refl _, Nat.zero_le _, fun _ => Nat.le_refl _, fun _ => Nat.le_refl _⟩
  · intro s e s' hstep hgiven hinv
    obtain ⟨-, -, hf⟩ := fired_of_step hstep
    exact busBounded_fired hgiven.1 hgiven.2.bus hinv hf

/-! ### Entries -/

/-- The entries of all traces. -/
def entryCount (traces : Fin n → List TraceEntry) : Nat := ∑ i, (traces i).length

omit [LineState S] in
theorem length_le_entryCount (traces : Fin n → List TraceEntry) (i : Fin n) :
    (traces i).length ≤ entryCount traces :=
  Finset.single_le_sum (f := fun i => (traces i).length) (fun _ _ => Nat.zero_le _)
    (Finset.mem_univ i)

omit [LineState S] in
theorem work_sum_le (entries : List TraceEntry) :
    ((entries.map TraceEntry.work).sum).1 + ((entries.map TraceEntry.work).sum).2.1 ≤
        entries.length ∧
      ((entries.map TraceEntry.work).sum).2.2 ≤ (2 ^ 32 - 1) * entries.length := by
  induction entries with
  | nil => exact ⟨Nat.le_refl _, Nat.le_refl _⟩
  | cons entry rest ih =>
    have hval := entry.val.isLt
    obtain ⟨hcount, hcycles⟩ := ih
    rw [List.map_cons, List.sum_cons, List.length_cons, Nat.mul_succ]
    simp only [TraceEntry.work, Prod.fst_add, Prod.snd_add]
    split
    · constructor <;> dsimp only <;> omega
    · split <;> constructor <;> dsimp only <;> omega

/-- No more accesses and compute cycles are counted than a trace has. -/
theorem work_bounds (hr : (system cfg R traces).Run h s) (i : Fin n) :
    (s.machine.cStats i).storeCount + (s.machine.cStats i).loadCount ≤ (traces i).length ∧
      (s.machine.cStats i).computeCycles ≤ (2 ^ 32 - 1) * (traces i).length := by
  have hinv := executedInv_run hr
  have hlength : (executed i h).length ≤ (traces i).length := by
    rw [← hinv.entries i, List.length_append]
    omega
  obtain ⟨hcount, hcycles⟩ := work_sum_le (executed i h)
  rw [← hinv.work i] at hcount hcycles
  exact ⟨hcount.trans hlength, hcycles.trans (Nat.mul_le_mul_left _ hlength)⟩

theorem misses_le_entryCount (hR : R.MissFills) (hr : (system cfg R traces).Run h s) :
    s.machine.gStats.transactions ≤ entryCount traces := by
  have hledger := ledger_reached hR hr.reached
  have hmisses := hledger.misses
  have hsum : ∑ i, (s.machine.cStats i).cacheMisses ≤ entryCount traces := by
    apply Finset.sum_le_sum
    intro i _
    have hcount := (work_bounds hr i).1
    have haccesses := (hledger.cores i).accesses
    omega
  omega

/-! ### Times -/

omit [LineState S] in
/-- An arbitration is never scheduled for later. -/
def ArbitrationNow (s : Simulator S n) : Prop :=
  ∀ t, .busArbitration t ∈ s.eventQueue → t ≤ s.currentTime

theorem arbitration_fired (hf : Fired cfg R (s.pop e) e s') {t : Nat}
    (ht : .busArbitration t ∈ s'.eventQueue) :
    .busArbitration t ∈ s.eventQueue ∨ t = e.timestamp := by
  have hold (hqueue : .busArbitration t ∈ (s.pop e).eventQueue) :
      .busArbitration t ∈ s.eventQueue ∨ t = e.timestamp := .inl (List.mem_of_mem_erase hqueue)
  have hwake {c : Prop} [Decidable c]
      (hqueue : .busArbitration t ∈ (if c then [] else [.busArbitration e.timestamp]) ++
        (s.pop e).eventQueue) : .busArbitration t ∈ s.eventQueue ∨ t = e.timestamp := by
    rcases List.mem_append.mp hqueue with hnew | hqueue
    · split at hnew
      · simp at hnew
      · exact .inr (Event.busArbitration.inj (List.mem_singleton.mp hnew))
    · exact hold hqueue
  cases hf with
  | release => exact hwake ht
  | miss => exact hwake ht
  | @grant t' req latency machine free first bus =>
    apply hold
    simp only [granted] at ht
    split at ht <;> simpa using ht
  | idle => exact hold ht
  | stalled => exact hold ht
  | exhausted => exact hold ht
  | _ =>
    rcases List.mem_cons.mp ht with hfetch | hqueue
    · cases hfetch
    · exact hold hqueue

theorem arbitrationNow_reached (hr : (system cfg R traces).Reached s) : s.ArbitrationNow := by
  refine hr.invariant_of (J := fun s => s.BusInv) (fun s => busInv_reached) ?_ ?_
  · intro s hs t ht
    subst hs
    simp [start] at ht
  · intro s e s' hstep hbus hinv t ht
    obtain ⟨htime, hle⟩ := step_time hbus hstep
    obtain ⟨-, -, hf⟩ := fired_of_step hstep
    rcases arbitration_fired hf ht with hold | rfl
    · exact (hinv t hold).trans hle
    · exact Nat.le_of_eq htime.symm

/-- The busy time of the bus is below 2 ^ 31 cycles for each entry. -/
theorem busTime_le (hR : R.MissFills) (hlatency : R.upgrLatency ≤ 2)
    (hr : (system cfg R traces).Run h s) :
    busTime (transactions cfg R h) ≤ 2 ^ 31 * entryCount traces := by
  have hcount := misses_le_entryCount hR hr
  have htransfers := (ledger_reached hR hr.reached).bus.transfers
  have hwritebacks := (busBounded_reached hR hr.reached).writebacks
  have hbsize : cfg.geometry.bsize < 2 ^ 31 :=
    (Nat.le_mul_of_pos_left _ cfg.geometry.assoc_pos).trans_lt
      (cfg.geometry.fits.trans_lt cfg.geometry.csize_lt)
  have htransfer : (1 + 2 * (cfg.geometry.bsize / 4)) *
      s.machine.gStats.cacheToCacheTransfers ≤
        (2 ^ 30 + 1) * s.machine.gStats.cacheToCacheTransfers :=
    Nat.mul_le_mul_right _ (by omega)
  have hupgrade : R.upgrLatency * s.machine.gStats.busUpgrades ≤
      2 * s.machine.gStats.busUpgrades := Nat.mul_le_mul_right _ hlatency
  rw [busTime_run hR hr, GlobalStatistics.busTime]
  rw [GlobalStatistics.transactions] at hcount
  omega

theorem accounted_le_entryCount (hR : R.MissFills) (hlatency : R.upgrLatency ≤ 2)
    (hr : (system cfg R traces).Run h s) (i : Fin n) :
    accounted cfg R h s i ≤ 2 ^ 33 * entryCount traces := by
  obtain ⟨hcount, hcycles⟩ := work_bounds hr i
  have haccesses := ((ledger_reached hR hr.reached).cores i).accesses
  have hlength := length_le_entryCount traces i
  have hwaited := (waitBound_run hR hr).all i
  have hbusTime := busTime_le hR hlatency hr
  rw [accounted]
  omega

/-- Every pending event is due within the bound, and so is the clock. -/
theorem time_le (hR : R.MissFills) (hlatency : R.upgrLatency ≤ 2)
    (hr : (system cfg R traces).Run h s) : s.currentTime ≤ 2 ^ 33 * entryCount traces ∧
      ∀ e ∈ s.eventQueue, e.timestamp ≤ 2 ^ 33 * entryCount traces := by
  have htokens {h : List (Move (Simulator S n) (Event n))} {s : Simulator S n}
      (hr : (system cfg R traces).Run h s) (i : Fin n) (t : Nat) (ht : s.TokenAt i t) :
      t ≤ 2 ^ 33 * entryCount traces := by
    rw [(clockInv_run hR hr).token i t ht]
    exact accounted_le_entryCount hR hlatency hr i
  have hevents {h : List (Move (Simulator S n) (Event n))} {s : Simulator S n}
      (hr : (system cfg R traces).Run h s) (hnow : s.currentTime ≤ 2 ^ 33 * entryCount traces)
      (e : Event n) (he : e ∈ s.eventQueue) : e.timestamp ≤ 2 ^ 33 * entryCount traces := by
    cases e with
    | fetch t i => exact htokens hr i t (.fetch he)
    | coreUnblock t i => exact htokens hr i t (.unblock he)
    | busArbitration t => exact (arbitrationNow_reached hr.reached t he).trans hnow
    | busRelease t =>
      -- the core that is served is woken when the bus is released
      have hbus := busInv_reached hr.reached
      obtain ⟨r, i, hrelease, hunblock⟩ :=
        servesWhileBusy_reached hR hr.reached (hbus.busy_of_release he)
      rw [hbus.release_unique he hrelease]
      exact htokens hr i r (.unblock hunblock)
  have hnow : s.currentTime ≤ 2 ^ 33 * entryCount traces := by
    induction hr with
    | start hs =>
      subst hs
      exact Nat.zero_le _
    | @next h s s' e hr hstep ih =>
      obtain ⟨he, -, -⟩ := fired_of_step hstep
      rw [(step_time (busInv_reached hr.reached) hstep).1]
      exact hevents hr ih e he
  exact ⟨hnow, hevents hr hnow⟩

omit [LineState S] in
theorem entryCount_le_mul (traces : Fin n → List TraceEntry) :
    entryCount traces ≤ n * entryCount traces := by
  rcases Nat.eq_zero_or_pos n with rfl | hn
  · simp [entryCount]
  · exact Nat.le_mul_of_pos_left _ hn

/-- In every reached state all counters and times are in the range of their types in the
source, if the traces together have fewer entries than 2 ^ 31 divided by the number of cores. -/
theorem counters_fit (p : ProtocolName) (cfg : Config) (traces : Fin n → List TraceEntry)
    (hsize : n * entryCount traces < 2 ^ 31) {s : Simulator p.State n}
    (hr : (system cfg p.rules traces).Reached s) :
    (∀ i, (s.machine.cStats i).Fits) ∧ s.machine.gStats.Fits ∧ s.currentTime < 2 ^ 64 ∧
      (∀ e ∈ s.eventQueue, e.timestamp < 2 ^ 64) ∧
      ∀ req ∈ s.busQueue, req.arrivalTime < 2 ^ 64 := by
  obtain ⟨h, hr⟩ := hr
  have hupgrades : p.rules.upgrLatency ≤ 2 ∧ p.rules.upgrTraffic ≤ 4 := by
    cases p <;> decide
  have hcount := (entryCount_le_mul traces).trans_lt hsize
  have hledger := ledger_reached p.missFills hr.reached
  have hbounded := busBounded_reached p.missFills hr.reached
  have htransactions := misses_le_entryCount p.missFills hr
  obtain ⟨hnow, hevents⟩ := time_le p.missFills hupgrades.1 hr
  have hinvalidations : s.machine.gStats.totalInvalidations < 2 ^ 31 :=
    hbounded.invalidations.trans_lt ((Nat.mul_le_mul_left n htransactions).trans_lt hsize)
  refine ⟨?_, ?_, by omega, ?_, ?_⟩
  · intro i
    obtain ⟨haccesses, hcycles⟩ := work_bounds hr i
    have hlength := length_le_entryCount traces i
    obtain ⟨houtcomes, hkinds⟩ := hledger.cores i
    have hreceived := hbounded.received i
    have hsent := hbounded.sent i
    constructor <;> omega
  · have htransfers := hledger.bus.transfers
    have hwritebacks := hbounded.writebacks
    have htraffic := hledger.bus.traffic
    have hbsize : cfg.geometry.bsize < 2 ^ 31 :=
      (Nat.le_mul_of_pos_left _ cfg.geometry.assoc_pos).trans_lt
        (cfg.geometry.fits.trans_lt cfg.geometry.csize_lt)
    rw [GlobalStatistics.transactions] at htransactions
    refine ⟨?_, hinvalidations, by omega, by omega, by omega, by omega, by omega⟩
    have hblocks : cfg.geometry.bsize * (s.machine.gStats.busReads + s.machine.gStats.busReadx +
        s.machine.gStats.busWritebacks) ≤ 2 ^ 31 * (2 * entryCount traces) :=
      Nat.mul_le_mul (Nat.le_of_lt hbsize) (by omega)
    have hupdates : p.rules.upgrTraffic * s.machine.gStats.busUpgrades ≤
        4 * s.machine.gStats.busUpgrades := Nat.mul_le_mul_right _ hupgrades.2
    omega
  · intro e he
    have hle := hevents e he
    omega
  · intro req hreq
    have harrived := (timingInv_run hr).arrived req hreq
    omega

theorem counters_fit_storeAndLoad : ∃ s : Simulator MESIState 2,
    (system tinyConfig (ProtocolName.rules .mesi) storeAndLoad).Reached s ∧
      s.machine.gStats.busReadx = 1 ∧ s.machine.gStats.Fits := by
  obtain ⟨h, s, hr, ht⟩ := exists_run tinyConfig (ProtocolName.rules .mesi) storeAndLoad
    [.fetch 0 0, .busArbitration 0] (fun _ s => s.machine.gStats.busReadx == 1)
    (by decide +kernel)
  have hfits := counters_fit .mesi tinyConfig storeAndLoad (by decide) hr.reached
  exact ⟨s, hr.reached, beq_iff_eq.mp ht, hfits.2.1⟩

end Simulator
end CoherenceFormal
