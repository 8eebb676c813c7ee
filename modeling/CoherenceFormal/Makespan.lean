import CoherenceFormal.AccessCost

/-!
# How long a run takes

The bus is never idle while a request waits. So all that a core ever waits is, together, no
more than the time the bus is busy, and the time a run takes is the time of its longest core
without any waiting plus at most the busy time of the bus. The busy time can be computed from
the counters of the report.
-/

namespace CoherenceFormal
open LineState
set_option autoImplicit false

variable {S : Type} {n : Nat}

/-- The time for which the bus is taken by a list of transactions. -/
def busTime (l : List (Transaction n)) : Nat := (l.map (·.latency)).sum

@[simp] theorem busTime_cons (a : Transaction n) (l : List (Transaction n)) :
    busTime (a :: l) = a.latency + busTime l := rfl

/-- Transactions that do not overlap end no earlier than the bus has been busy. -/
theorem Transaction.Timed.busTime_le {l : List (Transaction n)} (h : Timed l) :
    busTime l ≤ lastFinish l := by
  induction l with
  | nil => exact Nat.le_refl _
  | cons a earlier ih =>
    obtain ⟨hstart, hearlier⟩ := h
    have hle := ih hearlier
    rw [busTime_cons, lastFinish, finish]
    omega

/-- The busy time of the bus by its counters. -/
def GlobalStatistics.busTime [LineState S] (R : ProtocolRules S) (g : Geometry)
    (gs : GlobalStatistics) : Nat :=
  101 * (gs.busReads + gs.busReadx - gs.cacheToCacheTransfers) +
    (1 + 2 * (g.bsize / 4)) * gs.cacheToCacheTransfers + 100 * gs.busWritebacks +
    R.upgrLatency * gs.busUpgrades

/-- The cycles a core computes and the cycles of its hits. -/
def Statistics.ownCycles (st : Statistics) : Nat := st.computeCycles + st.cacheHits

namespace Simulator
open Transaction (lastFinish Timed)
variable [LineState S] {cfg : Config} {R : ProtocolRules S} {traces : Fin n → List TraceEntry}
  {h : List (Move (Simulator S n) (Event n))} {s s' : Simulator S n} {e : Event n}

/-- No transaction starts in the future. -/
theorem start_le_currentTime (hr : (system cfg R traces).Run h s) {a : Transaction n}
    (ha : a ∈ transactions cfg R h) : a.start ≤ s.currentTime := by
  obtain ⟨m, hm, hma⟩ := List.mem_filterMap.mp ha
  obtain ⟨later, earlier, rfl⟩ := List.append_of_mem hm
  obtain ⟨hrun, hstep⟩ := hr.before_move
  obtain ⟨req, -, hreq⟩ := Option.bind_eq_some_iff.mp hma
  obtain ⟨result, -, rfl⟩ := Option.map_eq_some_iff.mp hreq
  have htime := (step_time (busInv_reached hrun.reached) hstep).1
  change m.label.timestamp ≤ s.currentTime
  rw [← htime]
  exact hr.monotone currentTime fun hs hstep => (step_time (busInv_reached hs) hstep).2

/-- Core `i` has not waited longer than the bus has been busy. Where the token of the core is
not in the queue, a transaction that is still going on has not been waited for; and a request
in the queue is served no later than if the core waited for every transaction. -/
structure WaitBound (cfg : Config) (R : ProtocolRules S)
    (h : List (Move (Simulator S n) (Event n))) (s : Simulator S n) : Prop where
  all : ∀ i, waited cfg R i h ≤ busTime (transactions cfg R h)
  running : ∀ i t, s.TokenAt i t → (∀ req ∈ s.busQueue, req.coreId ≠ i) →
    waited cfg R i h ≤ busTime (transactions cfg R h).tail ∨ lastFinish (transactions cfg R h) ≤ t
  queued : ∀ req ∈ s.busQueue, lastFinish (transactions cfg R h) ≤
    (s.machine.cStats req.coreId).ownCycles + busTime (transactions cfg R h)

theorem accounted_eq (i : Fin n) :
    accounted cfg R h s i = (s.machine.cStats i).ownCycles + waited cfg R i h := rfl

/-- A move that grants nothing: the queue keeps its requests, and a new one meets the bound. -/
theorem WaitBound.of_no_grant (hinv : WaitBound cfg R h s) (hg : grantOf cfg ⟨s, e, s'⟩ = none)
    (htok' : s'.TokenInv) (hclock : ∀ i, ClockStep cfg R h s e s' i)
    (hkept : ∀ req ∈ s.busQueue, req ∈ s'.busQueue)
    (hnew : ∀ req ∈ s'.busQueue, req ∈ s.busQueue ∨ lastFinish (transactions cfg R h) ≤
      (s.machine.cStats req.coreId).ownCycles + busTime (transactions cfg R h)) :
    WaitBound cfg R (⟨s, e, s'⟩ :: h) s' := by
  have htrans : transactions cfg R (⟨s, e, s'⟩ :: h) = transactions cfg R h :=
    transactions_cons_of_none hg
  have hwaited (i : Fin n) : waited cfg R i (⟨s, e, s'⟩ :: h) = waited cfg R i h :=
    waited_of_no_grant i hg
  have hown (i : Fin n) :
      (s.machine.cStats i).ownCycles ≤ (s'.machine.cStats i).ownCycles := by
    have hle := (hclock i).accounted_le
    rw [accounted_eq, accounted_eq, hwaited] at hle
    omega
  refine ⟨?_, ?_, ?_⟩
  · intro i
    rw [hwaited, htrans]
    exact hinv.all i
  · intro i t' htoken hfree
    have hbefore : ∀ req ∈ s.busQueue, req.coreId ≠ i := fun req hreq => hfree req (hkept req hreq)
    rw [hwaited, htrans]
    cases hclock i with
    | @moves t k token moved spent =>
      have ht' : t' = t + k := htok'.token_unique htoken moved
      rcases hinv.running i t token hbefore with hle | hle
      · exact .inl hle
      · right
        omega
    | stays same spent => exact hinv.running i t' (same t' htoken) hbefore
  · intro req hreq
    have hown := hown req.coreId
    rw [htrans]
    rcases hnew req hreq with hold | hbound
    · have hle := hinv.queued req hold
      omega
    · omega

/-- A grant serves the requester up to the new release time, which every other request in the
queue sees coming: the bus is taken on from where it was left, or from the arrival of a
request that had to wait for nothing. -/
theorem waitBound_granted (hinv : WaitBound cfg R h s) (htiming : TimingInv cfg R h s)
    (hclock : ClockInv cfg R h s) (htok : s.TokenInv) {t latency : Nat} {req : BusRequest n}
    {machine : Machine S n} (free : s.busBusy = false)
    (first : minElement (BusRequest.precedes cfg.readPriority) s.busQueue = some req)
    (bus : handleBusTransaction R cfg.geometry s.machine req.coreId req.type req.addr =
      some (latency, machine)) (hnow : t = s.currentTime)
    (htok' : ((s.pop (.busArbitration t)).granted t req latency machine).TokenInv) :
    WaitBound cfg R (⟨s, .busArbitration t,
      (s.pop (.busArbitration t)).granted t req latency machine⟩ :: h)
      ((s.pop (.busArbitration t)).granted t req latency machine) := by
  have hreq : req ∈ s.busQueue := minElement_mem first
  have htype := (htok.types req hreq).ne_writeback
  have htrans := transactions_granted (h := h) (t := t) free first bus
  have hown (i : Fin n) : (machine.cStats i).ownCycles = (s.machine.cStats i).ownCycles := by
    obtain ⟨received, sent, heq⟩ := (handleBusTransaction_cStats bus).1 i
    rw [heq]
    rfl
  have hwaited (i : Fin n) : waited cfg R i (⟨s, .busArbitration t,
      (s.pop (.busArbitration t)).granted t req latency machine⟩ :: h) =
        waited cfg R i h + if req.coreId = i then t + latency - req.arrivalTime else 0 := by
    have hspent := accounted_granted (t := t) (h := h) free first bus i
    rw [accounted_eq, accounted_eq] at hspent
    have hsame := hown i
    change (machine.cStats i).ownCycles + _ = _ at hspent
    omega
  -- a waiting request would not be served before now if its core waited for every transaction
  have hserved (r : BusRequest n) (hr : r ∈ s.busQueue) :
      t ≤ (s.machine.cStats r.coreId).ownCycles + busTime (transactions cfg R h) := by
    have hdue := htiming.due free r hr
    have harrival := hclock.token r.coreId r.arrivalTime (.request rfl hr)
    have hall := hinv.all r.coreId
    have hqueued := hinv.queued r hr
    rw [accounted_eq] at harrival
    omega
  refine ⟨?_, ?_, ?_⟩
  · intro i
    rw [hwaited, htrans, busTime_cons]
    change _ ≤ latency + busTime (transactions cfg R h)
    have hall := hinv.all i
    split
    · rename_i hi
      subst hi
      have harrival := hclock.token req.coreId req.arrivalTime (.request rfl hreq)
      have ht := hserved req hreq
      rw [accounted_eq] at harrival
      omega
    · omega
  · intro i t' htoken _
    rw [hwaited, htrans, List.tail_cons]
    by_cases hi : req.coreId = i
    · right
      subst hi
      have hunblock : ((s.pop (.busArbitration t)).granted t req latency machine).TokenAt
          req.coreId (t + latency) := .unblock (by simp [granted, htype])
      rw [htok'.token_unique htoken hunblock]
      exact Nat.le_refl _
    · left
      rw [if_neg hi]
      exact hinv.all i
  · intro r hr
    have hr : r ∈ s.busQueue := List.mem_of_mem_erase hr
    have ht := hserved r hr
    rw [htrans, busTime_cons]
    change t + latency ≤ (machine.cStats r.coreId).ownCycles + _
    rw [hown]
    change t + latency ≤ _ + (latency + _)
    omega

/-- A request that arrives now waits at most for the transaction that is going on, which has
already begun. -/
theorem waitBound_arrival (hr : (system cfg R traces).Run h s) (hinv : WaitBound cfg R h s)
    (hclock : ClockInv cfg R h s) (htok : s.TokenInv) {t : Nat} {i : Fin n}
    (he : .fetch t i ∈ s.eventQueue) : lastFinish (transactions cfg R h) ≤
      (s.machine.cStats i).ownCycles + busTime (transactions cfg R h) := by
  have hnow : s.currentTime ≤ t := (busInv_reached hr.reached).pending _ he
  have htoken : s.TokenAt i t := .fetch he
  have harrival := hclock.token i t htoken
  rw [accounted_eq] at harrival
  have hall := hinv.all i
  have hfree (req : BusRequest n) (hreq : req ∈ s.busQueue) : req.coreId ≠ i :=
    (htok.fetch_not_waiting he hreq).symm
  rcases hinv.running i t htoken hfree with hle | hle
  · cases hl : transactions cfg R h with
    | nil => exact Nat.zero_le _
    | cons a earlier =>
      have hstart : a.start ≤ s.currentTime :=
        start_le_currentTime hr (by rw [hl]; exact List.mem_cons_self)
      rw [hl, List.tail_cons] at hle
      change a.start + a.latency ≤ _
      rw [busTime_cons]
      omega
  · omega

theorem waitBound_fired (hr : (system cfg R traces).Run h s) (hinv : WaitBound cfg R h s)
    (hclock : ClockInv cfg R h s) (htok : s.TokenInv) (htok' : s'.TokenInv)
    (hstep : (system cfg R traces).step s e s') : WaitBound cfg R (⟨s, e, s'⟩ :: h) s' := by
  obtain ⟨he, htop, hf⟩ := fired_of_step hstep
  have htiming := timingInv_run hr
  have hbus := busInv_reached hr.reached
  have hpending := hbus.pending e he
  have hclocks (i : Fin n) := clockStep_fired htiming htok he hpending hf i
  cases busStep_of_step hr.reached hstep with
  | @release t _ busy pending free queue wake =>
    apply hinv.of_no_grant rfl htok' hclocks
    · intro req hreq
      rwa [queue]
    · intro req hreq
      rw [queue] at hreq
      exact .inl hreq
  | @grant req latency _ free first bus busy queue release =>
    obtain ⟨t, latency, machine, heq, bus, rfl⟩ :=
      granted_of_fired hf (grantOf_grant s' free first)
    obtain rfl : s.currentTime = t := Event.busArbitration.inj heq
    exact waitBound_granted hinv htiming hclock htok free first bus rfl htok'
  | @enqueue t req _ arrival same queue alone keeps =>
    apply hinv.of_no_grant rfl htok' hclocks
    · intro req' hreq'
      rw [queue]
      exact List.mem_append_left _ hreq'
    · intro req' hreq'
      rw [queue] at hreq'
      rcases List.mem_append.mp hreq' with hold | hnew
      · exact .inl hold
      · right
        obtain rfl := List.mem_singleton.mp hnew
        exact waitBound_arrival hr hinv hclock htok he
  | quiet none same queue alone keeps =>
    apply hinv.of_no_grant none htok' hclocks
    · intro req hreq
      rwa [queue]
    · intro req hreq
      rw [queue] at hreq
      exact .inl hreq

theorem waitBound_run (hR : R.MissFills) (hr : (system cfg R traces).Run h s) :
    WaitBound cfg R h s := by
  induction hr with
  | @start s hs =>
    subst hs
    refine ⟨?_, ?_, ?_⟩
    · intro i
      exact Nat.le_refl _
    · intro i t _ _
      exact .inl (Nat.le_refl _)
    · intro req hreq
      simp [start] at hreq
  | @next h s s' e hr hstep ih =>
    exact waitBound_fired hr ih (clockInv_run hR hr) (tokenInv_reached hR hr.reached)
      (tokenInv_reached hR (hr.next hstep).reached) hstep

/-! ### The busy time by the counters -/

end Simulator

namespace GlobalStatistics
variable [LineState S] (R : ProtocolRules S) (g : Geometry) (gs : GlobalStatistics)

theorem busTime_writeback : (countWriteback g gs).busTime R g = gs.busTime R g + 100 := by
  simp only [busTime, countWriteback]
  omega

theorem busTime_upgrade : (countUpgrade R gs).busTime R g = gs.busTime R g + R.upgrLatency := by
  simp only [busTime, countUpgrade, Nat.mul_succ]
  omega

theorem busTime_fill (hbalance : gs.Balanced R g) (type : BusTransactionType)
    (cacheToCache : Bool) : (countFill R g type cacheToCache gs).busTime R g =
      gs.busTime R g + if cacheToCache then 1 + 2 * (g.bsize / 4) else 101 := by
  have htransfers := hbalance.transfers
  simp only [busTime, countFill]
  cases cacheToCache <;> cases R.countsRead type <;> simp [Nat.mul_succ] <;> omega

end GlobalStatistics

namespace Simulator
open Transaction (lastFinish)
variable [LineState S] {cfg : Config} {R : ProtocolRules S} {traces : Fin n → List TraceEntry}
  {h : List (Move (Simulator S n) (Event n))} {s s' : Simulator S n} {e : Event n}

/-- A transaction is counted with the time it takes. -/
theorem handleBusTransaction_busTime {g : Geometry} {m m' : Machine S n} {r : Fin n}
    {type : BusTransactionType} {addr : Addr} {latency : Nat} (hbalance : m.gStats.Balanced R g)
    (h : handleBusTransaction R g m r type addr = some (latency, m')) :
    m'.gStats.busTime R g = m.gStats.busTime R g + latency := by
  obtain ⟨k, hk⟩ := snoopAll_gStats R g m r type addr
  have hsnooped : (snoopAll R g m r type addr).machine.gStats.Balanced R g := by
    rw [hk]
    exact ⟨hbalance.transfers, hbalance.traffic, hbalance.readx⟩
  have hsame : (snoopAll R g m r type addr).machine.gStats.busTime R g = m.gStats.busTime R g := by
    rw [hk]
    rfl
  rw [← hsame]
  cases busEffect_of_bus h with
  | writeback => exact GlobalStatistics.busTime_writeback R g _
  | upgrade => exact GlobalStatistics.busTime_upgrade R g _
  | fill =>
    have hfill := GlobalStatistics.busTime_fill R g _ hsnooped type
      (snoopAll R g m r type addr).supplierFound
    cases m.victimDirty R g r addr with
    | false => exact hfill
    | true =>
      have hwriteback := GlobalStatistics.busTime_writeback R g
        (countFill R g type (snoopAll R g m r type addr).supplierFound
          (snoopAll R g m r type addr).machine.gStats)
      rw [hfill, Nat.add_assoc] at hwriteback
      exact hwriteback

theorem busTime_fired (hbalance : s.machine.gStats.Balanced R cfg.geometry)
    (hinv : busTime (transactions cfg R h) = s.machine.gStats.busTime R cfg.geometry)
    (hf : Fired cfg R (s.pop e) e s') : busTime (transactions cfg R (⟨s, e, s'⟩ :: h)) =
      s'.machine.gStats.busTime R cfg.geometry := by
  cases hf with
  | @grant t req latency machine free first bus =>
    have hcounted := handleBusTransaction_busTime hbalance bus
    have htrans := transactions_granted (s := s) (t := t) (h := h) free first bus
    rw [htrans, busTime_cons, hinv]
    change latency + _ = machine.gStats.busTime R cfg.geometry
    omega
  | @idle t hidle =>
    rw [transactions_cons_of_none (grantOf_idle hidle)]
    exact hinv
  | @hit t i entry rest running read label resp =>
    have hbus : (hit cfg R (s.pop (.fetch t i)) t i entry rest).machine.gStats =
        s.machine.gStats := handleProcessorRequest_gStats _ _ _ _ _ _
    rw [transactions_cons_of_none rfl, hinv, hbus]
  | @miss t i entry rest running read label resp =>
    have hbus : (missed cfg R (s.pop (.fetch t i)) t i entry rest).machine.gStats =
        s.machine.gStats := handleProcessorRequest_gStats _ _ _ _ _ _
    rw [transactions_cons_of_none rfl, hinv, hbus]
  | _ =>
    rw [transactions_cons_of_none rfl]
    exact hinv

theorem busTime_run (hR : R.MissFills) (hr : (system cfg R traces).Run h s) :
    busTime (transactions cfg R h) = s.machine.gStats.busTime R cfg.geometry := by
  refine hr.history (K := fun h s => busTime (transactions cfg R h) =
    s.machine.gStats.busTime R cfg.geometry) (fun s hs => (ledger_reached hR hs).bus) ?_ ?_
  · intro s hs
    subst hs
    simp [transactions, busTime, start, Machine.init, GlobalStatistics.busTime]
  · intro h s e s' hstep hbalance hinv
    obtain ⟨-, -, hf⟩ := fired_of_step hstep
    exact busTime_fired hbalance hinv hf

/-- The time a run takes lies between the busy time of the bus, or the cycles of any core that
never waits, and the cycles of the longest core with the busy time of the bus added to them.
The busy time is what the counters of the report say. -/
theorem makespan_bounds (p : ProtocolName) (cfg : Config) (traces : Fin n → List TraceEntry)
    {h : List (Move (Simulator p.State n) (Event n))} {s : Simulator p.State n}
    (hr : (system cfg p.rules traces).Run h s) :
    ((transactions cfg p.rules h).map (·.latency)).sum =
      101 * (s.machine.gStats.busReads + s.machine.gStats.busReadx -
          s.machine.gStats.cacheToCacheTransfers) +
        (1 + 2 * (cfg.geometry.bsize / 4)) * s.machine.gStats.cacheToCacheTransfers +
        100 * s.machine.gStats.busWritebacks +
        (if p = .dragon then 2 * s.machine.gStats.busUpgrades else 0) ∧
    (∀ i, (((transactions cfg p.rules h).filter (·.request.coreId = i)).map
      fun a => a.finish - a.request.arrivalTime).sum ≤
        ((transactions cfg p.rules h).map (·.latency)).sum) ∧
    (s.ended = true →
      ((transactions cfg p.rules h).map (·.latency)).sum ≤ s.currentTime ∧
      (∀ i, (s.machine.cStats i).computeCycles + (s.machine.cStats i).cacheHits ≤
        s.currentTime) ∧
      s.currentTime ≤ (Finset.univ.sup fun i => (s.machine.cStats i).computeCycles +
          (s.machine.cStats i).cacheHits) +
        ((transactions cfg p.rules h).map (·.latency)).sum) := by
  have hupgrades : p.rules.upgrLatency = if p = .dragon then 2 else 0 := by
    cases p <;> rfl
  have hbusTime := busTime_run p.missFills hr
  have hbound := waitBound_run p.missFills hr
  refine ⟨?_, hbound.all, ?_⟩
  · rw [GlobalStatistics.busTime, hupgrades, ite_mul, Nat.zero_mul] at hbusTime
    exact hbusTime
  · intro hend
    have htiming := timingInv_run hr
    have hclock := clockInv_run p.missFills hr
    obtain ⟨hall, hfree, -⟩ := idle_of_ended p.missFills hr.reached hend
    have hfinish (i : Fin n) : ∃ m ∈ h, finishedBy i m = some (accounted cfg p.rules h s i) := by
      obtain ⟨m, hm, hsome⟩ := hclock.finished i (hall i)
      obtain ⟨t, ht⟩ := Option.isSome_iff_exists.mp hsome
      rw [← (hclock.finish m hm i t ht).2]
      exact ⟨m, hm, ht⟩
    refine ⟨htiming.timed.busTime_le.trans (htiming.past hfree), ?_, ?_⟩
    · intro i
      obtain ⟨m, hm, hfin⟩ := hfinish i
      have hle := finishTime_le hr hm hfin
      rw [accounted] at hle
      omega
    · cases h with
      | nil =>
        cases hr with
        | start hs =>
          subst hs
          exact Nat.zero_le _
      | cons m h =>
        obtain ⟨i, hi⟩ := last_move_finishes p.missFills hr hall
        have htime := (hclock.finish m List.mem_cons_self i _ hi).2
        have hwaited := hbound.all i
        have hown := Finset.le_sup (f := fun i => (s.machine.cStats i).computeCycles +
          (s.machine.cStats i).cacheHits) (Finset.mem_univ i)
        rw [accounted] at htime
        change _ ≤ _ + busTime (transactions cfg p.rules (m :: h))
        omega

/-- Core 1 waits out the whole fill of core 0, and its own fill is from cache to cache. -/
theorem makespan_bounds_storeAndLoad :
    ∃ (h : List (Move (Simulator MESIState 2) (Event 2))) (s : Simulator MESIState 2),
      (system tinyConfig (ProtocolName.rules .mesi) storeAndLoad).Run h s ∧ s.ended = true ∧
      s.machine.gStats.cacheToCacheTransfers = 1 ∧
      ((transactions tinyConfig (ProtocolName.rules .mesi) h).map (·.latency)).sum ≤
        s.currentTime := by
  obtain ⟨h, s, hr, ht⟩ := exists_run tinyConfig (ProtocolName.rules .mesi) storeAndLoad
    [.fetch 0 0, .busArbitration 0, .fetch 0 1, .busRelease 101, .busArbitration 101,
      .coreUnblock 101 0, .fetch 101 0, .busRelease 104, .coreUnblock 104 1, .fetch 104 1]
    (fun _ s => s.ended && s.machine.gStats.cacheToCacheTransfers == 1) (by decide +kernel)
  obtain ⟨hend, hshared⟩ := Bool.and_eq_true_iff.mp ht
  have hbounds := (makespan_bounds .mesi tinyConfig storeAndLoad hr).2.2 hend
  exact ⟨h, s, hr, hend, beq_iff_eq.mp hshared, hbounds.1⟩

end Simulator
end CoherenceFormal
