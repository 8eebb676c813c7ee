import CoherenceFormal.CycleAccounting
import CoherenceFormal.Arbitration

/-!
# What an access costs

A hit takes one cycle and a fill at least one. The upgrade of the invalidation protocols
is an address-only signal that takes none. One that has to wait costs its core the wait, so
a core can be through with more accesses than there were cycles, by as many as it has made
upgrades that were granted in the cycle in which they were queued.
-/

namespace CoherenceFormal
open LineState
set_option autoImplicit false

/-- The idle cycles of `print_report`. -/
def Statistics.idle (totalCycles : Nat) (st : Statistics) : Nat :=
  let ls := st.loadCount + st.storeCount
  if totalCycles > st.computeCycles + ls then totalCycles - st.computeCycles - ls else 0

variable {S : Type} [LineState S] {n : Nat}

/-- An upgrade that is granted in the cycle in which it is queued. -/
def Transaction.Instant (a : Transaction n) : Prop :=
  a.request.type = .busUpgr ∧ a.start = a.request.arrivalTime

instance (a : Transaction n) : Decidable a.Instant := inferInstanceAs (Decidable (_ ∧ _))

theorem fill_latency_pos {R : ProtocolRules S} {g : Geometry} {m m' : Machine S n} {r : Fin n}
    {type : BusTransactionType} {addr : Addr} {latency : Nat} (hu : type ≠ .busUpgr)
    (h : handleBusTransaction R g m r type addr = some (latency, m')) : 1 ≤ latency := by
  cases busEffect_of_bus h with
  | writeback => omega
  | upgrade => exact absurd rfl hu
  | fill =>
    split
    · omega
    · omega

namespace Simulator
variable {cfg : Config} {R : ProtocolRules S} {traces : Fin n → List TraceEntry}
  {h : List (Move (Simulator S n) (Event n))} {s s' : Simulator S n} {e : Event n}

/-! ### The time between two Fetches -/

theorem ClockStep.accounted_le {i : Fin n} (hc : ClockStep cfg R h s e s' i) :
    accounted cfg R h s i ≤ accounted cfg R (⟨s, e, s'⟩ :: h) s' i := by
  cases hc with
  | moves token moved spent => omega
  | stays same spent => omega

theorem accounted_le (hR : R.MissFills) {later : List (Move (Simulator S n) (Event n))}
    {m : Move (Simulator S n) (Event n)} (hr : (system cfg R traces).Run (later ++ m :: h) s)
    (i : Fin n) :
    accounted cfg R (m :: h) m.after i ≤ accounted cfg R (later ++ m :: h) s i := by
  refine hr.since (K := fun l s => accounted cfg R (m :: h) m.after i ≤
    accounted cfg R (l ++ m :: h) s i) ?_ ?_
  · intro s₀ hr₀
    rw [hr₀.last.2.2]
    exact Nat.le_refl _
  · intro l s e s' hrun hstep hle
    obtain ⟨he, -, hf⟩ := fired_of_step hstep
    have hclock := clockStep_fired (timingInv_run hrun) (tokenInv_reached hR hrun.reached) he
      ((busInv_reached hrun.reached).pending e he) hf i
    exact Nat.le_trans hle hclock.accounted_le

/-- A Fetch that comes after core `i`'s token has been at time `t` is no earlier. -/
theorem fetch_time_ge (hR : R.MissFills) {later : List (Move (Simulator S n) (Event n))}
    {m m' : Move (Simulator S n) (Event n)} {i : Fin n} {t t' : Nat}
    (hr : (system cfg R traces).Run (m' :: (later ++ m :: h)) s) (hm' : m'.label = .fetch t' i)
    (token : m.after.TokenAt i t) : t ≤ t' := by
  obtain ⟨hrun, hstep, -⟩ := hr.last
  obtain ⟨hearlier, hstep₀⟩ := hrun.before_move
  obtain ⟨he, -, -⟩ := fired_of_step hstep
  rw [hm'] at he
  have hle := accounted_le hR hrun i
  rw [← (clockInv_run hR (hearlier.next hstep₀)).token i t token,
    ← (clockInv_run hR hrun).token i t' (.fetch he)] at hle
  exact hle

/-- A grant moves the token to the end of the transaction. -/
theorem token_after_grant (hR : R.MissFills) {m : Move (Simulator S n) (Event n)}
    (hr : (system cfg R traces).Run (m :: h) s) {req : BusRequest n}
    (hg : grantOf cfg m = some req) : ∃ latency machine,
      handleBusTransaction R cfg.geometry m.before.machine req.coreId req.type req.addr =
        some (latency, machine) ∧
      m.after.TokenAt req.coreId (m.label.timestamp + latency) ∧
      req.arrivalTime ≤ m.label.timestamp := by
  obtain ⟨hrun, hstep, -⟩ := hr.last
  obtain ⟨s, e, s'⟩ := m
  obtain ⟨he, -, hf⟩ := fired_of_step hstep
  change Fired cfg R (s.pop e) e s' at hf
  have htok := tokenInv_reached hR hrun.reached
  have harrived := (timingInv_run hrun).arrived req (grantOf_mem hg)
  have hnow := (busInv_reached hrun.reached).pending e he
  have htype := (htok.types req (grantOf_mem hg)).ne_writeback
  obtain ⟨t, latency, machine, rfl, bus, rfl⟩ := granted_of_fired hf hg
  exact ⟨latency, machine, bus, .unblock (by simp [granted, htype, Event.timestamp]),
    Nat.le_trans harrived hnow⟩

/-- The transaction of a grant starts no earlier than its request, and ends later unless it is
an upgrade that did not wait. -/
theorem transactionOf_cost (hR : R.MissFills) {m : Move (Simulator S n) (Event n)}
    (hr : (system cfg R traces).Run (m :: h) s) {a : Transaction n}
    (ha : transactionOf cfg R m = some a) (hcost : ¬ a.Instant) :
    a.request.arrivalTime + 1 ≤ a.finish := by
  obtain ⟨req, hg, hma⟩ := Option.bind_eq_some_iff.mp ha
  obtain ⟨⟨latency, machine⟩, hbus, rfl⟩ := Option.map_eq_some_iff.mp hma
  obtain ⟨-, -, -, -, harrived⟩ := token_after_grant hR hr hg
  change req.arrivalTime + 1 ≤ m.label.timestamp + latency
  by_cases hu : req.type = .busUpgr
  · have hwaited : m.label.timestamp ≠ req.arrivalTime := fun hstart => hcost ⟨hu, hstart⟩
    omega
  · have hpos := fill_latency_pos hu hbus
    omega

/-- The next Fetch of a core whose request is no instant upgrade is at least a cycle later. -/
theorem fetch_after_request (hR : R.MissFills) {mid : List (Move (Simulator S n) (Event n))}
    {m m' : Move (Simulator S n) (Event n)} {req : BusRequest n} {t' : Nat}
    (hr : (system cfg R traces).Run (m' :: (mid ++ m :: h)) s)
    (hm' : m'.label = .fetch t' req.coreId) (hq : queuedBy m = some req)
    (hcost : ∀ a ∈ transactions cfg R mid, a.request = req → ¬ a.Instant) :
    req.arrivalTime + 1 ≤ t' := by
  obtain ⟨hrun, hstep, -⟩ := hr.last
  obtain ⟨he, -, -⟩ := fired_of_step hstep
  rw [hm'] at he
  rcases queued_waits hrun hq with hwaits | ⟨g, hg, hgrant⟩
  · exact absurd rfl ((tokenInv_reached hR hrun.reached).fetch_not_waiting he hwaits)
  · obtain ⟨l₂, l₁, rfl⟩ := List.append_of_mem hg
    rw [List.append_assoc, List.cons_append] at hr hrun
    obtain ⟨hbefore, hstepg⟩ := hrun.before_move
    obtain ⟨latency, machine, hbus, htoken, -⟩ :=
      token_after_grant hR (hbefore.next hstepg) hgrant
    have ha : transactionOf cfg R g = some ⟨req, g.label.timestamp, latency⟩ := by
      rw [transactionOf, hgrant, Option.bind_some, hbus, Option.map_some]
    have hpast := transactionOf_cost hR (hbefore.next hstepg) ha
      (hcost _ (List.mem_filterMap.mpr ⟨g, hg, ha⟩) rfl)
    have hle := fetch_time_ge hR hr hm' htoken
    exact Nat.le_trans hpast hle

/-- The next Fetch of a core is no earlier than an access, and later unless the access is
sent as an upgrade that is granted in the same cycle. -/
theorem fetch_after_access (hR : R.MissFills) {mid : List (Move (Simulator S n) (Event n))}
    {m m' : Move (Simulator S n) (Event n)} {i : Fin n} {entry : TraceEntry} {t t' : Nat}
    (hr : (system cfg R traces).Run (m' :: (mid ++ m :: h)) s) (hm : m.label = .fetch t i)
    (hm' : m'.label = .fetch t' i) (hentry : executedBy i m = some entry)
    (hlabel : entry.label ≠ 2) :
    t ≤ t' ∧ ((∀ a ∈ transactions cfg R mid, queuedBy m = some a.request → ¬ a.Instant) →
      t + 1 ≤ t') := by
  obtain ⟨hrun, -, -⟩ := hr.last
  obtain ⟨hearlier, hstep⟩ := hrun.before_move
  obtain ⟨he, -, hf⟩ := fired_of_step hstep
  obtain ⟨s, e, s'⟩ := m
  change e = .fetch t i at hm
  subst hm
  change Fired cfg R (s.pop (.fetch t i)) (.fetch t i) s' at hf
  simp only [executedBy, true_and] at hentry
  split at hentry
  · rename_i hblocked
    cases hf with
    | stalled h =>
      change s.blocked i = true at h
      simp [hblocked] at h
    | exhausted running done =>
      change s.traces i = [] at done
      simp [done] at hentry
    | compute running read label =>
      change s.traces i = _ at read
      rw [read, List.head?_cons] at hentry
      obtain rfl := Option.some.inj hentry
      exact absurd label hlabel
    | hit running read label resp =>
      have hle := fetch_time_ge hR hr hm' (t := t + 1) (.fetch List.mem_cons_self)
      exact ⟨by omega, fun _ => hle⟩
    | @miss _ _ entry' rest running read label resp =>
      have hqueued : queuedBy ⟨s, .fetch t i, missed cfg R (s.pop (.fetch t i)) t i entry' rest⟩ =
          some ⟨i, ((s.pop (.fetch t i)).access cfg R i entry').1.busAction, entry'.val, t⟩ := by
        simp [queuedBy, missed]
      refine ⟨?_, ?_⟩
      · have htoken := TokenAt.request
          (s := missed cfg R (s.pop (.fetch t i)) t i entry' rest) rfl
          (List.mem_append_right _ List.mem_cons_self)
        exact fetch_time_ge hR hr hm' htoken
      · intro hcost
        exact fetch_after_request hR hr hm' hqueued fun a ha hreq =>
          hcost a ha (by rw [hqueued, hreq])
  · simp at hentry

/-! ### The accesses of a whole run -/

/-- The upgrades that core `i` has been granted without a wait. -/
def instantUpgrades (cfg : Config) (R : ProtocolRules S) (i : Fin n)
    (h : List (Move (Simulator S n) (Event n))) : Nat :=
  ((transactions cfg R h).filter fun a => a.request.coreId = i ∧ a.Instant).length

/-- Every miss of core `i` has had its transaction, or waits for it. -/
def MissesServed (cfg : Config) (R : ProtocolRules S) (i : Fin n)
    (h : List (Move (Simulator S n) (Event n))) (s : Simulator S n) : Prop :=
  (s.machine.cStats i).cacheMisses =
    ((transactions cfg R h).filter (·.request.coreId = i)).length + s.requests i

/-- An entry of core `j` that counts `missed` misses and queues as many requests. -/
theorem missesServed_counted {i j : Fin n} {st : Statistics} {missed : Nat}
    (hold : MissesServed cfg R i h s) (hg : grantOf cfg ⟨s, e, s'⟩ = none)
    (hcounts : (s.machine.cStats j).Counts st missed)
    (hstats : s'.machine.cStats = Function.update s.machine.cStats j st)
    (hreq : s'.requests i = s.requests i + if i = j then missed else 0) :
    MissesServed cfg R i (⟨s, e, s'⟩ :: h) s' := by
  unfold MissesServed at hold ⊢
  rw [transactions_cons_of_none hg, hstats, hreq, ← Nat.add_assoc, ← hold]
  by_cases hi : i = j
  · rw [if_pos hi, hi, Function.update_self, hcounts.misses]
  · rw [if_neg hi, Function.update_of_ne hi, Nat.add_zero]

theorem missesServed_granted {i : Fin n} {t : Nat} {req : BusRequest n} {latency : Nat}
    {machine : Machine S n} (hold : MissesServed cfg R i h s) (free : s.busBusy = false)
    (first : minElement (BusRequest.precedes cfg.readPriority) s.busQueue = some req)
    (bus : handleBusTransaction R cfg.geometry s.machine req.coreId req.type req.addr =
      some (latency, machine)) :
    MissesServed cfg R i (⟨s, .busArbitration t,
      (s.pop (.busArbitration t)).granted t req latency machine⟩ :: h)
      ((s.pop (.busArbitration t)).granted t req latency machine) := by
  unfold MissesServed at hold ⊢
  have hreq : req ∈ s.busQueue := minElement_mem first
  obtain ⟨received, sent, heq⟩ := (handleBusTransaction_cStats bus).1 i
  have hcount := requests_erase hreq i
  change (machine.cStats i).cacheMisses = _ + (s.busQueue.erase req).countP _
  rw [heq, transactions_granted free first bus, List.filter_cons]
  change (s.machine.cStats i).cacheMisses = _
  rw [hold, hcount]
  by_cases hi : req.coreId = i
  · simp only [hi, decide_true, if_true, List.length_cons]
    omega
  · simp [hi]

theorem missesServed_fired (hf : Fired cfg R (s.pop e) e s') (i : Fin n)
    (hold : MissesServed cfg R i h s) : MissesServed cfg R i (⟨s, e, s'⟩ :: h) s' := by
  -- neither the misses nor the requests of any core change
  have quiet (hg : grantOf cfg ⟨s, e, s'⟩ = none) (hm : s'.machine = s.machine)
      (hq : s'.busQueue = s.busQueue) : MissesServed cfg R i (⟨s, e, s'⟩ :: h) s' := by
    unfold MissesServed requests at hold ⊢
    rw [transactions_cons_of_none hg, hm, hq]
    exact hold
  cases hf with
  | idle hidle => exact quiet (grantOf_idle hidle) rfl rfl
  | @grant t req latency machine free first bus => exact missesServed_granted hold free first bus
  | @compute t j entry rest running read label =>
    exact missesServed_counted hold rfl ((s.machine.cStats j).counts_compute entry.val.toNat) rfl
      (by simp [requests, computed])
  | @hit t j entry rest running read label resp =>
    have hhit : ((s.pop (.fetch t j)).access cfg R j entry).1.isHit = true := by
      rw [access_response, resp]
    obtain ⟨st, hcounts, hstats⟩ := hit_cStats t j entry rest hhit
    exact missesServed_counted hold rfl hcounts hstats (by simp [requests, hit])
  | @miss t j entry rest running read label resp =>
    rw [← access_response] at resp
    obtain ⟨st, hcounts, hstats⟩ := missed_cStats t j entry rest resp
    refine missesServed_counted hold rfl hcounts hstats ?_
    simp only [requests, missed, pop_busQueue, List.countP_append, List.countP_cons,
      List.countP_nil, Nat.zero_add, beq_iff_eq, eq_comm (a := i)]
  | _ => exact quiet rfl rfl rfl

theorem missesServed_run (hr : (system cfg R traces).Run h s) (i : Fin n) :
    MissesServed cfg R i h s := by
  refine hr.history (J := fun _ => True) (K := MissesServed cfg R i) (fun _ _ => trivial) ?_ ?_
  · intro s hs
    subst hs
    rfl
  · intro h s e s' hstep _ hold
    obtain ⟨-, -, hf⟩ := fired_of_step hstep
    exact missesServed_fired hf i hold

omit [LineState S] in
/-- Transactions that take a cycle each, instant upgrades apart. -/
theorem transactions_length_le {l : List (Transaction n)} (i : Fin n)
    (hcost : ∀ a ∈ l, ¬ a.Instant → a.request.arrivalTime + 1 ≤ a.finish) :
    (l.filter (·.request.coreId = i)).length ≤
      ((l.filter (·.request.coreId = i)).map fun a => a.finish - a.request.arrivalTime).sum +
        (l.filter fun a => a.request.coreId = i ∧ a.Instant).length := by
  induction l with
  | nil => exact Nat.zero_le _
  | cons a l ih =>
    have ih := ih fun b hb => hcost b (List.mem_cons_of_mem _ hb)
    by_cases hi : a.request.coreId = i
    · rw [List.filter_cons_of_pos (by simpa using hi), List.length_cons, List.map_cons,
        List.sum_cons]
      by_cases hu : a.Instant
      · rw [List.filter_cons_of_pos (by simp [hi, hu]), List.length_cons]
        omega
      · have ha := hcost a List.mem_cons_self hu
        rw [List.filter_cons_of_neg (by simp [hu])]
        omega
    · rw [List.filter_cons_of_neg (by simpa using hi), List.filter_cons_of_neg (by simp [hi])]
      exact ih

theorem transaction_cost (hR : R.MissFills) (hr : (system cfg R traces).Run h s)
    {a : Transaction n} (ha : a ∈ transactions cfg R h) (hcost : ¬ a.Instant) :
    a.request.arrivalTime + 1 ≤ a.finish := by
  obtain ⟨m, hm, hma⟩ := List.mem_filterMap.mp ha
  obtain ⟨later, earlier, rfl⟩ := List.append_of_mem hm
  obtain ⟨hrun, hstep⟩ := hr.before_move
  exact transactionOf_cost hR (hrun.next hstep) hma hcost

/-- The accesses of a core that has finished fit into the time it took, instant upgrades
apart. -/
theorem accesses_le (hR : R.MissFills) (hr : (system cfg R traces).Run h s)
    (hend : s.ended = true) (i : Fin n) :
    (s.machine.cStats i).computeCycles + (s.machine.cStats i).loadCount +
      (s.machine.cStats i).storeCount ≤ s.currentTime + instantUpgrades cfg R i h := by
  obtain ⟨hall, -, hqueue⟩ := idle_of_ended hR hr.reached hend
  have hclock := clockInv_run hR hr
  obtain ⟨m, hm, hfin⟩ := hclock.finished i (hall i)
  obtain ⟨t, hfin⟩ := Option.isSome_iff_exists.mp hfin
  have htime := (hclock.finish m hm i t hfin).2
  have hle := finishTime_le hr hm hfin
  have haccesses := ((ledger_reached hR hr.reached).cores i).accesses
  have hmisses := missesServed_run hr i
  have hnone : s.requests i = 0 := by
    rw [requests, hqueue]
    rfl
  have hcost := transactions_length_le (l := transactions cfg R h) i
    fun a ha hcost => transaction_cost hR hr ha hcost
  rw [accounted, waited] at htime
  rw [MissesServed] at hmisses
  rw [instantUpgrades]
  omega

/-- A load or store costs its core at least a cycle unless it is sent as an upgrade that is
granted in the cycle in which it is queued, and at the end the report subtracts no more than
the total, these upgrades apart. -/
theorem access_costs_a_cycle (p : ProtocolName) (cfg : Config) (traces : Fin n → List TraceEntry)
    {h : List (Move (Simulator p.State n) (Event n))} {s : Simulator p.State n}
    (hr : (system cfg p.rules traces).Run h s) :
    (∀ later mid earlier m m' i entry t t', h = later ++ m' :: (mid ++ m :: earlier) →
      m.label = .fetch t i → m'.label = .fetch t' i → executedBy i m = some entry →
      entry.label ≠ 2 →
      t ≤ t' ∧ ((∀ a ∈ transactions cfg p.rules mid, queuedBy m = some a.request → ¬ a.Instant) →
        t + 1 ≤ t')) ∧
    (s.ended = true → ∀ i,
      (s.machine.cStats i).computeCycles + (s.machine.cStats i).loadCount +
        (s.machine.cStats i).storeCount ≤ s.currentTime + instantUpgrades cfg p.rules i h ∧
      (instantUpgrades cfg p.rules i h = 0 → (s.machine.cStats i).idle s.currentTime +
        (s.machine.cStats i).computeCycles + (s.machine.cStats i).loadCount +
          (s.machine.cStats i).storeCount = s.currentTime)) := by
  refine ⟨?_, ?_⟩
  · intro later mid earlier m m' i entry t t' hh hm hm' hentry hlabel
    subst hh
    obtain ⟨hrun, hstep⟩ := hr.before_move
    exact fetch_after_access p.missFills (hrun.next hstep) hm hm' hentry hlabel
  · intro hend i
    have hle := accesses_le p.missFills hr hend i
    refine ⟨hle, ?_⟩
    intro hnone
    rw [hnone] at hle
    dsimp only [Statistics.idle]
    split <;> omega

/-- The store and the load of one block, neither of which is an upgrade. -/
theorem access_costs_a_cycle_storeAndLoad :
    ∃ (h : List (Move (Simulator MESIState 2) (Event 2))) (s : Simulator MESIState 2),
      (system tinyConfig (ProtocolName.rules .mesi) storeAndLoad).Run h s ∧ s.ended = true ∧
      instantUpgrades tinyConfig (ProtocolName.rules .mesi) 1 h = 0 ∧
      (s.machine.cStats 1).idle s.currentTime + (s.machine.cStats 1).computeCycles +
        (s.machine.cStats 1).loadCount + (s.machine.cStats 1).storeCount = s.currentTime := by
  obtain ⟨h, s, hr, ht⟩ := exists_run tinyConfig (ProtocolName.rules .mesi) storeAndLoad
    [.fetch 0 0, .busArbitration 0, .fetch 0 1, .busRelease 101, .busArbitration 101,
      .coreUnblock 101 0, .fetch 101 0, .busRelease 104, .coreUnblock 104 1, .fetch 104 1]
    (fun h s => s.ended && instantUpgrades tinyConfig (ProtocolName.rules .mesi) 1 h == 0)
    (by decide +kernel)
  obtain ⟨hend, hnone⟩ := Bool.and_eq_true_iff.mp ht
  have hnone := beq_iff_eq.mp hnone
  exact ⟨h, s, hr, hend, hnone,
    ((access_costs_a_cycle .mesi tinyConfig storeAndLoad hr).2 hend 1).2 hnone⟩

/-- One set of two one-byte blocks, which a cache supplies in a single cycle. -/
def byteConfig : Config := ⟨false, ⟨2, 2, 1, Nat.two_pos, by decide, by decide, by decide⟩⟩

/-- Core 0 computes while core 1 loads a block, and then loads and stores to it. -/
def sharedThenStored (i : Fin 2) : List TraceEntry :=
  if i = 0 then [⟨2, 101⟩, ⟨0, 0⟩, ⟨1, 0⟩] else [⟨0, 0⟩]

/-- The store is fetched at time 102 as an upgrade, and so is the entry after it: the trace
is exhausted at 102, when core 0 has spent 101 compute cycles and two accesses. The report
gives it no idle cycles. -/
theorem upgrade_costs_no_cycle :
    ∃ (h : List (Move (Simulator MESIState 2) (Event 2)))
      (m m' : Move (Simulator MESIState 2) (Event 2)),
      (system byteConfig (ProtocolName.rules .mesi) sharedThenStored).Run (m' :: h) m'.after ∧
      m ∈ h ∧ m.label = .fetch 102 0 ∧ executedBy 0 m = some ⟨1, 0⟩ ∧ m'.label = .fetch 102 0 ∧
      m'.after.ended = true ∧ m'.after.currentTime = 102 ∧
      (m'.after.machine.cStats 0).computeCycles + (m'.after.machine.cStats 0).loadCount +
        (m'.after.machine.cStats 0).storeCount = 103 ∧
      (m'.after.machine.cStats 0).idle 102 = 0 := by
  obtain ⟨h, m', hr, ht⟩ := exists_last_move byteConfig (ProtocolName.rules .mesi) sharedThenStored
    [.fetch 0 0, .fetch 0 1, .busArbitration 0, .busRelease 101, .coreUnblock 101 1, .fetch 101 1,
      .fetch 101 0, .busArbitration 101, .busRelease 102, .coreUnblock 102 0, .fetch 102 0,
      .busArbitration 102, .busRelease 102, .coreUnblock 102 0, .fetch 102 0]
    (fun h m' => h.any (fun m => m.label == .fetch 102 0 && executedBy 0 m == some ⟨1, 0⟩) &&
      m'.label == .fetch 102 0 && m'.after.ended && m'.after.currentTime == 102 &&
      (m'.after.machine.cStats 0).computeCycles + (m'.after.machine.cStats 0).loadCount +
        (m'.after.machine.cStats 0).storeCount == 103 &&
      (m'.after.machine.cStats 0).idle 102 == 0) (by decide +kernel)
  simp only [Bool.and_eq_true, List.any_eq_true, beq_iff_eq] at ht
  obtain ⟨⟨⟨⟨⟨⟨m, hm, hlabel, hentry⟩, hlabel'⟩, hend⟩, htime⟩, hcount⟩, hidle⟩ := ht
  exact ⟨h, m, m', hr, hm, hlabel, hentry, hlabel', hend, htime, hcount, hidle⟩

end Simulator
end CoherenceFormal
