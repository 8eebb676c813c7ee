import CoherenceFormal.RunCompletion
import Mathlib.Order.Lattice.Nat

/-!
# Where the cycles of a core go

The clock is global and jumps between the events of all cores, but each core has a time
of its own, that of its token: the timestamp of its pending Fetch or Unblock, or the
arrival time of its queued request. It moves by the cycles of a compute entry, by one on
a hit, and on a grant from the arrival of the request to the end of the transaction.
-/

namespace CoherenceFormal
open LineState
set_option autoImplicit false

variable {S : Type} {n : Nat}

namespace Simulator

/-- The token of core `i` is at time `t`. -/
inductive TokenAt (s : Simulator S n) (i : Fin n) : Nat → Prop where
  | fetch {t : Nat} (pending : .fetch t i ∈ s.eventQueue) : TokenAt s i t
  | unblock {t : Nat} (pending : .coreUnblock t i ∈ s.eventQueue) : TokenAt s i t
  | request {req : BusRequest n} (core : req.coreId = i) (queued : req ∈ s.busQueue) :
      TokenAt s i req.arrivalTime

theorem TokenInv.token_unique {s : Simulator S n} (hinv : s.TokenInv) {i : Fin n} {t t' : Nat}
    (ht : s.TokenAt i t) (ht' : s.TokenAt i t') : t = t' := by
  have hsit := hinv.situated i
  cases ht with
  | fetch pending =>
    have hrun := InSituation.of_fetch hsit pending
    cases ht' with
    | fetch pending' =>
      have heq := eq_of_countP_eq_one hrun.1 pending (by simp [Event.isFetchOf]) pending'
        (by simp [Event.isFetchOf])
      exact (Event.fetch.inj heq).1
    | unblock pending' =>
      cases inSituation_unique hrun (InSituation.of_unblock hsit pending')
    | request core queued =>
      subst core
      cases inSituation_unique hrun (InSituation.of_request hsit queued)
  | unblock pending =>
    have hserved := InSituation.of_unblock hsit pending
    cases ht' with
    | fetch pending' => cases inSituation_unique hserved (InSituation.of_fetch hsit pending')
    | unblock pending' =>
      have heq := eq_of_countP_eq_one hserved.2.1 pending (by simp [Event.isUnblockOf]) pending'
        (by simp [Event.isUnblockOf])
      exact (Event.coreUnblock.inj heq).1
    | request core queued =>
      subst core
      cases inSituation_unique hserved (InSituation.of_request hsit queued)
  | request core queued =>
    subst core
    have hwait := InSituation.of_request hsit queued
    cases ht' with
    | fetch pending' => cases inSituation_unique hwait (InSituation.of_fetch hsit pending')
    | unblock pending' => cases inSituation_unique hwait (InSituation.of_unblock hsit pending')
    | request core' queued' =>
      rw [hinv.request_eq queued queued' core']

/-- An event that schedules nothing for core `i` and queues nothing for it does not move
its token. -/
theorem TokenAt.of_after {s s' : Simulator S n} {e : Event n} {i : Fin n} {t : Nat}
    (new : List (Event n)) (hq : s'.eventQueue = new ++ (s.pop e).eventQueue)
    (hfetch : ∀ t, .fetch t i ∉ new) (hunblock : ∀ t, .coreUnblock t i ∉ new)
    (hbus : ∀ req ∈ s'.busQueue, req.coreId = i → req ∈ s.busQueue) (h : s'.TokenAt i t) :
    s.TokenAt i t := by
  cases h with
  | fetch pending =>
    rw [hq] at pending
    rcases List.mem_append.mp pending with hnew | hold
    · exact absurd hnew (hfetch t)
    · exact .fetch (List.mem_of_mem_erase hold)
  | unblock pending =>
    rw [hq] at pending
    rcases List.mem_append.mp pending with hnew | hold
    · exact absurd hnew (hunblock t)
    · exact .unblock (List.mem_of_mem_erase hold)
  | request core queued => exact .request core (hbus _ queued core)

/-- The next Fetch of another core is not the token of core `i`. -/
theorem TokenAt.of_next_fetch {s s' : Simulator S n} {e : Event n} {i j : Fin n} {t t' : Nat}
    (hij : i ≠ j) (hq : s'.eventQueue = .fetch t' j :: (s.pop e).eventQueue)
    (hbus : s'.busQueue = s.busQueue) (h : s'.TokenAt i t) : s.TokenAt i t := by
  apply TokenAt.of_after [.fetch t' j] hq _ _ _ h
  · simp [hij]
  · simp
  · intro req hreq _
    rwa [hbus] at hreq

/-- Neither is an arbitration. -/
theorem TokenAt.of_arbitration {s s' : Simulator S n} {e : Event n} {i : Fin n} {t t' : Nat}
    {c : Prop} [Decidable c]
    (hq : s'.eventQueue = (if c then [] else [.busArbitration t']) ++ (s.pop e).eventQueue)
    (hbus : ∀ req ∈ s'.busQueue, req.coreId = i → req ∈ s.busQueue) (h : s'.TokenAt i t) :
    s.TokenAt i t := by
  apply TokenAt.of_after _ hq _ _ hbus h
  · intro t''
    split <;> simp
  · intro t''
    split <;> simp

variable [LineState S] {cfg : Config} {R : ProtocolRules S} {traces : Fin n → List TraceEntry}
  {h : List (Move (Simulator S n) (Event n))} {s s' : Simulator S n} {e : Event n}

/-- The cycles from the arrival of each of core `i`'s requests to the end of its
transaction. -/
def waited (cfg : Config) (R : ProtocolRules S) (i : Fin n)
    (h : List (Move (Simulator S n) (Event n))) : Nat :=
  (((transactions cfg R h).filter (·.request.coreId = i)).map
    fun a => a.finish - a.request.arrivalTime).sum

/-- The cycles of core `i` that the statistics and its transactions account for. -/
def accounted (cfg : Config) (R : ProtocolRules S) (h : List (Move (Simulator S n) (Event n)))
    (s : Simulator S n) (i : Fin n) : Nat :=
  (s.machine.cStats i).computeCycles + (s.machine.cStats i).cacheHits + waited cfg R i h

theorem waited_of_no_grant (i : Fin n) (hg : grantOf cfg ⟨s, e, s'⟩ = none) :
    waited cfg R i (⟨s, e, s'⟩ :: h) = waited cfg R i h := by
  rw [waited, waited, transactions_cons_of_none hg]

/-- What an access counts besides the entry itself takes no cycles. -/
theorem access_cycles (cfg : Config) (R : ProtocolRules S) (s : Simulator S n) (j : Fin n)
    (entry : TraceEntry) (i : Fin n) :
    ((s.access cfg R j entry).2.cStats i).computeCycles = (s.machine.cStats i).computeCycles ∧
      ((s.access cfg R j entry).2.cStats i).cacheHits = (s.machine.cStats i).cacheHits := by
  have counted (stats : Fin n → Statistics) {f : Statistics → Statistics}
      (hf : ∀ st, (f st).computeCycles = st.computeCycles ∧ (f st).cacheHits = st.cacheHits) :
      (Function.update stats j (f (stats j)) i).computeCycles = (stats i).computeCycles ∧
        (Function.update stats j (f (stats j)) i).cacheHits = (stats i).cacheHits := by
    by_cases hi : i = j
    · rw [hi, Function.update_self]
      exact hf _
    · rw [Function.update_of_ne hi]
      exact ⟨rfl, rfl⟩
  have haccess := counted s.machine.cStats (f := Statistics.countAccess entry.isWrite)
    fun st => by cases entry.isWrite <;> exact ⟨rfl, rfl⟩
  obtain ⟨shared, hstats⟩ := handleProcessorRequest_cStats R cfg.geometry
    (s.machine.updStats j (Statistics.countAccess entry.isWrite)) j entry.val entry.isWrite
  change (s.access cfg R j entry).2.cStats = _ at hstats
  rw [hstats]
  split
  · have hhit := counted (s.machine.updStats j (Statistics.countAccess entry.isWrite)).cStats
      (f := Statistics.countHit shared) fun st => by cases shared <;> exact ⟨rfl, rfl⟩
    exact ⟨hhit.1.trans haccess.1, hhit.2.trans haccess.2⟩
  · exact haccess

/-- A step as the clock of core `i` sees it: either it moves the core's token by the
cycles it accounts for, or it does neither. -/
inductive ClockStep (cfg : Config) (R : ProtocolRules S)
    (h : List (Move (Simulator S n) (Event n))) (s : Simulator S n) (e : Event n)
    (s' : Simulator S n) (i : Fin n) : Prop where
  | moves {t k : Nat} (token : s.TokenAt i t) (moved : s'.TokenAt i (t + k))
      (spent : accounted cfg R (⟨s, e, s'⟩ :: h) s' i = accounted cfg R h s i + k)
  | stays (same : ∀ t, s'.TokenAt i t → s.TokenAt i t)
      (spent : accounted cfg R (⟨s, e, s'⟩ :: h) s' i = accounted cfg R h s i)

/-- A grant charges the requester with the time from its request to the end of the
transaction, and nobody else. -/
theorem accounted_granted {t latency : Nat} {req : BusRequest n} {machine : Machine S n}
    (free : s.busBusy = false)
    (first : minElement (BusRequest.precedes cfg.readPriority) s.busQueue = some req)
    (bus : handleBusTransaction R cfg.geometry s.machine req.coreId req.type req.addr =
      some (latency, machine)) (i : Fin n) :
    accounted cfg R (⟨s, .busArbitration t,
      (s.pop (.busArbitration t)).granted t req latency machine⟩ :: h)
      ((s.pop (.busArbitration t)).granted t req latency machine) i =
        accounted cfg R h s i + if req.coreId = i then t + latency - req.arrivalTime else 0 := by
  have hwaited : waited cfg R i (⟨s, .busArbitration t,
      (s.pop (.busArbitration t)).granted t req latency machine⟩ :: h) =
      (if req.coreId = i then t + latency - req.arrivalTime else 0) + waited cfg R i h := by
    rw [waited, transactions_granted free first bus]
    by_cases hi : req.coreId = i
    · rw [List.filter_cons_of_pos (by simpa using hi), if_pos hi]
      rfl
    · rw [List.filter_cons_of_neg (by simpa using hi), if_neg hi, Nat.zero_add]
      rfl
  obtain ⟨received, sent, heq⟩ := (handleBusTransaction_cStats bus).1 i
  change (machine.cStats i).computeCycles + (machine.cStats i).cacheHits + _ = _
  rw [hwaited, heq, accounted]
  dsimp only
  omega

theorem clockStep_granted (hready : TimingInv cfg R h s) (htok : s.TokenInv) {t latency : Nat}
    {req : BusRequest n} {machine : Machine S n} (free : s.busBusy = false)
    (first : minElement (BusRequest.precedes cfg.readPriority) s.busQueue = some req)
    (bus : handleBusTransaction R cfg.geometry s.machine req.coreId req.type req.addr =
      some (latency, machine)) (hnow : s.currentTime ≤ t) (i : Fin n) :
    ClockStep cfg R h s (.busArbitration t)
      ((s.pop (.busArbitration t)).granted t req latency machine) i := by
  have hreq : req ∈ s.busQueue := minElement_mem first
  have htype := (htok.types req hreq).ne_writeback
  have hq := granted_eventQueue (s.pop (.busArbitration t)) t latency machine htype
  have hspent := accounted_granted (t := t) (h := h) free first bus i
  have harrived := hready.arrived req hreq
  by_cases hi : req.coreId = i
  · rw [if_pos hi] at hspent
    subst hi
    refine .moves (.request rfl hreq) (.unblock ?_) hspent
    have hsum : req.arrivalTime + (t + latency - req.arrivalTime) = t + latency := by omega
    rw [hsum, hq]
    exact List.mem_cons_self
  · rw [if_neg hi] at hspent
    refine .stays ?_ hspent
    intro t'
    apply TokenAt.of_after _ hq
    · simp
    · simp [Ne.symm hi]
    · intro req' hreq' _
      exact List.mem_of_mem_erase hreq'

theorem accounted_of_no_grant {i : Fin n} (hg : grantOf cfg ⟨s, e, s'⟩ = none) {k : Nat}
    (hstats : (s'.machine.cStats i).computeCycles + (s'.machine.cStats i).cacheHits =
      (s.machine.cStats i).computeCycles + (s.machine.cStats i).cacheHits + k) :
    accounted cfg R (⟨s, e, s'⟩ :: h) s' i = accounted cfg R h s i + k := by
  rw [accounted, accounted, waited_of_no_grant i hg, hstats]
  omega

/-- An event of core `j` that moves its token by `k` cycles and accounts for them, and does
nothing to the other cores. -/
theorem clockStep_of_core {j : Fin n} {t k : Nat} (hg : grantOf cfg ⟨s, e, s'⟩ = none)
    (token : s.TokenAt j t) (moved : s'.TokenAt j (t + k))
    (own : (s'.machine.cStats j).computeCycles + (s'.machine.cStats j).cacheHits =
      (s.machine.cStats j).computeCycles + (s.machine.cStats j).cacheHits + k)
    (others : ∀ i, i ≠ j → (∀ t, s'.TokenAt i t → s.TokenAt i t) ∧
      (s'.machine.cStats i).computeCycles + (s'.machine.cStats i).cacheHits =
        (s.machine.cStats i).computeCycles + (s.machine.cStats i).cacheHits)
    (i : Fin n) : ClockStep cfg R h s e s' i := by
  by_cases hi : i = j
  · subst hi
    exact .moves token moved (accounted_of_no_grant hg own)
  · obtain ⟨hsame, hstats⟩ := others i hi
    exact .stays hsame (accounted_of_no_grant (k := 0) hg hstats)

theorem clockStep_hit {t : Nat} {j : Fin n} (he : .fetch t j ∈ s.eventQueue) (entry : TraceEntry)
    (rest : List TraceEntry) (i : Fin n) :
    ClockStep cfg R h s (.fetch t j) (hit cfg R (s.pop (.fetch t j)) t j entry rest) i := by
  have hcycles (i : Fin n) := access_cycles cfg R (s.pop (.fetch t j)) j entry i
  refine clockStep_of_core (t := t) (k := 1) ?_ (.fetch he) (.fetch ?_) ?_ ?_ i
  · rfl
  · exact List.mem_cons_self
  · simp only [hit, Machine.updStats, Function.update_self]
    rw [(hcycles j).1, (hcycles j).2]
    rfl
  · intro i hi
    refine ⟨fun t' => TokenAt.of_next_fetch hi rfl rfl, ?_⟩
    simp only [hit, Machine.updStats, Function.update_of_ne hi]
    rw [(hcycles i).1, (hcycles i).2]
    rfl

/-- The core's time stays where it is until its request has been granted. -/
theorem clockStep_missed {t : Nat} {j : Fin n} (he : .fetch t j ∈ s.eventQueue)
    (entry : TraceEntry) (rest : List TraceEntry) (i : Fin n) :
    ClockStep cfg R h s (.fetch t j) (missed cfg R (s.pop (.fetch t j)) t j entry rest) i := by
  have hcycles (i : Fin n) := access_cycles cfg R (s.pop (.fetch t j)) j entry i
  have hqueued : ⟨j, ((s.pop (.fetch t j)).access cfg R j entry).1.busAction, entry.val, t⟩ ∈
      (missed cfg R (s.pop (.fetch t j)) t j entry rest).busQueue :=
    List.mem_append_right _ List.mem_cons_self
  refine clockStep_of_core (t := t) (k := 0) ?_ (.fetch he) (.request rfl hqueued) ?_ ?_ i
  · rfl
  · simp only [missed, Machine.updStats, Function.update_self]
    rw [(hcycles j).1, (hcycles j).2]
    rfl
  · intro i hi
    refine ⟨fun t' => TokenAt.of_arbitration rfl ?_, ?_⟩
    · intro req hreq hcore
      rcases List.mem_append.mp hreq with hreq | hreq
      · exact hreq
      · obtain rfl := List.mem_singleton.mp hreq
        exact absurd hcore.symm hi
    · simp only [missed, Machine.updStats, Function.update_of_ne hi]
      rw [(hcycles i).1, (hcycles i).2]
      rfl

theorem clockStep_fired (hready : TimingInv cfg R h s) (htok : s.TokenInv)
    (he : e ∈ s.eventQueue) (hnow : s.currentTime ≤ e.timestamp)
    (hf : Fired cfg R (s.pop e) e s') (i : Fin n) : ClockStep cfg R h s e s' i := by
  have quiet (hg : grantOf cfg ⟨s, e, s'⟩ = none) (hm : s'.machine = s.machine)
      (hsame : ∀ t, s'.TokenAt i t → s.TokenAt i t) : ClockStep cfg R h s e s' i :=
    .stays hsame (accounted_of_no_grant (k := 0) hg (by rw [hm]; rfl))
  cases hf with
  | release => exact quiet rfl rfl fun t' => TokenAt.of_arbitration rfl fun _ h _ => h
  | idle hidle =>
    exact quiet (grantOf_idle hidle) rfl fun t' =>
      TokenAt.of_after [] rfl (by simp) (by simp) fun _ h _ => h
  | @grant t req latency machine free first bus =>
    exact clockStep_granted hready htok free first bus hnow i
  | @unblock t j =>
    refine clockStep_of_core (t := t) (k := 0) ?_ (.unblock he) (.fetch ?_) ?_ ?_ i
    · rfl
    · exact List.mem_cons_self
    · rfl
    · intro i hi
      exact ⟨fun t' => TokenAt.of_next_fetch hi rfl rfl, rfl⟩
  | stalled =>
    exact quiet rfl rfl fun t' => TokenAt.of_after [] rfl (by simp) (by simp) fun _ h _ => h
  | exhausted =>
    exact quiet rfl rfl fun t' => TokenAt.of_after [] rfl (by simp) (by simp) fun _ h _ => h
  | @compute t j entry rest running read label =>
    refine clockStep_of_core (t := t) (k := entry.val.toNat) ?_ (.fetch he) (.fetch ?_) ?_ ?_ i
    · rfl
    · exact List.mem_cons_self
    · simp only [computed, Machine.updStats, pop_machine, Function.update_self]
      omega
    · intro i hi
      refine ⟨fun t' => TokenAt.of_next_fetch hi rfl rfl, ?_⟩
      simp only [computed, Machine.updStats, pop_machine, Function.update_of_ne hi]
  | @hit t j entry rest running read label resp => exact clockStep_hit he entry rest i
  | @miss t j entry rest running read label resp => exact clockStep_missed he entry rest i

/-! ### Finish times -/

omit [LineState S] in
/-- The timestamp of a Fetch of core `i` that finds its trace exhausted. -/
def finishedBy (i : Fin n) (m : Move (Simulator S n) (Event n)) : Option Nat :=
  match m.label with
  | .fetch t j =>
    if j = i ∧ m.before.blocked i = false ∧ m.before.traces i = [] then some t else none
  | _ => none

omit [LineState S] in
theorem finishedBy_eq_some {i : Fin n} {t : Nat} (hm : finishedBy i ⟨s, e, s'⟩ = some t) :
    e = .fetch t i ∧ s.blocked i = false ∧ s.traces i = [] := by
  cases e with
  | fetch t' j =>
    simp only [finishedBy] at hm
    split at hm
    · rename_i hcond
      obtain ⟨rfl, hcond⟩ := hcond
      obtain rfl := Option.some.inj hm
      exact ⟨rfl, hcond⟩
    · simp at hm
  | _ => simp [finishedBy] at hm

theorem exhausted_fired_iff (hf : Fired cfg R (s.pop e) e s') (i : Fin n) :
    s'.traceExhausted i = true ↔
      s.traceExhausted i = true ∨ (finishedBy i ⟨s, e, s'⟩).isSome = true := by
  have quiet (hx : s'.traceExhausted = s.traceExhausted)
      (hm : finishedBy i ⟨s, e, s'⟩ = none) : s'.traceExhausted i = true ↔
        s.traceExhausted i = true ∨ (finishedBy i ⟨s, e, s'⟩).isSome = true := by
    rw [hx, hm]
    simp
  have reads {t : Nat} {j : Fin n} {entry : TraceEntry} {rest : List TraceEntry}
      (read : s.traces j = entry :: rest) (s₁ : Simulator S n) :
      finishedBy i ⟨s, .fetch t j, s₁⟩ = none := by
    by_cases hij : j = i
    · subst hij
      simp [finishedBy, read]
    · simp [finishedBy, hij]
  cases hf with
  | @stalled t j h =>
    change s.blocked j = true at h
    apply quiet rfl
    by_cases hij : j = i
    · subst hij
      simp [finishedBy, h]
    · simp [finishedBy, hij]
  | @exhausted t j running done =>
    change s.blocked j = false at running
    change s.traces j = [] at done
    change Function.update s.traceExhausted j true i = true ↔ _
    by_cases hij : i = j
    · subst hij
      simp [finishedBy, running, done]
    · simp [finishedBy, Ne.symm hij, hij]
  | compute running read label => exact quiet rfl (reads read _)
  | hit running read label resp => exact quiet rfl (reads read _)
  | miss running read label resp => exact quiet rfl (reads read _)
  | _ => exact quiet rfl rfl

/-- The Fetch that finds the trace exhausted takes the core's token away. -/
theorem no_token_after_finish (htok : s.TokenInv) (he : e ∈ s.eventQueue)
    (hf : Fired cfg R (s.pop e) e s') {i : Fin n} {t : Nat}
    (hm : finishedBy i ⟨s, e, s'⟩ = some t) (t' : Nat) : ¬ s'.TokenAt i t' := by
  obtain ⟨rfl, hrun, hdone⟩ := finishedBy_eq_some hm
  have hsit := InSituation.of_fetch (htok.situated i) he
  cases hf with
  | stalled h =>
    change s.blocked i = true at h
    simp [hrun] at h
  | compute running read label =>
    change s.traces i = _ at read
    simp [hdone] at read
  | hit running read label resp =>
    change s.traces i = _ at read
    simp [hdone] at read
  | miss running read label resp =>
    change s.traces i = _ at read
    simp [hdone] at read
  | exhausted running done =>
    intro htoken
    have hcount := countP_scheduled (s.pop (.fetch t i)) he [] rfl (Event.isFetchOf i)
    simp only [Event.isFetchOf, beq_self_eq_true, if_true, List.countP_nil, Nat.add_zero] at hcount
    cases htoken with
    | fetch pending =>
      have hpos : 0 < (s.pop (.fetch t i)).eventQueue.countP (Event.isFetchOf i) :=
        List.countP_pos_iff.mpr ⟨_, pending, by simp [Event.isFetchOf]⟩
      have hone : s.eventQueue.countP (Event.isFetchOf i) = 1 := hsit.1
      omega
    | unblock pending =>
      cases inSituation_unique hsit
        (InSituation.of_unblock (htok.situated i) (List.mem_of_mem_erase pending))
    | request core queued =>
      subst core
      cases inSituation_unique hsit (InSituation.of_request (htok.situated _) queued)

/-- The time of every token, and of every core that has finished, is what is accounted for. -/
structure ClockInv (cfg : Config) (R : ProtocolRules S)
    (h : List (Move (Simulator S n) (Event n))) (s : Simulator S n) : Prop where
  token : ∀ i t, s.TokenAt i t → t = accounted cfg R h s i
  done : ∀ i, s.traceExhausted i = true → ∀ t, ¬ s.TokenAt i t
  finish : ∀ m ∈ h, ∀ i t, finishedBy i m = some t →
    s.traceExhausted i = true ∧ t = accounted cfg R h s i
  finished : ∀ i, s.traceExhausted i = true → ∃ m ∈ h, (finishedBy i m).isSome = true

theorem clockInv_fired (hready : TimingInv cfg R h s) (htok : s.TokenInv) (htok' : s'.TokenInv)
    (he : e ∈ s.eventQueue) (hnow : s.currentTime ≤ e.timestamp)
    (hf : Fired cfg R (s.pop e) e s') (hinv : ClockInv cfg R h s) :
    ClockInv cfg R (⟨s, e, s'⟩ :: h) s' := by
  have hclock (i : Fin n) := clockStep_fired hready htok he hnow hf i
  have hexhausted := exhausted_fired_iff hf
  -- a core that has finished is not moved any more
  have still (i : Fin n) (hi : s.traceExhausted i = true) :
      (∀ t, ¬ s'.TokenAt i t) ∧
        accounted cfg R (⟨s, e, s'⟩ :: h) s' i = accounted cfg R h s i := by
    cases hclock i with
    | moves token moved spent => exact absurd token (hinv.done i hi _)
    | stays same spent => exact ⟨fun t ht => hinv.done i hi t (same t ht), spent⟩
  have stops (i : Fin n) (t : Nat) (hm : finishedBy i ⟨s, e, s'⟩ = some t) :
      accounted cfg R (⟨s, e, s'⟩ :: h) s' i = accounted cfg R h s i := by
    cases hclock i with
    | moves token moved spent => exact absurd moved (no_token_after_finish htok he hf hm _)
    | stays same spent => exact spent
  constructor
  · intro i t ht
    cases hclock i with
    | moves token moved spent =>
      rw [htok'.token_unique ht moved, spent, hinv.token i _ token]
    | stays same spent => rw [spent, hinv.token i t (same t ht)]
  · intro i hi t
    rcases (hexhausted i).mp hi with hold | hnew
    · exact (still i hold).1 t
    · obtain ⟨t', hm⟩ := Option.isSome_iff_exists.mp hnew
      exact no_token_after_finish htok he hf hm t
  · intro m hm i t hfin
    rcases List.mem_cons.mp hm with rfl | hm
    · refine ⟨(hexhausted i).mpr (.inr (by rw [hfin]; rfl)), ?_⟩
      obtain ⟨rfl, -⟩ := finishedBy_eq_some hfin
      rw [stops i t hfin]
      exact hinv.token i t (.fetch he)
    · obtain ⟨hx, ht⟩ := hinv.finish m hm i t hfin
      exact ⟨(hexhausted i).mpr (.inl hx), by rw [(still i hx).2]; exact ht⟩
  · intro i hi
    rcases (hexhausted i).mp hi with hold | hnew
    · obtain ⟨m, hm, hfin⟩ := hinv.finished i hold
      exact ⟨m, List.mem_cons_of_mem _ hm, hfin⟩
    · exact ⟨_, List.mem_cons_self, hnew⟩

theorem clockInv_run (hR : R.MissFills) (hr : (system cfg R traces).Run h s) :
    ClockInv cfg R h s := by
  induction hr with
  | start hs =>
    subst hs
    constructor
    · intro i t ht
      cases ht with
      | fetch pending =>
        obtain ⟨j, -, hj⟩ := List.mem_map.mp pending
        exact (Event.fetch.inj hj).1.symm
      | unblock pending => simp [start] at pending
      | request core queued => simp [start] at queued
    · intro i hi
      simp [start] at hi
    · intro m hm
      simp at hm
    · intro i hi
      simp [start] at hi
  | @next h s s' e hr hstep ih =>
    obtain ⟨he, -, hf⟩ := fired_of_step hstep
    have hbus := busInv_reached hr.reached
    exact clockInv_fired (timingInv_run hr) (tokenInv_reached hR hr.reached)
      (tokenInv_reached hR (hr.next hstep).reached) he (hbus.pending e he) hf ih

/-! ### The last event -/

omit [LineState S] in
/-- A busy bus is released no later than the core it serves is woken. -/
def ServesWhileBusy (s : Simulator S n) : Prop :=
  s.busBusy = true → ∃ r i, .busRelease r ∈ s.eventQueue ∧ .coreUnblock r i ∈ s.eventQueue

theorem servesWhileBusy_fired (htok : s.TokenInv)
    (htop : e.isTop s.eventQueue = true) (hf : Fired cfg R (s.pop e) e s')
    (hinv : s.ServesWhileBusy) : s'.ServesWhileBusy := by
  have keep (hrel : e.isRelease = false) (hbusy : s'.busBusy = s.busBusy) :
      s'.ServesWhileBusy := by
    intro hb
    rw [hbusy] at hb
    obtain ⟨r, i, hrelease, hunblock⟩ := hinv hb
    refine ⟨r, i, release_kept hrel hf hrelease, ?_⟩
    obtain ⟨new, hq, -⟩ := fired_scheduled hf
    rw [hq]
    apply List.mem_append_right
    apply (List.mem_erase_of_ne ?_).mpr hunblock
    -- the Release has the same timestamp and comes first
    rintro rfl
    have hprio := Event.isTop_priority htop hrelease rfl
    simp [Event.getPriority] at hprio
  cases hf with
  | release =>
    intro hb
    simp [released] at hb
  | @grant t req latency machine free first bus =>
    intro _
    have htype := (htok.types req (minElement_mem first)).ne_writeback
    exact ⟨t + latency, req.coreId, by simp [granted], by simp [granted, htype]⟩
  | _ => exact keep rfl rfl

theorem servesWhileBusy_reached (hR : R.MissFills) (hr : (system cfg R traces).Reached s) :
    s.ServesWhileBusy := by
  refine hr.invariant_of (fun s => tokenInv_reached hR) ?_ ?_
  · intro s hs hb
    subst hs
    simp [start] at hb
  · intro s e s' hstep htok hinv
    obtain ⟨-, htop, hf⟩ := fired_of_step hstep
    exact servesWhileBusy_fired htok htop hf hinv

/-- When the last core has finished, the bus is free and nothing waits for it. -/
theorem finished_of_exhausted (hR : R.MissFills) (hr : (system cfg R traces).Reached s)
    (hall : ∀ i, s.traceExhausted i = true) : s.finished = true := by
  have htok := tokenInv_reached hR hr
  have hblocked (i : Fin n) : s.blocked i = false := (exhaustedInv_reached hr i (hall i)).1
  have hfree : s.busBusy = false := by
    cases hb : s.busBusy with
    | false => rfl
    | true =>
      obtain ⟨r, i, -, hunblock⟩ := servesWhileBusy_reached hR hr hb
      have hserved := InSituation.of_unblock (htok.situated i) hunblock
      have hi := hblocked i
      simp [hserved.2.2.2] at hi
  have hqueue : s.busQueue = [] := by
    apply List.eq_nil_iff_forall_not_mem.mpr
    intro req hreq
    have hwait := InSituation.of_request (htok.situated _) hreq
    have hi := hblocked req.coreId
    simp [hwait.2.2.2] at hi
  simp [finished, hall, hblocked, hfree, hqueue]

/-- The loop is left by an event that finds the last trace exhausted. -/
theorem last_move_finishes (hR : R.MissFills) {m : Move (Simulator S n) (Event n)}
    (hr : (system cfg R traces).Run (m :: h) s) (hall : ∀ i, s.traceExhausted i = true) :
    ∃ i, finishedBy i m = some s.currentTime := by
  obtain ⟨hrun, hstep, rfl⟩ := hr.last
  obtain ⟨-, -, hf⟩ := fired_of_step hstep
  by_contra hnone
  rw [not_exists] at hnone
  have hall' (i : Fin n) : m.before.traceExhausted i = true := by
    rcases (exhausted_fired_iff hf i).mp (hall i) with hold | hnew
    · exact hold
    · obtain ⟨t, ht⟩ := Option.isSome_iff_exists.mp hnew
      obtain ⟨hlabel, -⟩ := finishedBy_eq_some ht
      have htime := (step_time (busInv_reached hrun.reached) hstep).1
      rw [hlabel] at htime
      change m.after.currentTime = t at htime
      exact absurd (htime ▸ ht) (hnone i)
  have hfin := finished_of_exhausted hR hrun.reached hall'
  have hgoing := hstep.1
  simp [hfin] at hgoing

omit [LineState S] in
/-- The finish time of core `i` in a history. -/
def finishTime (i : Fin n) (h : List (Move (Simulator S n) (Event n))) : Option Nat :=
  h.findSome? (finishedBy i)

theorem finishTime_le (hr : (system cfg R traces).Run h s) {m : Move (Simulator S n) (Event n)}
    (hm : m ∈ h) {i : Fin n} {t : Nat} (hfin : finishedBy i m = some t) : t ≤ s.currentTime := by
  obtain ⟨later, earlier, rfl⟩ := List.append_of_mem hm
  obtain ⟨hrun, hstep⟩ := hr.before_move
  have htime := (step_time (busInv_reached hrun.reached) hstep).1
  obtain ⟨hlabel, -⟩ := finishedBy_eq_some hfin
  rw [hlabel] at htime
  change m.after.currentTime = t at htime
  rw [← htime]
  exact hr.monotone currentTime fun hs hstep => (step_time (busInv_reached hs) hstep).2

/-- The time at which a core finds its trace exhausted is the sum of its compute cycles, its
hits and the waits of its transactions; and the clock at the end of a run is the latest of
these times. -/
theorem cycle_accounting (p : ProtocolName) (cfg : Config) (traces : Fin n → List TraceEntry)
    {h : List (Move (Simulator p.State n) (Event n))} {s : Simulator p.State n}
    (hr : (system cfg p.rules traces).Run h s) :
    (∀ m ∈ h, ∀ i t, finishedBy i m = some t → t = (s.machine.cStats i).computeCycles +
      (s.machine.cStats i).cacheHits + (((transactions cfg p.rules h).filter
        (·.request.coreId = i)).map fun a => a.finish - a.request.arrivalTime).sum) ∧
    (∀ a ∈ transactions cfg p.rules h, a.request.arrivalTime ≤ a.finish) ∧
    (s.ended = true → (∀ i, (finishTime i h).isSome = true) ∧
      s.currentTime = Finset.univ.sup fun i => (finishTime i h).getD 0) := by
  have hclock := clockInv_run p.missFills hr
  refine ⟨fun m hm i t hfin => (hclock.finish m hm i t hfin).2, ?_, ?_⟩
  · intro a ha
    obtain ⟨later, earlier, hl⟩ := List.append_of_mem ha
    have hstart := (timingInv_run hr).timed.start_eq hl
    rw [Transaction.finish]
    omega
  · intro hend
    have hall := (idle_of_ended p.missFills hr.reached hend).1
    have hsome (i : Fin n) : (finishTime i h).isSome = true := by
      obtain ⟨m, hm, hfin⟩ := hclock.finished i (hall i)
      exact List.findSome?_isSome_iff.mpr ⟨m, hm, hfin⟩
    refine ⟨hsome, ?_⟩
    have hle (i : Fin n) : (finishTime i h).getD 0 ≤ s.currentTime := by
      obtain ⟨t, ht⟩ := Option.isSome_iff_exists.mp (hsome i)
      obtain ⟨m, hm, hfin⟩ := List.exists_of_findSome?_eq_some ht
      rw [ht]
      exact finishTime_le hr hm hfin
    apply Nat.le_antisymm
    · cases h with
      | nil =>
        cases hr with
        | start hs =>
          subst hs
          exact Nat.zero_le _
      | cons m h =>
        obtain ⟨i, hi⟩ := last_move_finishes p.missFills hr hall
        have hfirst : finishTime i (m :: h) = some s.currentTime := by
          rw [finishTime, List.findSome?_cons, hi]
        have hsup := Finset.le_sup (f := fun i => (finishTime i (m :: h)).getD 0)
          (Finset.mem_univ i)
        simpa [hfirst] using hsup
    · exact Finset.sup_le fun i _ => hle i

/-- Core 1 waits for the store of core 0 and finishes three cycles after it. -/
theorem cycle_accounting_storeAndLoad :
    ∃ (h : List (Move (Simulator MESIState 2) (Event 2))) (s : Simulator MESIState 2),
      (system tinyConfig (ProtocolName.rules .mesi) storeAndLoad).Run h s ∧ s.ended = true ∧
      finishTime 0 h = some 101 ∧ finishTime 1 h = some 104 ∧
      s.currentTime = Finset.univ.sup fun i => (finishTime i h).getD 0 := by
  obtain ⟨h, s, hr, ht⟩ := exists_run tinyConfig (ProtocolName.rules .mesi) storeAndLoad
    [.fetch 0 0, .busArbitration 0, .fetch 0 1, .busRelease 101, .busArbitration 101,
      .coreUnblock 101 0, .fetch 101 0, .busRelease 104, .coreUnblock 104 1, .fetch 104 1]
    (fun h s => s.ended && finishTime 0 h == some 101 && finishTime 1 h == some 104)
    (by decide +kernel)
  rw [Bool.and_eq_true, Bool.and_eq_true] at ht
  obtain ⟨⟨hend, hfirst⟩, hsecond⟩ := ht
  have htotal := (cycle_accounting .mesi tinyConfig storeAndLoad hr).2.2 hend
  exact ⟨h, s, hr, hend, beq_iff_eq.mp hfirst, beq_iff_eq.mp hsecond, htotal.2⟩

end Simulator
end CoherenceFormal
