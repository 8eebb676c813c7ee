import CoherenceFormal.BusInvariant

/-!
# The bus over time

What the steps of a run mean for the bus alone: it is released, it is granted, a
request is queued, or nothing happens to it. While the bus is free and a request
waits, the next event is an arbitration at the current time, so no simulated time
passes and no other core gets in between.
-/

namespace CoherenceFormal
open LineState
set_option autoImplicit false

variable {S : Type} {n : Nat}

theorem Event.isTop_priority {queue : List (Event n)} {e e' : Event n} (h : e.isTop queue = true)
    (he' : e' ∈ queue) (ht : e.timestamp = e'.timestamp) : e.getPriority ≤ e'.getPriority := by
  have hc : comparator e e' = false := by
    simpa using List.all_eq_true.mp h e' he'
  simp only [comparator, ht, ne_eq, not_true, if_false, gt_iff_lt, decide_eq_false_iff_not] at hc
  omega

/-- A transaction on the bus. -/
structure Transaction (n : Nat) where
  request : BusRequest n
  start : Nat
  latency : Nat

namespace Transaction

def finish (a : Transaction n) : Nat := a.start + a.latency

/-- The release time of the newest transaction of a list, 0 before there is one. -/
def lastFinish : List (Transaction n) → Nat
  | [] => 0
  | a :: _ => a.finish

/-- Newest first, each transaction starts at the later of its arrival and the
release of the one before it. -/
def Timed : List (Transaction n) → Prop
  | [] => True
  | a :: earlier => a.start = max a.request.arrivalTime (lastFinish earlier) ∧ Timed earlier

theorem Timed.finish_le {l : List (Transaction n)} (h : Timed l) {b : Transaction n}
    (hb : b ∈ l) : b.finish ≤ lastFinish l := by
  induction l with
  | nil => simp at hb
  | cons a earlier ih =>
    obtain ⟨hstart, hrest⟩ := h
    rcases List.mem_cons.mp hb with rfl | hb
    · exact Nat.le_refl _
    · have hle := ih hrest hb
      have hend : a.start ≤ a.finish := Nat.le_add_right _ _
      change b.finish ≤ a.finish
      omega

theorem Timed.pairwise {l : List (Transaction n)} (h : Timed l) :
    l.Pairwise fun a b => b.finish ≤ a.start := by
  induction l with
  | nil => exact .nil
  | cons a earlier ih =>
    obtain ⟨hstart, hrest⟩ := h
    apply List.pairwise_cons.mpr
    refine ⟨?_, ih hrest⟩
    intro b hb
    have hle := hrest.finish_le hb
    omega

theorem Timed.start_eq {l later earlier : List (Transaction n)} {a : Transaction n} (h : Timed l)
    (hl : l = later ++ a :: earlier) :
    a.start = max a.request.arrivalTime (lastFinish earlier) := by
  subst hl
  induction later with
  | nil => exact h.1
  | cons b later ih => exact ih h.2

end Transaction

namespace Simulator

/-- The request that a move pushes onto `bus_queue`. -/
def queuedBy (m : Move (Simulator S n) (Event n)) : Option (BusRequest n) :=
  m.after.busQueue[m.before.busQueue.length]?

/-- A request waits on a free bus only together with an arbitration that is due now. -/
def ArbitrationReady (s : Simulator S n) : Prop :=
  s.busBusy = false → s.busQueue ≠ [] → .busArbitration s.currentTime ∈ s.eventQueue

theorem pops_arbitration {s : Simulator S n} {e : Event n} (hbus : s.BusInv)
    (hready : s.ArbitrationReady) (he : e ∈ s.eventQueue) (htop : e.isTop s.eventQueue = true)
    (free : s.busBusy = false) (hq : s.busQueue ≠ []) : e = .busArbitration s.currentTime := by
  have hpend := hbus.pending e he
  have hle := Event.isTop_le htop (hready free hq)
  have htime : e.timestamp = s.currentTime := Nat.le_antisymm hle hpend
  have hprio := Event.isTop_priority htop (hready free hq) htime
  cases e with
  | busRelease t =>
    have hbusy := hbus.busy_of_release he
    simp [free] at hbusy
  | busArbitration t =>
    change t = s.currentTime at htime
    rw [htime]
  | coreUnblock t i => simp [Event.getPriority] at hprio
  | fetch t i => simp [Event.getPriority] at hprio

variable [LineState S] {cfg : Config} {R : ProtocolRules S} {s s' : Simulator S n} {e : Event n}

/-- A step as the bus sees it. -/
inductive BusStep (cfg : Config) (R : ProtocolRules S) (s : Simulator S n) :
    Event n → Simulator S n → Prop where
  | release {t : Nat} {s' : Simulator S n} (busy : s.busBusy = true)
      (pending : .busRelease t ∈ s.eventQueue) (free : s'.busBusy = false)
      (queue : s'.busQueue = s.busQueue)
      (wake : s.busQueue ≠ [] → .busArbitration t ∈ s'.eventQueue) :
      BusStep cfg R s (.busRelease t) s'
  | grant {req : BusRequest n} {latency : Nat} {s' : Simulator S n} (free : s.busBusy = false)
      (first : minElement (BusRequest.precedes cfg.readPriority) s.busQueue = some req)
      (bus : ∃ machine, handleBusTransaction R cfg.geometry s.machine req.coreId req.type
        req.addr = some (latency, machine))
      (busy : s'.busBusy = true) (queue : s'.busQueue = s.busQueue.erase req)
      (release : .busRelease (s.currentTime + latency) ∈ s'.eventQueue) :
      BusStep cfg R s (.busArbitration s.currentTime) s'
  | enqueue {t : Nat} {req : BusRequest n} {s' : Simulator S n} (arrival : req.arrivalTime = t)
      (same : s'.busBusy = s.busBusy) (queue : s'.busQueue = s.busQueue ++ [req])
      (alone : s.busBusy = false → s.busQueue = [] ∧ .busArbitration t ∈ s'.eventQueue)
      (keeps : ∀ r, .busRelease r ∈ s.eventQueue → t < r ∧ .busRelease r ∈ s'.eventQueue) :
      BusStep cfg R s (.fetch t req.coreId) s'
  | quiet {e : Event n} {s' : Simulator S n} (none : grantOf cfg ⟨s, e, s'⟩ = none)
      (same : s'.busBusy = s.busBusy) (queue : s'.busQueue = s.busQueue)
      (alone : s.busBusy = false → s.busQueue = [])
      (keeps : ∀ r, .busRelease r ∈ s.eventQueue → .busRelease r ∈ s'.eventQueue) :
      BusStep cfg R s e s'

theorem release_kept (hrel : e.isRelease = false) (hf : Fired cfg R (s.pop e) e s') {r : Nat}
    (hr : .busRelease r ∈ s.eventQueue) : .busRelease r ∈ s'.eventQueue := by
  obtain ⟨new, hq, -⟩ := fired_scheduled hf
  rw [hq]
  apply List.mem_append_right
  apply (List.mem_erase_of_ne ?_).mpr hr
  rintro rfl
  simp [Event.isRelease] at hrel

omit [LineState S] in
/-- A Release of the same timestamp would have been popped before a Fetch. -/
theorem release_after_fetch {t : Nat} {i : Fin n} (htop : (Event.fetch t i).isTop s.eventQueue = true)
    {r : Nat} (hr : .busRelease r ∈ s.eventQueue) : t < r := by
  have hle : t ≤ r := Event.isTop_le htop hr
  rcases Nat.lt_or_eq_of_le hle with hlt | heq
  · exact hlt
  · have hprio := Event.isTop_priority htop hr heq
    simp [Event.getPriority] at hprio

theorem busStep_of_fired (hbus : s.BusInv) (hready : s.ArbitrationReady) (he : e ∈ s.eventQueue)
    (htop : e.isTop s.eventQueue = true) (hf : Fired cfg R (s.pop e) e s') :
    BusStep cfg R s e s' := by
  -- nothing but an arbitration can execute while a request waits on a free bus
  have alone (hne : e ≠ .busArbitration s.currentTime) (free : s.busBusy = false) :
      s.busQueue = [] := by
    by_contra hq
    exact hne (pops_arbitration hbus hready he htop free hq)
  have kept (hrel : e.isRelease = false) (r : Nat) (hr : .busRelease r ∈ s.eventQueue) :
      .busRelease r ∈ s'.eventQueue := release_kept hrel hf hr
  cases hf with
  | @release t =>
    refine .release (hbus.busy_of_release he) he rfl rfl ?_
    intro hq
    simp [released, hq]
  | @idle t h =>
    refine .quiet (grantOf_idle h) rfl rfl ?_ (kept rfl)
    intro free
    rcases h with hb | hq
    · change s.busBusy = true at hb
      simp [free] at hb
    · exact hq
  | @grant t req latency machine free first bus =>
    have hne : s.busQueue ≠ [] := List.ne_nil_of_mem (minElement_mem first)
    have heq := pops_arbitration hbus hready he htop free hne
    rw [heq]
    obtain rfl : t = s.currentTime := Event.busArbitration.inj heq
    exact .grant free first ⟨machine, bus⟩ rfl rfl (by simp [granted])
  | @unblock t i => exact .quiet rfl rfl rfl (alone (by simp)) (kept rfl)
  | @stalled t i h => exact .quiet rfl rfl rfl (alone (by simp)) (kept rfl)
  | @exhausted t i running done => exact .quiet rfl rfl rfl (alone (by simp)) (kept rfl)
  | @compute t i entry rest running read label =>
    exact .quiet rfl rfl rfl (alone (by simp)) (kept rfl)
  | @hit t i entry rest running read label resp =>
    exact .quiet rfl rfl rfl (alone (by simp)) (kept rfl)
  | @miss t i entry rest running read label resp =>
    have hqueue : (missed cfg R (s.pop (.fetch t i)) t i entry rest).busQueue = s.busQueue ++
        [⟨i, ((s.pop (.fetch t i)).access cfg R i entry).1.busAction, entry.val, t⟩] := rfl
    refine .enqueue rfl ?_ hqueue ?_ ?_
    · rfl
    · intro free
      refine ⟨alone (by simp) free, ?_⟩
      simp [missed, free]
    · intro r hr
      exact ⟨release_after_fetch htop hr, kept rfl r hr⟩

theorem step_time {traces : Fin n → List TraceEntry} (hbus : s.BusInv)
    (h : (system cfg R traces).step s e s') :
    s'.currentTime = e.timestamp ∧ s.currentTime ≤ s'.currentTime := by
  obtain ⟨he, -, hf⟩ := fired_of_step h
  have htime : s'.currentTime = e.timestamp := fired_currentTime hf
  refine ⟨htime, ?_⟩
  rw [htime]
  exact hbus.pending e he

theorem BusStep.arbitrationReady (hb : BusStep cfg R s e s') (htime : s'.currentTime = e.timestamp) :
    s'.ArbitrationReady := by
  intro free hq
  rw [htime]
  cases hb with
  | release busy pending free' queue wake =>
    rw [queue] at hq
    exact wake hq
  | grant free' first bus busy queue release => simp [busy] at free
  | enqueue arrival same queue alone keeps =>
    rw [same] at free
    exact (alone free).2
  | quiet none same queue alone keeps =>
    rw [same] at free
    rw [queue] at hq
    exact absurd (alone free) hq

theorem arbitrationReady_reached {traces : Fin n → List TraceEntry}
    (hr : (system cfg R traces).Reached s) : s.ArbitrationReady := by
  refine hr.invariant_of (fun s => busInv_reached) ?_ ?_
  · intro s hs free hq
    subst hs
    simp [start] at hq
  · intro s e s' hstep hbus hready
    obtain ⟨he, htop, hf⟩ := fired_of_step hstep
    exact (busStep_of_fired hbus hready he htop hf).arbitrationReady (step_time hbus hstep).1

theorem busStep_of_step {traces : Fin n → List TraceEntry} (hr : (system cfg R traces).Reached s)
    (hstep : (system cfg R traces).step s e s') : BusStep cfg R s e s' := by
  obtain ⟨he, htop, hf⟩ := fired_of_step hstep
  exact busStep_of_fired (busInv_reached hr) (arbitrationReady_reached hr) he htop hf

/-! ### The transactions of a run -/

def transactionOf (cfg : Config) (R : ProtocolRules S) (m : Move (Simulator S n) (Event n)) :
    Option (Transaction n) :=
  (grantOf cfg m).bind fun req =>
    (handleBusTransaction R cfg.geometry m.before.machine req.coreId req.type req.addr).map
      fun result => ⟨req, m.label.timestamp, result.1⟩

/-- Newest first, like the moves. -/
def transactions (cfg : Config) (R : ProtocolRules S)
    (h : List (Move (Simulator S n) (Event n))) : List (Transaction n) :=
  h.filterMap (transactionOf cfg R)

open Transaction (lastFinish Timed)

/-- The clock and the queue against the release time of the last transaction. -/
structure TimingInv (cfg : Config) (R : ProtocolRules S)
    (h : List (Move (Simulator S n) (Event n))) (s : Simulator S n) : Prop where
  arrived : ∀ req ∈ s.busQueue, req.arrivalTime ≤ s.currentTime
  release : s.busBusy = true → .busRelease (lastFinish (transactions cfg R h)) ∈ s.eventQueue
  past : s.busBusy = false → lastFinish (transactions cfg R h) ≤ s.currentTime
  due : s.busBusy = false → ∀ req ∈ s.busQueue,
    s.currentTime = max req.arrivalTime (lastFinish (transactions cfg R h))
  /-- A request that is not about to be granted alone waits beyond its own cycle. -/
  beyond : ∀ req ∈ s.busQueue, (s.busBusy = false ∧ s.busQueue = [req]) ∨
    req.arrivalTime < s.currentTime ∨
    (s.busBusy = true ∧ req.arrivalTime < lastFinish (transactions cfg R h))
  timed : Timed (transactions cfg R h)
  complete : (transactions cfg R h).map (·.request) = h.filterMap (grantOf cfg)

variable {h : List (Move (Simulator S n) (Event n))}

theorem transactions_cons_of_none (hm : grantOf cfg ⟨s, e, s'⟩ = none) :
    transactions cfg R (⟨s, e, s'⟩ :: h) = transactions cfg R h := by
  simp [transactions, transactionOf, hm]

theorem transactions_cons_of_grant {req : BusRequest n} {latency : Nat} {machine : Machine S n}
    (hm : grantOf cfg ⟨s, e, s'⟩ = some req)
    (bus : handleBusTransaction R cfg.geometry s.machine req.coreId req.type req.addr =
      some (latency, machine)) :
    transactions cfg R (⟨s, e, s'⟩ :: h) =
      ⟨req, e.timestamp, latency⟩ :: transactions cfg R h := by
  simp [transactions, transactionOf, hm, bus]

theorem transactions_granted {t : Nat} {req : BusRequest n} {latency : Nat}
    {machine : Machine S n} (free : s.busBusy = false)
    (first : minElement (BusRequest.precedes cfg.readPriority) s.busQueue = some req)
    (bus : handleBusTransaction R cfg.geometry s.machine req.coreId req.type req.addr =
      some (latency, machine)) :
    transactions cfg R (⟨s, .busArbitration t,
      (s.pop (.busArbitration t)).granted t req latency machine⟩ :: h) =
        ⟨req, t, latency⟩ :: transactions cfg R h :=
  transactions_cons_of_grant (grantOf_grant _ free first) bus

/-- A move that grants nothing leaves the transactions as they are. -/
theorem TimingInv.of_no_grant (hinv : TimingInv cfg R h s)
    (hm : grantOf cfg ⟨s, e, s'⟩ = none) : Timed (transactions cfg R (⟨s, e, s'⟩ :: h)) ∧
      (transactions cfg R (⟨s, e, s'⟩ :: h)).map (·.request) =
        (⟨s, e, s'⟩ :: h).filterMap (grantOf cfg) := by
  rw [transactions_cons_of_none hm, List.filterMap_cons_none hm]
  exact ⟨hinv.timed, hinv.complete⟩

theorem timingInv_granted (hinv : TimingInv cfg R h s) {req : BusRequest n} {latency : Nat}
    (free : s.busBusy = false)
    (first : minElement (BusRequest.precedes cfg.readPriority) s.busQueue = some req)
    (bus : ∃ machine, handleBusTransaction R cfg.geometry s.machine req.coreId req.type
      req.addr = some (latency, machine))
    (busy : s'.busBusy = true) (queue : s'.busQueue = s.busQueue.erase req)
    (release : .busRelease (s.currentTime + latency) ∈ s'.eventQueue)
    (htime : s'.currentTime = s.currentTime) :
    TimingInv cfg R (⟨s, .busArbitration s.currentTime, s'⟩ :: h) s' := by
  obtain ⟨machine, bus⟩ := bus
  have hgrant : grantOf cfg ⟨s, .busArbitration s.currentTime, s'⟩ = some req :=
    grantOf_grant s' free first
  have htrans : transactions cfg R (⟨s, .busArbitration s.currentTime, s'⟩ :: h) =
      ⟨req, s.currentTime, latency⟩ :: transactions cfg R h :=
    transactions_cons_of_grant hgrant bus
  have hmem : req ∈ s.busQueue := minElement_mem first
  constructor
  · intro req' hreq'
    rw [queue] at hreq'
    rw [htime]
    exact hinv.arrived req' (List.mem_of_mem_erase hreq')
  · intro _
    rw [htrans]
    exact release
  · intro free'
    simp [busy] at free'
  · intro free'
    simp [busy] at free'
  · intro req' hreq'
    rw [queue] at hreq'
    rcases hinv.beyond req' (List.mem_of_mem_erase hreq') with ⟨-, honly⟩ | hlt | ⟨hb, -⟩
    · rw [honly] at hmem hreq'
      obtain rfl := List.mem_singleton.mp hmem
      simp at hreq'
    · right
      left
      rw [htime]
      exact hlt
    · simp [free] at hb
  · rw [htrans]
    exact ⟨hinv.due free req hmem, hinv.timed⟩
  · rw [htrans, List.map_cons, List.filterMap_cons_some hgrant, hinv.complete]

theorem timingInv_released (hbus : s.BusInv) (hinv : TimingInv cfg R h s) {t : Nat}
    (busy : s.busBusy = true) (pending : .busRelease t ∈ s.eventQueue)
    (free : s'.busBusy = false) (queue : s'.busQueue = s.busQueue) (htime : s'.currentTime = t)
    (hle : s.currentTime ≤ s'.currentTime) :
    TimingInv cfg R (⟨s, .busRelease t, s'⟩ :: h) s' := by
  have hnone : grantOf cfg ⟨s, .busRelease t, s'⟩ = none := rfl
  have htrans := transactions_cons_of_none (R := R) (h := h) hnone
  have hfinish : t = lastFinish (transactions cfg R h) :=
    hbus.release_unique pending (hinv.release busy)
  have hat : s'.currentTime = lastFinish (transactions cfg R h) := htime.trans hfinish
  have harrived (req : BusRequest n) (hreq : req ∈ s'.busQueue) :
      req.arrivalTime ≤ s'.currentTime := by
    rw [queue] at hreq
    exact Nat.le_trans (hinv.arrived req hreq) hle
  obtain ⟨htimed, hcomplete⟩ := hinv.of_no_grant hnone
  refine ⟨harrived, ?_, ?_, ?_, ?_, htimed, hcomplete⟩
  · intro busy'
    simp [free] at busy'
  · intro _
    rw [htrans, hat]
  · intro _ req hreq
    have hreq := harrived req hreq
    rw [htrans]
    omega
  · intro req hreq
    rw [queue] at hreq
    rcases hinv.beyond req hreq with ⟨hb, -⟩ | hlt | ⟨-, hlt⟩
    · simp [busy] at hb
    · right
      left
      omega
    · right
      left
      omega

theorem timingInv_enqueued (hinv : TimingInv cfg R h s) {t : Nat} {req : BusRequest n}
    (arrival : req.arrivalTime = t) (same : s'.busBusy = s.busBusy)
    (queue : s'.busQueue = s.busQueue ++ [req]) (alone : s.busBusy = false → s.busQueue = [])
    (keeps : ∀ r, .busRelease r ∈ s.eventQueue → t < r ∧ .busRelease r ∈ s'.eventQueue)
    (htime : s'.currentTime = t) (hle : s.currentTime ≤ s'.currentTime) :
    TimingInv cfg R (⟨s, .fetch t req.coreId, s'⟩ :: h) s' := by
  have hnone : grantOf cfg ⟨s, .fetch t req.coreId, s'⟩ = none := rfl
  have htrans := transactions_cons_of_none (R := R) (h := h) hnone
  -- on a free bus the new request is the only one
  have honly (free : s.busBusy = false) : s'.busQueue = [req] := by
    rw [queue, alone free, List.nil_append]
  obtain ⟨htimed, hcomplete⟩ := hinv.of_no_grant hnone
  refine ⟨?_, ?_, ?_, ?_, ?_, htimed, hcomplete⟩
  · intro req' hreq'
    rw [queue] at hreq'
    rcases List.mem_append.mp hreq' with hreq' | hreq'
    · exact Nat.le_trans (hinv.arrived req' hreq') hle
    · obtain rfl := List.mem_singleton.mp hreq'
      omega
  · intro busy
    rw [same] at busy
    rw [htrans]
    exact (keeps _ (hinv.release busy)).2
  · intro free
    rw [same] at free
    have hpast := hinv.past free
    rw [htrans]
    omega
  · intro free req' hreq'
    rw [same] at free
    have hpast := hinv.past free
    rw [honly free] at hreq'
    obtain rfl := List.mem_singleton.mp hreq'
    rw [htrans]
    omega
  · intro req' hreq'
    rw [htrans]
    cases hbusy : s.busBusy with
    | false =>
      left
      rw [honly hbusy] at hreq' ⊢
      obtain rfl := List.mem_singleton.mp hreq'
      exact ⟨same.trans hbusy, rfl⟩
    | true =>
      right
      have hafter := (keeps _ (hinv.release hbusy)).1
      rw [queue] at hreq'
      rcases List.mem_append.mp hreq' with hreq' | hreq'
      · rcases hinv.beyond req' hreq' with ⟨hb, -⟩ | hlt | ⟨-, hlt⟩
        · simp [hbusy] at hb
        · left
          omega
        · right
          exact ⟨same.trans hbusy, hlt⟩
      · obtain rfl := List.mem_singleton.mp hreq'
        right
        exact ⟨same.trans hbusy, by omega⟩

theorem timingInv_quiet (hinv : TimingInv cfg R h s) (none : grantOf cfg ⟨s, e, s'⟩ = none)
    (same : s'.busBusy = s.busBusy) (queue : s'.busQueue = s.busQueue)
    (alone : s.busBusy = false → s.busQueue = [])
    (keeps : ∀ r, .busRelease r ∈ s.eventQueue → .busRelease r ∈ s'.eventQueue)
    (hle : s.currentTime ≤ s'.currentTime) : TimingInv cfg R (⟨s, e, s'⟩ :: h) s' := by
  have htrans : transactions cfg R (⟨s, e, s'⟩ :: h) = transactions cfg R h :=
    transactions_cons_of_none none
  obtain ⟨htimed, hcomplete⟩ := hinv.of_no_grant none
  refine ⟨?_, ?_, ?_, ?_, ?_, htimed, hcomplete⟩
  · intro req hreq
    rw [queue] at hreq
    exact Nat.le_trans (hinv.arrived req hreq) hle
  · intro busy
    rw [same] at busy
    rw [htrans]
    exact keeps _ (hinv.release busy)
  · intro free
    rw [same] at free
    rw [htrans]
    exact Nat.le_trans (hinv.past free) hle
  · intro free req hreq
    rw [same] at free
    rw [queue, alone free] at hreq
    simp at hreq
  · intro req hreq
    rw [htrans, same, queue]
    rw [queue] at hreq
    rcases hinv.beyond req hreq with honly | hlt | hheld
    · exact .inl honly
    · exact .inr (.inl (Nat.lt_of_lt_of_le hlt hle))
    · exact .inr (.inr hheld)

theorem timingInv_busStep (hbus : s.BusInv) (hb : BusStep cfg R s e s')
    (htime : s'.currentTime = e.timestamp) (hle : s.currentTime ≤ s'.currentTime)
    (hinv : TimingInv cfg R h s) : TimingInv cfg R (⟨s, e, s'⟩ :: h) s' := by
  cases hb with
  | release busy pending free queue wake =>
    exact timingInv_released hbus hinv busy pending free queue htime hle
  | grant free first bus busy queue release =>
    exact timingInv_granted hinv free first bus busy queue release htime
  | enqueue arrival same queue alone keeps =>
    exact timingInv_enqueued hinv arrival same queue (fun free => (alone free).1) keeps htime hle
  | quiet none same queue alone keeps =>
    exact timingInv_quiet hinv none same queue alone keeps hle

theorem timingInv_run {traces : Fin n → List TraceEntry} (hr : (system cfg R traces).Run h s) :
    TimingInv cfg R h s := by
  refine hr.history (J := (system cfg R traces).Reached) (fun s hs => hs) ?_ ?_
  · intro s hs
    subst hs
    constructor <;> simp [start, transactions, Timed, lastFinish]
  · intro h s e s' hstep hreach hinv
    have hbus := busInv_reached hreach
    obtain ⟨htime, hle⟩ := step_time hbus hstep
    exact timingInv_busStep hbus (busStep_of_step hreach hstep) htime hle hinv

/-- Time never runs backwards; the bus is busy exactly while its one Release is
pending; no request waits on a free bus without an arbitration that is due; the
transactions do not overlap, and each is granted at the later of its arrival and
the release of the transaction before it. -/
theorem exclusive_work_conserving_bus (p : ProtocolName) (cfg : Config)
    (traces : Fin n → List TraceEntry) {h : List (Move (Simulator p.State n) (Event n))}
    {s : Simulator p.State n} (hr : (system cfg p.rules traces).Run h s) :
    (∀ m ∈ h, m.before.currentTime ≤ m.after.currentTime) ∧
    (s.busBusy = true ↔ s.releases = 1) ∧ s.releases ≤ 1 ∧
    (s.busQueue ≠ [] → s.busBusy = false → .busArbitration s.currentTime ∈ s.eventQueue) ∧
    (transactions cfg p.rules h).map (·.request) = h.filterMap (grantOf cfg) ∧
    (s.busBusy = true → .busRelease (lastFinish (transactions cfg p.rules h)) ∈ s.eventQueue) ∧
    (transactions cfg p.rules h).Pairwise (fun a b => b.finish ≤ a.start) ∧
    (∀ later a earlier, transactions cfg p.rules h = later ++ a :: earlier →
      a.start = max a.request.arrivalTime (lastFinish earlier)) := by
  have hbus := busInv_reached hr.reached
  have htiming := timingInv_run hr
  refine ⟨?_, ?_, ?_, ?_, htiming.complete, htiming.release, htiming.timed.pairwise, ?_⟩
  · intro m hm
    obtain ⟨hreach, hstep⟩ := hr.move hm
    exact (step_time (busInv_reached hreach) hstep).2
  · rw [hbus.releases_eq]
    cases s.busBusy <;> simp
  · rw [hbus.releases_eq]
    split <;> omega
  · intro hq free
    exact arbitrationReady_reached hr.reached free hq
  · intro later a earlier hl
    exact htiming.timed.start_eq hl

theorem exclusive_work_conserving_bus_waited :
    ∃ (h : List (Move (Simulator MESIState 2) (Event 2))) (s : Simulator MESIState 2),
      (system tinyConfig (ProtocolName.rules .mesi) storeAndLoad).Run h s ∧
      (transactions tinyConfig (ProtocolName.rules .mesi) h).map (·.start) = [101, 0] ∧
      (transactions tinyConfig (ProtocolName.rules .mesi) h).Pairwise
        (fun a b => b.finish ≤ a.start) := by
  obtain ⟨h, s, hr, ht⟩ := exists_run tinyConfig (ProtocolName.rules .mesi) storeAndLoad
    [.fetch 0 0, .busArbitration 0, .fetch 0 1, .busRelease 101, .busArbitration 101]
    (fun h _ => (transactions tinyConfig (ProtocolName.rules .mesi) h).map (·.start) == [101, 0])
    (by decide +kernel)
  exact ⟨h, s, hr, beq_iff_eq.mp ht,
    (exclusive_work_conserving_bus .mesi tinyConfig storeAndLoad hr).2.2.2.2.2.2.1⟩

end Simulator
end CoherenceFormal
