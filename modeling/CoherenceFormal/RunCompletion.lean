import CoherenceFormal.BusTiming
import CoherenceFormal.RecencyList
import CoherenceFormal.StatisticsLedger
import Mathlib.Algebra.BigOperators.Fin
import Mathlib.Data.Prod.Lex

/-!
# Runs end, and end well

Events schedule events at their own timestamp, so time does not bound a run. A
weight on what is left to do does: entries, queued requests and pending events.

The loop is left when the test on the cores and the bus succeeds, or when the heap
is empty. The second exit is right because no wakeup is lost: every core that is not
done has a pending event or a queued request, and a queued request has a Release
or an arbitration before it.
-/

namespace CoherenceFormal
open LineState
set_option autoImplicit false

variable {S : Type} {n : Nat}

namespace Event

def weight : Event n → Nat
  | busRelease _ => 2
  | busArbitration _ => 1
  | coreUnblock _ _ => 2
  | fetch _ _ => 1

def load (queue : List (Event n)) : Nat := (queue.map weight).sum

@[simp] theorem load_nil : load ([] : List (Event n)) = 0 := rfl

@[simp] theorem load_cons (e : Event n) (queue : List (Event n)) :
    load (e :: queue) = e.weight + load queue := rfl

@[simp] theorem load_append (l queue : List (Event n)) :
    load (l ++ queue) = load l + load queue := by
  simp [load]

/-- A step that may wake the arbiter. -/
theorem load_woken (b : Bool) (t : Nat) (queue : List (Event n)) :
    load ((if b then [] else [.busArbitration t]) ++ queue) ≤ load queue + 1 := by
  cases b <;> simp [weight, Nat.add_comm]

theorem comparator_iff (a b : Event n) : comparator a b = true ↔
    toLex (b.timestamp, b.getPriority) < toLex (a.timestamp, a.getPriority) := by
  rw [Prod.Lex.toLex_lt_toLex]
  by_cases h : a.timestamp = b.timestamp
  · simp [comparator, h]
  · simp [comparator, h, Ne.symm h]

/-- A heap that is not empty has a top. -/
theorem exists_top {queue : List (Event n)} (h : queue ≠ []) :
    ∃ e ∈ queue, e.isTop queue = true := by
  obtain ⟨e, he, hmin⟩ := queue.toFinset.exists_min_image
    (fun e => toLex (e.timestamp, e.getPriority)) (List.toFinset_nonempty_iff queue |>.mpr h)
  refine ⟨e, List.mem_toFinset.mp he, ?_⟩
  apply List.all_eq_true.mpr
  intro e' he'
  have hle := hmin e' (List.mem_toFinset.mpr he')
  rw [Bool.not_eq_true', ← Bool.not_eq_true, comparator_iff]
  exact not_lt_of_ge hle

end Event

namespace Simulator

/-- What is left to do. -/
def remaining (s : Simulator S n) : Nat :=
  Event.load s.eventQueue + 4 * s.busQueue.length + 5 * ∑ i, (s.traces i).length

theorem load_pop {s : Simulator S n} {e : Event n} (he : e ∈ s.eventQueue) :
    Event.load s.eventQueue = e.weight + Event.load (s.pop e).eventQueue :=
  ((List.perm_cons_erase he).map Event.weight).sum_eq

theorem traces_read {s : Simulator S n} {i : Fin n} {entry : TraceEntry} {rest : List TraceEntry}
    (read : s.traces i = entry :: rest) : ∑ j, (s.traces j).length =
      (∑ j, (Function.update s.traces i rest j).length) + 1 := by
  have hsum := IndexLoop.sum_update List.length s.traces i rest
  rw [read, List.length_cons] at hsum
  omega

variable [LineState S] {cfg : Config} {R : ProtocolRules S} {traces : Fin n → List TraceEntry}
  {s s' : Simulator S n} {e : Event n}

theorem remaining_fired (he : e ∈ s.eventQueue) (hf : Fired cfg R (s.pop e) e s') :
    s'.remaining < s.remaining := by
  have hpop := load_pop he
  unfold remaining
  cases hf with
  | @release t =>
    have hnew : Event.load ((s.pop (.busRelease t)).released t).eventQueue ≤ _ :=
      Event.load_woken _ t _
    have hqueue : ((s.pop (.busRelease t)).released t).busQueue = s.busQueue := rfl
    have htraces : ((s.pop (.busRelease t)).released t).traces = s.traces := rfl
    rw [hqueue, htraces]
    simp only [Event.weight] at hpop
    omega
  | @idle t h =>
    simp only [pop_busQueue, pop_traces, Event.weight] at hpop ⊢
    omega
  | @grant t req latency machine free first bus =>
    have hlen : (s.busQueue.erase req).length + 1 = s.busQueue.length :=
      List.length_erase_add_one (minElement_mem first)
    have hnew : Event.load (if req.type ≠ .writeback
        then [.coreUnblock (t + latency) req.coreId] else [] : List (Event n)) ≤ 2 := by
      split <;> simp [Event.weight]
    simp only [granted, pop_busQueue, pop_traces, Event.load_append, Event.load_cons,
      Event.weight] at hpop ⊢
    omega
  | @unblock t i =>
    simp only [coreUnblock, schedule, pop_busQueue, pop_traces, Event.load_cons,
      Event.weight] at hpop ⊢
    omega
  | @stalled t i h =>
    simp only [pop_busQueue, pop_traces, Event.weight] at hpop ⊢
    omega
  | @exhausted t i running done =>
    simp only [pop_busQueue, pop_traces, Event.weight] at hpop ⊢
    omega
  | @compute t i entry rest running read label =>
    have hread := traces_read read
    simp only [computed, pop_busQueue, pop_traces, Event.load_cons, Event.weight] at hread hpop ⊢
    omega
  | @hit t i entry rest running read label resp =>
    have hread := traces_read read
    simp only [Simulator.hit, pop_busQueue, pop_traces, Event.load_cons,
      Event.weight] at hread hpop ⊢
    omega
  | @miss t i entry rest running read label resp =>
    have hread := traces_read read
    have hnew : Event.load (missed cfg R (s.pop (.fetch t i)) t i entry rest).eventQueue ≤ _ :=
      Event.load_woken _ t _
    have hqueue : (missed cfg R (s.pop (.fetch t i)) t i entry rest).busQueue.length =
        s.busQueue.length + 1 := List.length_append
    have htraces : (missed cfg R (s.pop (.fetch t i)) t i entry rest).traces =
        Function.update s.traces i rest := rfl
    rw [hqueue, htraces]
    simp only [pop_traces, Event.weight] at hread hpop
    omega

theorem remaining_step (h : (system cfg R traces).step s e s') : s'.remaining < s.remaining := by
  obtain ⟨he, -, hf⟩ := fired_of_step h
  exact remaining_fired he hf

/-- Whatever event is popped, its execution is defined. -/
theorem step_exists (hR : R.MissFills) (hr : (system cfg R traces).Reached s)
    (hfin : s.finished = false) (he : e ∈ s.eventQueue) (htop : e.isTop s.eventQueue = true) :
    ∃ s', (system cfg R traces).step s e s' := by
  have hexec : ((s.pop e).execute cfg R e).isSome := by
    cases e with
    | busRelease t => rfl
    | coreUnblock t i => rfl
    | fetch t i => rfl
    | busArbitration t =>
      simp only [execute, busArbitration]
      split
      · rfl
      · split
        · rfl
        · rename_i req hmin
          have hbus := bus_isSome hR hr (minElement_mem hmin)
          obtain ⟨⟨latency, machine⟩, hbus⟩ := Option.isSome_iff_exists.mp hbus
          simp only [pop_machine, hbus]
          split <;> rfl
  obtain ⟨s', hs'⟩ := Option.isSome_iff_exists.mp hexec
  refine ⟨s', hfin, ?_⟩
  rw [processNext, if_pos ⟨he, htop⟩]
  exact hs'

end Simulator

/-! ### The entries that have been executed -/

/-- The counters that the trace alone determines: stores, loads and compute cycles. -/
def Statistics.work (st : Statistics) : ℕ × ℕ × ℕ :=
  (st.storeCount, st.loadCount, st.computeCycles)

def TraceEntry.work (entry : TraceEntry) : ℕ × ℕ × ℕ :=
  if entry.label = 2 then (0, 0, entry.val.toNat)
  else if entry.isWrite then (1, 0, 0)
  else (0, 1, 0)

theorem TraceEntry.work_sum (entries : List TraceEntry) : (entries.map TraceEntry.work).sum =
    (entries.countP (·.label = 1), entries.countP (fun entry => entry.label ≠ 1 ∧ entry.label ≠ 2),
      ((entries.filter (·.label = 2)).map (·.val.toNat)).sum) := by
  induction entries with
  | nil => rfl
  | cons entry rest ih =>
    rw [List.map_cons, List.sum_cons, ih]
    by_cases hc : entry.label = 2
    · simp [work, hc]
    · by_cases hw : entry.label = 1
      · simp [work, isWrite, hw, Nat.add_comm]
      · simp [work, isWrite, hc, hw, Nat.add_comm]

theorem Machine.updStats_work {m : Machine S n} (i j : Fin n) {f : Statistics → Statistics}
    {k : ℕ × ℕ × ℕ} (hf : ∀ st, (f st).work = st.work + k) :
    ((m.updStats i f).cStats j).work = (m.cStats j).work + if j = i then k else 0 := by
  unfold updStats
  by_cases hj : j = i
  · simp [hj, hf]
  · simp [hj]

theorem Machine.updStats_work_eq {m : Machine S n} (i j : Fin n) {f : Statistics → Statistics}
    (hf : ∀ st, (f st).work = st.work) :
    ((m.updStats i f).cStats j).work = (m.cStats j).work := by
  rw [updStats_work i j (k := 0) hf]
  simp

variable [LineState S]

theorem handleProcessorRequest_work (R : ProtocolRules S) (g : Geometry) (m : Machine S n)
    (id : Fin n) (addr : Addr) (isWrite : Bool) (j : Fin n) :
    ((handleProcessorRequest R g m id addr isWrite).2.cStats j).work = (m.cStats j).work := by
  obtain ⟨shared, hstats⟩ := handleProcessorRequest_cStats R g m id addr isWrite
  rw [hstats]
  split
  · apply Machine.updStats_work_eq id j
    intro st
    cases shared <;> rfl
  · rfl

theorem handleBusTransaction_work {R : ProtocolRules S} {g : Geometry} {m m' : Machine S n}
    {r : Fin n} {type : BusTransactionType} {addr : Addr} {latency : Nat}
    (h : handleBusTransaction R g m r type addr = some (latency, m')) (j : Fin n) :
    (m'.cStats j).work = (m.cStats j).work := by
  obtain ⟨received, sent, heq⟩ := (handleBusTransaction_cStats h).1 j
  rw [heq]
  rfl

namespace Simulator
variable {cfg : Config} {R : ProtocolRules S} {traces : Fin n → List TraceEntry}
  {s s' : Simulator S n} {e : Event n}

omit [LineState S] in
/-- The entry of its trace that core `i` executes in a move. -/
def executedBy (i : Fin n) (m : Move (Simulator S n) (Event n)) : Option TraceEntry :=
  match m.label with
  | .fetch _ j => if j = i ∧ m.before.blocked i = false then (m.before.traces i).head? else none
  | _ => none

omit [LineState S] in
theorem executedBy_read {t : Nat} {j : Fin n} {entry : TraceEntry} {rest : List TraceEntry}
    (running : s.blocked j = false) (read : s.traces j = entry :: rest) (i : Fin n) :
    executedBy i ⟨s, .fetch t j, s'⟩ = if i = j then some entry else none := by
  by_cases hij : i = j
  · subst hij
    simp [executedBy, running, read]
  · simp [executedBy, hij, Ne.symm hij]

omit [LineState S] in
theorem executedBy_idle {t : Nat} {j : Fin n} (h : s.blocked j = true ∨ s.traces j = [])
    (i : Fin n) : executedBy i ⟨s, .fetch t j, s'⟩ = none := by
  by_cases hij : i = j
  · subst hij
    rcases h with h | h <;> simp [executedBy, h]
  · simp [executedBy, Ne.symm hij]

/-- The entries that core `i` has executed, in the order of their execution. -/
def executed (i : Fin n) (h : List (Move (Simulator S n) (Event n))) : List TraceEntry :=
  h.reverse.filterMap (executedBy i)

theorem access_work (j i : Fin n) (entry : TraceEntry) (hlabel : entry.label ≠ 2) :
    ((s.access cfg R j entry).2.cStats i).work =
      (s.machine.cStats i).work + if i = j then entry.work else 0 := by
  rw [access, handleProcessorRequest_work]
  apply Machine.updStats_work
  intro st
  simp only [TraceEntry.work, hlabel, if_false]
  split <;> rfl

omit [LineState S] in
/-- What a Fetch reads is what its core executes. -/
theorem executed_read (s s' : Simulator S n) (t : Nat) {j : Fin n} {entry : TraceEntry}
    {rest : List TraceEntry} (running : s.blocked j = false) (read : s.traces j = entry :: rest)
    (i : Fin n) :
    (executedBy i ⟨s, .fetch t j, s'⟩).toList ++ Function.update s.traces j rest i = s.traces i ∧
      ((executedBy i ⟨s, .fetch t j, s'⟩).toList.map TraceEntry.work).sum =
        if i = j then entry.work else 0 := by
  rw [executedBy_read running read]
  by_cases hij : i = j
  · subst hij
    simp [read]
  · simp [hij]

/-- A step takes what it executes off the trace and counts it. -/
theorem executed_fired (hf : Fired cfg R (s.pop e) e s') (i : Fin n) :
    (executedBy i ⟨s, e, s'⟩).toList ++ s'.traces i = s.traces i ∧
      (s'.machine.cStats i).work = (s.machine.cStats i).work +
        ((executedBy i ⟨s, e, s'⟩).toList.map TraceEntry.work).sum := by
  cases hf with
  | grant _ _ bus => exact ⟨rfl, handleBusTransaction_work bus i⟩
  | stalled blocked =>
    rw [pop_blocked] at blocked
    rw [executedBy_idle (.inl blocked)]
    exact ⟨rfl, rfl⟩
  | exhausted running done =>
    rw [pop_traces] at done
    rw [executedBy_idle (.inr done)]
    exact ⟨rfl, rfl⟩
  | @compute t j entry rest running read label =>
    obtain ⟨htraces, hsum⟩ := executed_read s
      (computed (s.pop (.fetch t j)) t j entry rest) t running read i
    refine ⟨htraces, ?_⟩
    rw [hsum]
    simp only [computed]
    apply Machine.updStats_work
    intro st
    simp only [TraceEntry.work, label, if_true]
    rfl
  | @hit t j entry rest running read label resp =>
    obtain ⟨htraces, hsum⟩ := executed_read s
      (Simulator.hit cfg R (s.pop (.fetch t j)) t j entry rest) t running read i
    refine ⟨htraces, ?_⟩
    rw [hsum]
    simp only [Simulator.hit]
    rw [Machine.updStats_work_eq j i, access_work j i entry label]
    · rfl
    · intro st
      rfl
  | @miss t j entry rest running read label resp =>
    obtain ⟨htraces, hsum⟩ := executed_read s
      (missed cfg R (s.pop (.fetch t j)) t j entry rest) t running read i
    refine ⟨htraces, ?_⟩
    rw [hsum]
    simp only [missed]
    rw [Machine.updStats_work_eq j i, access_work j i entry label]
    · rfl
    · intro st
      rfl
  | _ => exact ⟨rfl, rfl⟩

structure ExecutedInv (traces : Fin n → List TraceEntry)
    (h : List (Move (Simulator S n) (Event n))) (s : Simulator S n) : Prop where
  entries : ∀ i, executed i h ++ s.traces i = traces i
  work : ∀ i, (s.machine.cStats i).work = ((executed i h).map TraceEntry.work).sum

theorem executedInv_run {h : List (Move (Simulator S n) (Event n))}
    (hr : (system cfg R traces).Run h s) : ExecutedInv traces h s := by
  refine hr.history (J := fun _ => True) (fun _ _ => trivial) ?_ ?_
  · intro s hs
    subst hs
    exact ⟨fun i => rfl, fun i => rfl⟩
  · intro h s e s' hstep _ hinv
    obtain ⟨-, -, hf⟩ := fired_of_step hstep
    have happend (i : Fin n) : executed i (⟨s, e, s'⟩ :: h) =
        executed i h ++ (executedBy i ⟨s, e, s'⟩).toList := by
      rw [executed, List.reverse_cons, List.filterMap_append]
      cases hm : executedBy i ⟨s, e, s'⟩ <;> simp [executed, hm]
    constructor
    · intro i
      rw [happend, List.append_assoc, (executed_fired hf i).1]
      exact hinv.entries i
    · intro i
      rw [happend, List.map_append, List.sum_append, (executed_fired hf i).2, hinv.work i]

/-! ### The end of a run -/

/-- A core whose trace is exhausted is not blocked and has nothing left to read. -/
def ExhaustedInv (s : Simulator S n) : Prop :=
  ∀ i, s.traceExhausted i = true → s.blocked i = false ∧ s.traces i = []

theorem exhaustedInv_fired (hinv : s.ExhaustedInv) (hf : Fired cfg R (s.pop e) e s') :
    s'.ExhaustedInv := by
  have reads {j : Fin n} {entry : TraceEntry} {rest : List TraceEntry} (b : Bool)
      (read : s.traces j = entry :: rest) (i : Fin n) (hi : s.traceExhausted i = true) :
      Function.update s.blocked j b i = false ∧ Function.update s.traces j rest i = [] := by
    obtain ⟨hb, ht⟩ := hinv i hi
    have hij : i ≠ j := by
      intro heq
      rw [heq, read] at ht
      simp at ht
    rw [Function.update_of_ne hij, Function.update_of_ne hij]
    exact ⟨hb, ht⟩
  cases hf with
  | @unblock t j =>
    intro i hi
    obtain ⟨hb, ht⟩ := hinv i hi
    refine ⟨?_, ht⟩
    change Function.update s.blocked j false i = false
    rw [Function.update_apply]
    split
    · rfl
    · exact hb
  | @exhausted t j running done =>
    intro i hi
    change Function.update s.traceExhausted j true i = true at hi
    rw [Function.update_apply] at hi
    split at hi
    · rename_i hij
      subst hij
      exact ⟨running, done⟩
    · exact hinv i hi
  | @compute t j entry rest running read label =>
    intro i hi
    exact ⟨(hinv i hi).1, (reads false read i hi).2⟩
  | @hit t j entry rest running read label resp =>
    intro i hi
    exact ⟨(hinv i hi).1, (reads false read i hi).2⟩
  | @miss t j entry rest running read label resp => exact reads true read
  | _ => exact hinv

theorem exhaustedInv_reached (hr : (system cfg R traces).Reached s) : s.ExhaustedInv := by
  refine hr.invariant ?_ ?_
  · intro s hs i hi
    subst hs
    simp [start] at hi
  · intro s e s' hstep hinv
    obtain ⟨-, -, hf⟩ := fired_of_step hstep
    exact exhaustedInv_fired hinv hf

omit [LineState S] in
/-- The loop of `run` has been left, by its test or because the heap is empty. -/
def ended (s : Simulator S n) : Bool := s.finished || s.eventQueue.isEmpty

/-- No wakeup is lost: with an empty heap there is nothing left to do. -/
theorem idle_of_empty (hR : R.MissFills) (hr : (system cfg R traces).Reached s)
    (hempty : s.eventQueue = []) :
    (∀ i, s.traceExhausted i = true) ∧ s.busBusy = false ∧ s.busQueue = [] := by
  have hfree : s.busBusy = false := by
    have hrel := (busInv_reached hr).releases_eq
    cases hb : s.busBusy with
    | false => rfl
    | true => simp [releases, hempty, hb] at hrel
  have hqueue : s.busQueue = [] := by
    by_contra hq
    have harb := arbitrationReady_reached hr hfree hq
    simp [hempty] at harb
  refine ⟨?_, hfree, hqueue⟩
  intro i
  obtain ⟨k, hk⟩ := (tokenInv_reached hR hr).situated i
  cases k with
  | running => simp [InSituation, fetches, hempty] at hk
  | waiting => simp [InSituation, requests, hqueue] at hk
  | served => simp [InSituation, unblocks, hempty] at hk
  | done => exact hk.2.2.2

theorem idle_of_ended (hR : R.MissFills) (hr : (system cfg R traces).Reached s)
    (hend : s.ended = true) :
    (∀ i, s.traceExhausted i = true) ∧ s.busBusy = false ∧ s.busQueue = [] := by
  rcases Bool.or_eq_true_iff.mp hend with hfin | hempty
  · simp only [finished, Bool.and_eq_true, List.all_eq_true, List.mem_finRange, forall_const,
      Bool.not_eq_true', List.isEmpty_iff] at hfin
    exact ⟨hfin.1.1.1, hfin.1.2, hfin.2⟩
  · exact idle_of_empty hR hr (List.isEmpty_iff.mp hempty)

/-- A run that has ended has executed every trace to its end. -/
theorem executed_of_ended (hR : R.MissFills) {h : List (Move (Simulator S n) (Event n))}
    (hr : (system cfg R traces).Run h s) (hend : s.ended = true) (i : Fin n) :
    executed i h = traces i := by
  have hexhausted := (idle_of_ended hR hr.reached hend).1 i
  have hread := (exhaustedInv_reached hr.reached i hexhausted).2
  have hentries := (executedInv_run hr).entries i
  rwa [hread, List.append_nil] at hentries

/-- Every run is finite and can only stop at an exit of the loop; there every trace has
been executed once and in order, and nothing is left blocked or waiting. -/
theorem run_total_correctness (p : ProtocolName) (cfg : Config) (traces : Fin n → List TraceEntry) :
    (∃ bound, ∀ h s, (system cfg p.rules traces).Run h s → h.length ≤ bound) ∧
    (∀ s, (system cfg p.rules traces).Reached s → s.ended = false →
      (∃ e ∈ s.eventQueue, e.isTop s.eventQueue = true) ∧
      ∀ e ∈ s.eventQueue, e.isTop s.eventQueue = true →
        ∃ s', (system cfg p.rules traces).step s e s') ∧
    (∀ h s, (system cfg p.rules traces).Run h s →
      ∃ later s', (system cfg p.rules traces).Run (later ++ h) s' ∧ s'.ended = true) ∧
    (∀ h s, (system cfg p.rules traces).Run h s → s.ended = true →
      s.busBusy = false ∧ s.busQueue = [] ∧
      ∀ i, s.traceExhausted i = true ∧ s.traces i = [] ∧ s.blocked i = false ∧
        executed i h = traces i ∧
        (s.machine.cStats i).storeCount = (traces i).countP (·.label = 1) ∧
        (s.machine.cStats i).loadCount =
          (traces i).countP (fun entry => entry.label ≠ 1 ∧ entry.label ≠ 2) ∧
        (s.machine.cStats i).computeCycles =
          (((traces i).filter (·.label = 2)).map (·.val.toNat)).sum) := by
  have progress (s : Simulator p.State n) (hr : (system cfg p.rules traces).Reached s)
      (hend : s.ended = false) : (∃ e ∈ s.eventQueue, e.isTop s.eventQueue = true) ∧
      ∀ e ∈ s.eventQueue, e.isTop s.eventQueue = true →
        ∃ s', (system cfg p.rules traces).step s e s' := by
    obtain ⟨hfin, hqueue⟩ := Bool.or_eq_false_iff.mp hend
    refine ⟨Event.exists_top (List.isEmpty_eq_false_iff.mp hqueue), ?_⟩
    intro e he htop
    exact step_exists p.missFills hr hfin he htop
  refine ⟨⟨(start traces : Simulator p.State n).remaining, ?_⟩, progress, ?_, ?_⟩
  · intro h s hr
    have hle := hr.length_add_le (f := remaining)
      (fun s hs => Nat.le_of_eq (congrArg remaining hs)) remaining_step
    omega
  · intro h s hr
    refine hr.exists_end (f := remaining) (D := fun s => s.ended = true) remaining_step ?_
    intro s hreach
    cases hend : s.ended with
    | true => exact .inl rfl
    | false =>
      obtain ⟨⟨e, he, htop⟩, hstep⟩ := progress s hreach hend
      exact .inr ⟨e, hstep e he htop⟩
  · intro h s hr hend
    obtain ⟨hexh, hfree, hqueue⟩ := idle_of_ended p.missFills hr.reached hend
    refine ⟨hfree, hqueue, ?_⟩
    intro i
    obtain ⟨hblocked, htraces⟩ := exhaustedInv_reached hr.reached i (hexh i)
    have hinv := executedInv_run hr
    have hall : executed i h = traces i := by
      have hentries := hinv.entries i
      rwa [htraces, List.append_nil] at hentries
    have hwork := hinv.work i
    rw [hall, TraceEntry.work_sum, Statistics.work, Prod.mk.injEq, Prod.mk.injEq] at hwork
    exact ⟨hexh i, htraces, hblocked, hall, hwork⟩

theorem run_total_correctness_storeAndLoad :
    ∃ (h : List (Move (Simulator MESIState 2) (Event 2))) (s : Simulator MESIState 2),
      (system tinyConfig (ProtocolName.rules .mesi) storeAndLoad).Run h s ∧ s.ended = true ∧
      h.length = 10 ∧ executed 0 h = storeAndLoad 0 ∧ executed 1 h = storeAndLoad 1 := by
  obtain ⟨h, s, hr, ht⟩ := exists_run tinyConfig (ProtocolName.rules .mesi) storeAndLoad
    [.fetch 0 0, .busArbitration 0, .fetch 0 1, .busRelease 101, .busArbitration 101,
      .coreUnblock 101 0, .fetch 101 0, .busRelease 104, .coreUnblock 104 1, .fetch 104 1]
    (fun h s => s.ended && h.length == 10) (by decide +kernel)
  obtain ⟨hend, hlen⟩ := Bool.and_eq_true_iff.mp ht
  have hfinal := ((run_total_correctness .mesi tinyConfig storeAndLoad).2.2.2 h s hr hend).2.2
  exact ⟨h, s, hr, hend, beq_iff_eq.mp hlen, (hfinal 0).2.2.2.1, (hfinal 1).2.2.2.1⟩

end Simulator
end CoherenceFormal
