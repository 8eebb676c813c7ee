import CoherenceFormal.Simulator
import CoherenceFormal.HandlerSpec

/-!
# The nine things an event can do

`Fired` lists the ways in which an event can execute, with the state it leads to.
Every invariant below is proved by cases on it. The event only has to be pending:
no case says that it was the top of the heap, so what is proved from `Fired` alone
holds for any order of the events.
-/

namespace CoherenceFormal
open LineState
set_option autoImplicit false

variable {S : Type} [LineState S] {n : Nat}

theorem minElement_mem {α : Type} {precedes : α → α → Bool} {l : List α} {a : α}
    (h : minElement precedes l = some a) : a ∈ l := by
  cases l with
  | nil => simp [minElement] at h
  | cons b rest =>
    have select (l : List α) (b : α) :
        l.foldl (fun smallest c => if precedes c smallest then c else smallest) b ∈ b :: l := by
      induction l generalizing b with
      | nil => simp
      | cons c l ih =>
        rw [List.foldl_cons]
        rcases List.mem_cons.mp (ih (if precedes c b then c else b)) with heq | hmem
        · rw [heq]
          split <;> simp
        · exact List.mem_cons_of_mem _ (List.mem_cons_of_mem _ hmem)
    obtain rfl := Option.some.inj h
    exact select rest b

namespace Simulator

def released (s : Simulator S n) (t : Nat) : Simulator S n :=
  { s with
    busBusy := false
    eventQueue := (if s.busQueue.isEmpty then [] else [.busArbitration t]) ++ s.eventQueue }

def granted (s : Simulator S n) (t : Nat) (req : BusRequest n) (latency : Nat)
    (machine : Machine S n) : Simulator S n :=
  { s with
    busQueue := s.busQueue.erase req
    busBusy := true
    machine := machine
    eventQueue :=
      (if req.type ≠ .writeback then [.coreUnblock (t + latency) req.coreId] else []) ++
        .busRelease (t + latency) :: s.eventQueue }

omit [LineState S] in
/-- Every request but a writeback has a core to wake. -/
theorem granted_eventQueue (s : Simulator S n) (t : Nat) {req : BusRequest n} (latency : Nat)
    (machine : Machine S n) (htype : req.type ≠ .writeback) :
    (s.granted t req latency machine).eventQueue =
      [.coreUnblock (t + latency) req.coreId, .busRelease (t + latency)] ++ s.eventQueue := by
  simp [granted, htype]

def computed (s : Simulator S n) (t : Nat) (i : Fin n) (entry : TraceEntry)
    (rest : List TraceEntry) : Simulator S n :=
  { s with
    traces := Function.update s.traces i rest
    machine := s.machine.updStats i fun st =>
      { st with computeCycles := st.computeCycles + entry.val.toNat }
    eventQueue := .fetch (t + entry.val.toNat) i :: s.eventQueue }

def hit (cfg : Config) (R : ProtocolRules S) (s : Simulator S n) (t : Nat) (i : Fin n)
    (entry : TraceEntry) (rest : List TraceEntry) : Simulator S n :=
  { s with
    traces := Function.update s.traces i rest
    machine := (s.access cfg R i entry).2.updStats i fun st =>
      { st with cacheHits := st.cacheHits + 1 }
    eventQueue := .fetch (t + 1) i :: s.eventQueue }

def missed (cfg : Config) (R : ProtocolRules S) (s : Simulator S n) (t : Nat) (i : Fin n)
    (entry : TraceEntry) (rest : List TraceEntry) : Simulator S n :=
  { s with
    traces := Function.update s.traces i rest
    machine := (s.access cfg R i entry).2.updStats i fun st =>
      { st with cacheMisses := st.cacheMisses + 1 }
    blocked := Function.update s.blocked i true
    busQueue := s.busQueue ++ [⟨i, (s.access cfg R i entry).1.busAction, entry.val, t⟩]
    eventQueue := (if s.busBusy then [] else [.busArbitration t]) ++ s.eventQueue }

inductive Fired (cfg : Config) (R : ProtocolRules S) (s : Simulator S n) :
    Event n → Simulator S n → Prop where
  | release {t : Nat} : Fired cfg R s (.busRelease t) (s.released t)
  | idle {t : Nat} (h : s.busBusy = true ∨ s.busQueue = []) : Fired cfg R s (.busArbitration t) s
  | grant {t : Nat} {req : BusRequest n} {latency : Nat} {machine : Machine S n}
      (free : s.busBusy = false)
      (first : minElement (BusRequest.precedes cfg.readPriority) s.busQueue = some req)
      (bus : handleBusTransaction R cfg.geometry s.machine req.coreId req.type req.addr =
        some (latency, machine)) :
      Fired cfg R s (.busArbitration t) (s.granted t req latency machine)
  | unblock {t : Nat} {i : Fin n} : Fired cfg R s (.coreUnblock t i) (s.coreUnblock t i)
  | stalled {t : Nat} {i : Fin n} (h : s.blocked i = true) : Fired cfg R s (.fetch t i) s
  | exhausted {t : Nat} {i : Fin n} (running : s.blocked i = false) (done : s.traces i = []) :
      Fired cfg R s (.fetch t i)
        { s with traceExhausted := Function.update s.traceExhausted i true }
  | compute {t : Nat} {i : Fin n} {entry : TraceEntry} {rest : List TraceEntry}
      (running : s.blocked i = false) (read : s.traces i = entry :: rest)
      (label : entry.label = 2) : Fired cfg R s (.fetch t i) (s.computed t i entry rest)
  | hit {t : Nat} {i : Fin n} {entry : TraceEntry} {rest : List TraceEntry}
      (running : s.blocked i = false) (read : s.traces i = entry :: rest)
      (label : entry.label ≠ 2)
      (resp : respond R entry.isWrite (s.machine.state i (cfg.geometry.block entry.val)) =
        ⟨true, .none⟩) :
      Fired cfg R s (.fetch t i) (s.hit cfg R t i entry rest)
  | miss {t : Nat} {i : Fin n} {entry : TraceEntry} {rest : List TraceEntry}
      (running : s.blocked i = false) (read : s.traces i = entry :: rest)
      (label : entry.label ≠ 2)
      (resp : (respond R entry.isWrite (s.machine.state i (cfg.geometry.block entry.val))).isHit =
        false) :
      Fired cfg R s (.fetch t i) (s.missed cfg R t i entry rest)

theorem access_response (cfg : Config) (R : ProtocolRules S) (s : Simulator S n) (i : Fin n)
    (entry : TraceEntry) : (s.access cfg R i entry).1 =
      respond R entry.isWrite (s.machine.state i (cfg.geometry.block entry.val)) :=
  handleProcessorRequest_response _ _ _ _ _ _

theorem access_line (cfg : Config) (R : ProtocolRules S) (s : Simulator S n) (i : Fin n)
    (entry : TraceEntry) (j : Fin n) (b : Block) : (s.access cfg R i entry).2.line j b =
      if j = i ∧ b = cfg.geometry.block entry.val
      then (s.machine.line j b).map fun l =>
        { l with state := afterRequest R entry.isWrite l.state }
      else s.machine.line j b :=
  line_handleProcessorRequest _ _ _ _ _ _ _ _

/-- A response either is a hit without bus action or asks for the bus. -/
theorem respond_cases (R : ProtocolRules S) (isWrite : Bool) (st : S) :
    (respond R isWrite st = ⟨true, .none⟩ ∧ st ≠ invalid ∧ (isWrite && R.isShared st) = false) ∨
    (respond R isWrite st = ⟨false, .busUpgr⟩ ∧ st ≠ invalid ∧ isWrite = true ∧
      R.isShared st = true) ∨
    (respond R isWrite st = ⟨false, R.missAction isWrite⟩ ∧ st = invalid) := by
  unfold respond
  by_cases hi : st = invalid
  · simp [hi]
  · by_cases hs : (isWrite && R.isShared st) = true
    · right
      left
      rw [if_neg hi, if_pos hs]
      rw [Bool.and_eq_true] at hs
      exact ⟨rfl, hi, hs.1, hs.2⟩
    · left
      rw [if_neg hi, if_neg hs]
      exact ⟨rfl, hi, by simpa using hs⟩

/-- A memory access, after its entry has been taken off the trace. -/
theorem executeEntry_eq (cfg : Config) (R : ProtocolRules S) (s : Simulator S n) (t : Nat)
    (i : Fin n) (entry : TraceEntry) (rest : List TraceEntry) (hlabel : entry.label ≠ 2) :
    { s with traces := Function.update s.traces i rest }.executeEntry cfg R t i entry =
      if (s.access cfg R i entry).1.isHit && (s.access cfg R i entry).1.busAction == .none
      then s.hit cfg R t i entry rest else s.missed cfg R t i entry rest := by
  have hsame : { s with traces := Function.update s.traces i rest }.access cfg R i entry =
      s.access cfg R i entry := rfl
  simp only [executeEntry, hlabel, if_false, hsame]
  split
  · rfl
  · cases hb : s.busBusy <;> simp [missed, schedule, hb]

omit [LineState S] in
theorem busRelease_eq (s : Simulator S n) (t : Nat) : s.busRelease t = s.released t := by
  unfold busRelease released
  cases s.busQueue <;> rfl

theorem fired_of_busArbitration {cfg : Config} {R : ProtocolRules S} {s s' : Simulator S n}
    {t : Nat} (h : s.busArbitration cfg R t = some s') : Fired cfg R s (.busArbitration t) s' := by
  unfold busArbitration at h
  split at h
  · rename_i hbusy
    obtain rfl := Option.some.inj h
    exact .idle (.inl hbusy)
  · rename_i hbusy
    split at h
    · rename_i hmin
      obtain rfl := Option.some.inj h
      refine .idle (.inr ?_)
      cases hq : s.busQueue with
      | nil => rfl
      | cons a rest => simp [hq, minElement] at hmin
    · rename_i req hmin
      dsimp only at h
      split at h
      · simp at h
      · rename_i latency machine hbus
        have hfree : s.busBusy = false := by simpa using hbusy
        have heq : s' = s.granted t req latency machine := by
          by_cases hw : req.type = .writeback
          · simp only [hw, ne_eq, not_true, if_false, Option.some.injEq] at h
            rw [← h]
            simp [granted, schedule, hw]
          · simp only [hw, ne_eq, not_false_eq_true, if_true, Option.some.injEq] at h
            rw [← h]
            simp [granted, schedule, hw]
        subst heq
        exact .grant hfree hmin hbus

theorem fired_fetch (cfg : Config) (R : ProtocolRules S) (s : Simulator S n) (t : Nat) (i : Fin n) :
    Fired cfg R s (.fetch t i) (s.fetch cfg R t i) := by
  unfold fetch
  split
  · rename_i hblocked
    exact .stalled hblocked
  · rename_i hrun
    have hrun : s.blocked i = false := by simpa using hrun
    cases hread : s.traces i with
    | nil => exact .exhausted hrun hread
    | cons entry rest =>
      by_cases hlabel : entry.label = 2
      · simp only [executeEntry, hlabel, if_true]
        exact .compute hrun hread hlabel
      · simp only
        have hresp := access_response cfg R s i entry
        rw [executeEntry_eq cfg R s t i entry rest hlabel, hresp]
        rcases respond_cases R entry.isWrite
          (s.machine.state i (cfg.geometry.block entry.val)) with ⟨hr, -⟩ | ⟨hr, -⟩ | ⟨hr, -⟩
        · rw [hr]
          exact .hit hrun hread hlabel hr
        · rw [hr]
          exact .miss hrun hread hlabel (by rw [hr])
        · rw [hr]
          exact .miss hrun hread hlabel (by rw [hr])

theorem fired_of_execute {cfg : Config} {R : ProtocolRules S} {s s' : Simulator S n} {e : Event n}
    (h : s.execute cfg R e = some s') : Fired cfg R s e s' := by
  cases e with
  | busRelease t =>
    obtain rfl := Option.some.inj h
    rw [busRelease_eq]
    exact .release
  | busArbitration t => exact fired_of_busArbitration h
  | coreUnblock t i =>
    obtain rfl := Option.some.inj h
    exact .unblock
  | fetch t i =>
    obtain rfl := Option.some.inj h
    exact fired_fetch cfg R s t i

omit [LineState S] in
@[simp] theorem pop_machine (s : Simulator S n) (e : Event n) : (s.pop e).machine = s.machine := rfl

omit [LineState S] in
@[simp] theorem pop_busQueue (s : Simulator S n) (e : Event n) :
    (s.pop e).busQueue = s.busQueue := rfl

omit [LineState S] in
@[simp] theorem pop_busBusy (s : Simulator S n) (e : Event n) : (s.pop e).busBusy = s.busBusy := rfl

omit [LineState S] in
@[simp] theorem pop_blocked (s : Simulator S n) (e : Event n) : (s.pop e).blocked = s.blocked := rfl

omit [LineState S] in
@[simp] theorem pop_traces (s : Simulator S n) (e : Event n) : (s.pop e).traces = s.traces := rfl

/-- The request that a move grants, if it is an arbitration that grants one. -/
def grantOf (cfg : Config) (m : Move (Simulator S n) (Event n)) : Option (BusRequest n) :=
  match m.label with
  | .busArbitration _ =>
    if m.before.busBusy then none
    else minElement (BusRequest.precedes cfg.readPriority) m.before.busQueue
  | _ => none

omit [LineState S] in
theorem grantOf_idle {cfg : Config} {s s' : Simulator S n} {t : Nat}
    (h : (s.pop (.busArbitration t)).busBusy = true ∨ (s.pop (.busArbitration t)).busQueue = []) :
    grantOf cfg ⟨s, .busArbitration t, s'⟩ = none := by
  simp only [pop_busBusy, pop_busQueue] at h
  rcases h with hb | hq
  · simp [grantOf, hb]
  · simp [grantOf, hq, minElement]

omit [LineState S] in
theorem grantOf_grant {cfg : Config} {s : Simulator S n} (s' : Simulator S n) {t : Nat}
    {req : BusRequest n} (free : (s.pop (.busArbitration t)).busBusy = false)
    (first : minElement (BusRequest.precedes cfg.readPriority)
      (s.pop (.busArbitration t)).busQueue = some req) :
    grantOf cfg ⟨s, .busArbitration t, s'⟩ = some req := by
  simp only [pop_busBusy, pop_busQueue] at free first
  simpa [grantOf, free] using first

omit [LineState S] in
theorem grantOf_mem {cfg : Config} {m : Move (Simulator S n) (Event n)} {req : BusRequest n}
    (h : grantOf cfg m = some req) : req ∈ m.before.busQueue := by
  unfold grantOf at h
  split at h
  · split at h
    · simp at h
    · exact minElement_mem h
  · simp at h

/-- A move that grants a request executes as that grant. -/
theorem granted_of_fired {cfg : Config} {R : ProtocolRules S} {s s' : Simulator S n} {e : Event n}
    {req : BusRequest n} (hf : Fired cfg R (s.pop e) e s')
    (hg : grantOf cfg ⟨s, e, s'⟩ = some req) :
    ∃ t latency machine, e = .busArbitration t ∧
      handleBusTransaction R cfg.geometry s.machine req.coreId req.type req.addr =
        some (latency, machine) ∧
      s' = (s.pop e).granted t req latency machine := by
  cases hf with
  | idle h =>
    rw [grantOf_idle h] at hg
    simp at hg
  | @grant t req' latency machine free first bus =>
    obtain rfl : req' = req := Option.some.inj ((grantOf_grant _ free first).symm.trans hg)
    exact ⟨t, latency, machine, rfl, bus, rfl⟩
  | _ => simp [grantOf] at hg

theorem fired_of_step {cfg : Config} {R : ProtocolRules S} {traces : Fin n → List TraceEntry}
    {s s' : Simulator S n} {e : Event n} (h : (system cfg R traces).step s e s') :
    e ∈ s.eventQueue ∧ e.isTop s.eventQueue ∧ Fired cfg R (s.pop e) e s' := by
  obtain ⟨-, hp⟩ := h
  simp only [processNext] at hp
  split at hp
  · rename_i hmem
    exact ⟨hmem.1, hmem.2, fired_of_execute hp⟩
  · simp at hp

end Simulator

end CoherenceFormal
