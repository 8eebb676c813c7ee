import CoherenceFormal.NoSharing
import CoherenceFormal.ProtocolSimulation
import CoherenceFormal.RunCompletion

/-!
# MESI, MESIF and MOESI without sharing

Without sharing no transaction finds a supplier or evicts an OWNED line, so it costs
the three protocols the same. The latencies feed back into the event order; as they
agree, so do the heaps, and a heap that breaks ties in a fixed way pops the same
events.
-/

namespace CoherenceFormal
open LineState
set_option autoImplicit false

variable {S T : Type} {n : Nat}

theorem GlobalStatistics.InStep.eq {bsize : Nat} {gs gs' : GlobalStatistics}
    (h : gs.InStep bsize 0 gs') (ht : gs.cacheToCacheTransfers = gs'.cacheToCacheTransfers) :
    gs = gs' := by
  obtain ⟨hinv, hreads, hreadx, hupgr, hwb, htraffic, -⟩ := h
  rw [Nat.add_zero] at hwb
  rw [Nat.mul_zero, Nat.add_zero] at htraffic
  cases gs
  cases gs'
  simp only [GlobalStatistics.mk.injEq]
  exact ⟨htraffic, hinv, hreads, hreadx, hupgr, hwb, ht⟩

namespace Simulator

/-- Two simulators that differ in nothing but the names of line states. -/
structure Twin (φ : S → T) (bsize : Nat) (s : Simulator S n) (s' : Simulator T n) : Prop where
  eventQueue : s.eventQueue = s'.eventQueue
  currentTime : s.currentTime = s'.currentTime
  blocked : s.blocked = s'.blocked
  traces : s.traces = s'.traces
  traceExhausted : s.traceExhausted = s'.traceExhausted
  busQueue : s.busQueue = s'.busQueue
  busBusy : s.busBusy = s'.busBusy
  machine : s.machine.InStep φ bsize 0 s'.machine
  transfers : s.machine.gStats.cacheToCacheTransfers = s'.machine.gStats.cacheToCacheTransfers

namespace Twin
variable {φ : S → T} {bsize : Nat} {s : Simulator S n} {s' : Simulator T n}

theorem schedule (h : Twin φ bsize s s') (e : Event n) :
    Twin φ bsize (s.schedule e) (s'.schedule e) :=
  { h with eventQueue := congrArg (e :: ·) h.eventQueue }

theorem pop (h : Twin φ bsize s s') (e : Event n) : Twin φ bsize (s.pop e) (s'.pop e) :=
  { h with
    eventQueue := congrArg (List.erase · e) h.eventQueue
    currentTime := rfl }

theorem busRelease (h : Twin φ bsize s s') (t : Nat) :
    Twin φ bsize (s.busRelease t) (s'.busRelease t) := by
  have hfree : Twin φ bsize { s with busBusy := false } { s' with busBusy := false } :=
    { h with busBusy := rfl }
  have hempty : s.busQueue.isEmpty = s'.busQueue.isEmpty := by rw [h.busQueue]
  simp only [Simulator.busRelease, hempty]
  split
  · exact hfree
  · exact hfree.schedule _

theorem coreUnblock (h : Twin φ bsize s s') (t : Nat) (i : Fin n) :
    Twin φ bsize (s.coreUnblock t i) (s'.coreUnblock t i) := by
  apply schedule
  exact { h with blocked := congrArg (Function.update · i false) h.blocked }

theorem setMachine (h : Twin φ bsize s s') {m : Machine S n} {m' : Machine T n}
    (hm : m.InStep φ bsize 0 m')
    (ht : m.gStats.cacheToCacheTransfers = m'.gStats.cacheToCacheTransfers) :
    Twin φ bsize { s with machine := m } { s' with machine := m' } :=
  { h with machine := hm, transfers := ht }

theorem finished (h : Twin φ bsize s s') : s.finished = s'.finished := by
  simp only [Simulator.finished, h.traceExhausted, h.blocked, h.busBusy, h.busQueue]

theorem ended (h : Twin φ bsize s s') : s.ended = s'.ended := by
  simp only [Simulator.ended, h.finished, h.eventQueue]

theorem lineState (h : Twin φ bsize s s') (i : Fin n) (b : Block) :
    s'.machine.lineState i b = (s.machine.lineState i b).map φ := by
  have hline : s'.machine.line i b = (s.machine.line i b).map (CacheLine.map φ) :=
    (h.machine.caches i).line b
  rw [Machine.lineState, hline, Option.map_map, Machine.lineState, Option.map_map]
  rfl

end Twin

section
variable [LineState S] [LineState T] {R : ProtocolRules S} {R' : ProtocolRules T} {φ : S → T}
  {surplus : S → Bool} (laws : Refines R R' φ surplus) {cfg : Config}
  {s : Simulator S n} {s' : Simulator T n}
include laws

theorem Twin.access (h : Twin φ cfg.geometry.bsize s s') (i : Fin n) (entry : TraceEntry) :
    (s.access cfg R i entry).1 = (s'.access cfg R' i entry).1 ∧
      (s.access cfg R i entry).2.InStep φ cfg.geometry.bsize 0 (s'.access cfg R' i entry).2 ∧
      (s.access cfg R i entry).2.gStats.cacheToCacheTransfers =
        (s'.access cfg R' i entry).2.gStats.cacheToCacheTransfers := by
  unfold Simulator.access
  obtain ⟨hresp, hmachine⟩ := laws.request (h.machine.updStats i fun st =>
    if entry.isWrite then { st with storeCount := st.storeCount + 1 }
    else { st with loadCount := st.loadCount + 1 }) i entry.val entry.isWrite
  refine ⟨hresp, hmachine, ?_⟩
  rw [handleProcessorRequest_gStats, handleProcessorRequest_gStats]
  exact h.transfers

theorem Twin.executeEntry (h : Twin φ cfg.geometry.bsize s s') (t : Nat) (i : Fin n)
    (entry : TraceEntry) : Twin φ cfg.geometry.bsize (s.executeEntry cfg R t i entry)
      (s'.executeEntry cfg R' t i entry) := by
  obtain ⟨hresp, hmachine, htransfers⟩ := h.access laws i entry
  simp only [Simulator.executeEntry, hresp]
  split
  · exact (h.setMachine (h.machine.updStats i _) h.transfers).schedule _
  · split
    · exact (h.setMachine (hmachine.updStats i _) htransfers).schedule _
    · have hqueued := h.setMachine (hmachine.updStats i fun st =>
        { st with cacheMisses := st.cacheMisses + 1 }) htransfers
      have hblocked : Twin φ cfg.geometry.bsize
          { s with
            machine := (s.access cfg R i entry).2.updStats i fun st =>
              { st with cacheMisses := st.cacheMisses + 1 }
            blocked := Function.update s.blocked i true
            busQueue := s.busQueue ++
              [⟨i, (s'.access cfg R' i entry).1.busAction, entry.val, t⟩] }
          { s' with
            machine := (s'.access cfg R' i entry).2.updStats i fun st =>
              { st with cacheMisses := st.cacheMisses + 1 }
            blocked := Function.update s'.blocked i true
            busQueue := s'.busQueue ++
              [⟨i, (s'.access cfg R' i entry).1.busAction, entry.val, t⟩] } :=
        { hqueued with
          blocked := congrArg (Function.update · i true) h.blocked
          busQueue := congrArg (· ++ _) h.busQueue }
      have hbusy := h.busBusy
      split
      · rename_i hb
        rw [hbusy] at hb
        rw [if_pos hb]
        exact hblocked
      · rename_i hb
        rw [hbusy] at hb
        rw [if_neg hb]
        exact hblocked.schedule _

theorem Twin.fetch (h : Twin φ cfg.geometry.bsize s s') (t : Nat) (i : Fin n) :
    Twin φ cfg.geometry.bsize (s.fetch cfg R t i) (s'.fetch cfg R' t i) := by
  have hblocked : s.blocked i = s'.blocked i := congrFun h.blocked i
  have htraces : s.traces i = s'.traces i := congrFun h.traces i
  simp only [Simulator.fetch, hblocked, htraces]
  split
  · exact h
  · split
    · exact { h with traceExhausted := congrArg (Function.update · i true) h.traceExhausted }
    · rename_i entry rest _
      apply Twin.executeEntry laws
      exact { h with traces := congrArg (Function.update · i rest) h.traces }

/-- A transaction that finds no supplier and evicts no surplus line. -/
theorem Twin.busArbitration (h : Twin φ cfg.geometry.bsize s s') (t : Nat)
    (hsole : ∀ req ∈ s.busQueue, s.machine.Sole req.coreId (cfg.geometry.block req.addr) ∧
      s'.machine.Sole req.coreId (cfg.geometry.block req.addr))
    (hkeep : ∀ i b, surplus (s.machine.state i b) = false) :
    Option.Rel (Twin φ cfg.geometry.bsize) (s.busArbitration cfg R t)
      (s'.busArbitration cfg R' t) := by
  simp only [Simulator.busArbitration, h.busBusy, h.busQueue]
  split
  · exact .some h
  · cases hmin : minElement (BusRequest.precedes cfg.readPriority) s'.busQueue with
    | none => exact .some h
    | some req =>
      obtain ⟨hown, hown'⟩ := hsole req (h.busQueue ▸ minElement_mem hmin)
      have hnot : (Call.transaction req.coreId req.type req.addr).Evicts R cfg.geometry surplus
          s.machine = false := by
        simp [Call.Evicts, hkeep]
      have hrel := laws.transaction h.machine req.coreId req.type req.addr
      unfold Refines.TransactionInStep at hrel
      simp only [hnot, hown.snoopAll, hown'.snoopAll, Bool.false_eq_true, if_false, Nat.add_zero,
        forall_const] at hrel
      have hgranted : Twin φ cfg.geometry.bsize
          { s with busQueue := s'.busQueue.erase req, busBusy := true }
          { s' with busQueue := s'.busQueue.erase req, busBusy := true } :=
        { h with busQueue := rfl, busBusy := rfl }
      simp only
      generalize handleBusTransaction R cfg.geometry s.machine req.coreId req.type req.addr = x
        at hrel ⊢
      generalize handleBusTransaction R' cfg.geometry s'.machine req.coreId req.type req.addr = y
        at hrel ⊢
      cases hrel with
      | none => exact .none
      | @some result result' hrel =>
        obtain ⟨latency, machine⟩ := result
        obtain ⟨latency', machine'⟩ := result'
        obtain ⟨hmachine, -, hcost⟩ := hrel
        obtain ⟨rfl, htransfers⟩ : latency = latency' ∧
          machine.gStats.cacheToCacheTransfers = machine'.gStats.cacheToCacheTransfers :=
            hcost h.transfers
        have hdone := (hgranted.setMachine hmachine htransfers).schedule
          (.busRelease (t + latency))
        simp only
        split
        · exact .some (hdone.schedule _)
        · exact .some hdone

theorem Twin.processNext (h : Twin φ cfg.geometry.bsize s s')
    (hsole : ∀ req ∈ s.busQueue, s.machine.Sole req.coreId (cfg.geometry.block req.addr) ∧
      s'.machine.Sole req.coreId (cfg.geometry.block req.addr))
    (hkeep : ∀ i b, surplus (s.machine.state i b) = false) (e : Event n) :
    Option.Rel (Twin φ cfg.geometry.bsize) (s.processNext cfg R e) (s'.processNext cfg R' e) := by
  have hpop := h.pop e
  simp only [Simulator.processNext, h.eventQueue]
  split
  · cases e with
    | busRelease t => exact .some (hpop.busRelease t)
    | busArbitration t => exact hpop.busArbitration laws t hsole hkeep
    | coreUnblock t i => exact .some (hpop.coreUnblock t i)
    | fetch t i => exact .some (hpop.fetch laws t i)
  · exact .none

end

/-! ### Whole runs -/

theorem Twin.start (φ : S → T) (bsize : Nat) (traces : Fin n → List TraceEntry) :
    Twin φ bsize (start traces) (start traces) where
  eventQueue := rfl
  currentTime := rfl
  blocked := rfl
  traces := rfl
  traceExhausted := rfl
  busQueue := rfl
  busBusy := rfl
  machine := Machine.inStep_init φ bsize
  transfers := rfl

variable [LineState S] [LineState T]

theorem not_step_of_ended {cfg : Config} {R : ProtocolRules S} {traces : Fin n → List TraceEntry}
    {s s' : Simulator S n} {e : Event n} (hend : s.ended = true) :
    ¬ (system cfg R traces).step s e s' := by
  intro hstep
  have hmem := (fired_of_step hstep).1
  rcases Bool.or_eq_true_iff.mp hend with hfin | hempty
  · have hfin' := hstep.1
    simp [hfin] at hfin'
  · rw [List.isEmpty_iff.mp hempty] at hmem
    simp at hmem

/-- What two protocols need to run alike where nothing is shared. -/
structure PrivatelyAlike (R : ProtocolRules S) (R' : ProtocolRules T) (φ : S → T)
    (good : S → Prop) (good' : T → Prop) : Prop where
  refines : ∃ surplus : S → Bool, Refines R R' φ surplus ∧ surplus invalid = false ∧
    ∀ st, good st → surplus st = false
  fills : R.MissFills
  fills' : R'.MissFills
  sole : SoleLaws R good
  sole' : SoleLaws R' good'

section
variable {R : ProtocolRules S} {R' : ProtocolRules T} {φ : S → T} {good : S → Prop}
  {good' : T → Prop} {cfg : Config} {traces : Fin n → List TraceEntry}
  (alike : PrivatelyAlike R R' φ good good') (hns : NoSharing cfg traces)
include alike hns

theorem twin_inLockstep : System.InLockstep (system cfg R traces) (system cfg R' traces)
    eventQueue eventQueue (Twin φ cfg.geometry.bsize) where
  start := by
    intro s s' hs hs'
    subst hs hs'
    exact Twin.start φ cfg.geometry.bsize traces
  view := fun s s' h => h.eventQueue
  step := by
    intro s s' e t t' hr hr' htwin hstep hstep'
    obtain ⟨surplus, laws, hinvalid, hgood⟩ := alike.refines
    have hinv := soleInv_reached alike.fills alike.sole hns hr
    have hinv' := soleInv_reached alike.fills' alike.sole' hns hr'
    have hsole : ∀ req ∈ s.busQueue,
        s.machine.Sole req.coreId (cfg.geometry.block req.addr) ∧
          s'.machine.Sole req.coreId (cfg.geometry.block req.addr) := by
      intro req hreq
      exact ⟨hinv.sole hns (hinv.queue req hreq), hinv'.sole hns (hinv.queue req hreq)⟩
    have hkeep : ∀ i b, surplus (s.machine.state i b) = false := by
      intro i b
      rw [Machine.state_eq_lineState]
      cases hline : s.machine.lineState i b with
      | none => exact hinvalid
      | some st => exact hgood st (hinv.lines i b st hline).2
    have hrel := htwin.processNext laws hsole hkeep e
    rw [hstep.2, hstep'.2] at hrel
    cases hrel with
    | some htwin' => exact htwin'

/-- Two complete runs with the same tie order. -/
theorem twin_complete {tie : List (List (Event n)) → Event n}
    {h : List (Move (Simulator S n) (Event n))} {s : Simulator S n}
    {h' : List (Move (Simulator T n) (Event n))} {s' : Simulator T n}
    (hr : (system cfg R traces).Run h s) (hr' : (system cfg R' traces).Run h' s')
    (hend : s.ended = true) (hend' : s'.ended = true)
    (htie : System.Follows eventQueue tie h) (htie' : System.Follows eventQueue tie h') :
    h.map Move.label = h'.map Move.label ∧
      List.Forall₂ (Twin φ cfg.geometry.bsize) (System.visited h s) (System.visited h' s') := by
  have laws := twin_inLockstep alike hns
  apply laws.runs hr hr' htie htie'
  apply Nat.le_antisymm
  · apply laws.symm.length_le hr' hr htie' htie
    intro t e t' htwin
    exact not_step_of_ended (htwin.ended.trans hend')
  · apply laws.length_le hr hr' htie htie'
    intro t e t' htwin
    exact not_step_of_ended (htwin.ended.symm.trans hend)

end
end Simulator

def MESIState.Private (st : MESIState) : Prop := st = .exclusive ∨ st = .modified
def MESIFState.Private (st : MESIFState) : Prop := st = .exclusive ∨ st = .modified
def MOESIState.Private (st : MOESIState) : Prop := st = .exclusive ∨ st = .modified

theorem mesi_soleLaws : SoleLaws mesi MESIState.Private := by
  constructor <;> unfold MESIState.Private <;> decide

theorem mesif_soleLaws : SoleLaws mesif MESIFState.Private := by
  constructor <;> unfold MESIFState.Private <;> decide

theorem moesi_soleLaws : SoleLaws moesi MOESIState.Private := by
  constructor <;> unfold MOESIState.Private <;> decide

theorem mesif_privatelyAlike : Simulator.PrivatelyAlike mesif mesi MESIFState.toMESI
    MESIFState.Private MESIState.Private where
  refines := ⟨fun _ => false, mesif_refines, rfl, fun _ _ => rfl⟩
  fills := mesif_missFills
  fills' := mesi_missFills
  sole := mesif_soleLaws
  sole' := mesi_soleLaws

theorem moesi_privatelyAlike : Simulator.PrivatelyAlike moesi mesi MOESIState.toMESI
    MOESIState.Private MESIState.Private where
  refines := by
    refine ⟨(· == .owned), moesi_refines, rfl, ?_⟩
    intro st hst
    rcases hst with rfl | rfl <;> rfl
  fills := moesi_missFills
  fills' := mesi_missFills
  sole := moesi_soleLaws
  sole' := mesi_soleLaws

/-- A block has no entry under any of the three protocols, or it is EXCLUSIVE under all of
them, or MODIFIED under all of them. -/
def SameLine (line : Option MESIState) (line₁ : Option MESIFState) (line₂ : Option MOESIState) :
    Prop :=
  (line = none ∧ line₁ = none ∧ line₂ = none) ∨
    (line = some .exclusive ∧ line₁ = some .exclusive ∧ line₂ = some .exclusive) ∨
    (line = some .modified ∧ line₁ = some .modified ∧ line₂ = some .modified)

theorem sameLine_of_toMESI {line₁ : Option MESIFState} {line₂ : Option MOESIState}
    (heq : line₁.map MESIFState.toMESI = line₂.map MOESIState.toMESI)
    (h₁ : ∀ st, line₁ = some st → st.Private) (h₂ : ∀ st, line₂ = some st → st.Private) :
    SameLine (line₁.map MESIFState.toMESI) line₁ line₂ := by
  cases line₁ with
  | none =>
    cases line₂ with
    | none => exact .inl ⟨rfl, rfl, rfl⟩
    | some st₂ => simp at heq
  | some st₁ =>
    cases line₂ with
    | none => simp at heq
    | some st₂ =>
      rcases h₁ st₁ rfl with rfl | rfl
      · rcases h₂ st₂ rfl with rfl | rfl
        · exact .inr (.inl ⟨rfl, rfl, rfl⟩)
        · simp [MESIFState.toMESI, MOESIState.toMESI] at heq
      · rcases h₂ st₂ rfl with rfl | rfl
        · simp [MESIFState.toMESI, MOESIState.toMESI] at heq
        · exact .inr (.inr ⟨rfl, rfl, rfl⟩)

namespace Simulator

/-- With the same tie order, complete runs of the three protocols pop the same events, end at
the same time with the same statistics, and hold the same lines after every step. -/
theorem no_sharing_protocols_coincide {n : Nat} (cfg : Config) (traces : Fin n → List TraceEntry)
    (hns : NoSharing cfg traces) (tie : List (List (Event n)) → Event n)
    {h : List (Move (Simulator MESIState n) (Event n))} {s : Simulator MESIState n}
    {h₁ : List (Move (Simulator MESIFState n) (Event n))} {s₁ : Simulator MESIFState n}
    {h₂ : List (Move (Simulator MOESIState n) (Event n))} {s₂ : Simulator MOESIState n}
    (hr : (system cfg mesi traces).Run h s) (hend : s.ended = true)
    (htie : System.Follows eventQueue tie h)
    (hr₁ : (system cfg mesif traces).Run h₁ s₁) (hend₁ : s₁.ended = true)
    (htie₁ : System.Follows eventQueue tie h₁)
    (hr₂ : (system cfg moesi traces).Run h₂ s₂) (hend₂ : s₂.ended = true)
    (htie₂ : System.Follows eventQueue tie h₂) :
    (h₁.map Move.label = h.map Move.label ∧ h₂.map Move.label = h.map Move.label) ∧
    (s₁.currentTime = s.currentTime ∧ s₂.currentTime = s.currentTime) ∧
    (s₁.machine.cStats = s.machine.cStats ∧ s₂.machine.cStats = s.machine.cStats) ∧
    (s₁.machine.gStats = s.machine.gStats ∧ s₂.machine.gStats = s.machine.gStats) ∧
    ∀ (k : Nat) (x : Simulator MESIState n) (x₁ : Simulator MESIFState n)
      (x₂ : Simulator MOESIState n), (System.visited h s)[k]? = some x →
      (System.visited h₁ s₁)[k]? = some x₁ → (System.visited h₂ s₂)[k]? = some x₂ →
      ∀ i b, SameLine (x.machine.lineState i b) (x₁.machine.lineState i b)
        (x₂.machine.lineState i b) := by
  obtain ⟨hlabels₁, hvisited₁⟩ :=
    twin_complete mesif_privatelyAlike hns hr₁ hr hend₁ hend htie₁ htie
  obtain ⟨hlabels₂, hvisited₂⟩ :=
    twin_complete moesi_privatelyAlike hns hr₂ hr hend₂ hend htie₂ htie
  have htwin₁ := (List.forall₂_cons.mp hvisited₁).1
  have htwin₂ := (List.forall₂_cons.mp hvisited₂).1
  refine ⟨⟨hlabels₁, hlabels₂⟩, ⟨htwin₁.currentTime, htwin₂.currentTime⟩,
    ⟨htwin₁.machine.cStats, htwin₂.machine.cStats⟩,
    ⟨htwin₁.machine.gStats.eq htwin₁.transfers, htwin₂.machine.gStats.eq htwin₂.transfers⟩, ?_⟩
  intro k x x₁ x₂ hx hx₁ hx₂ i b
  have hinv₁ := soleInv_reached mesif_missFills mesif_soleLaws hns
    (hr₁.visited_reached (List.mem_of_getElem? hx₁))
  have hinv₂ := soleInv_reached moesi_missFills moesi_soleLaws hns
    (hr₂.visited_reached (List.mem_of_getElem? hx₂))
  have hline₁ := (Lockstep.rel_at hvisited₁ hx₁ hx).lineState i b
  have hline₂ := (Lockstep.rel_at hvisited₂ hx₂ hx).lineState i b
  rw [hline₁]
  apply sameLine_of_toMESI (hline₁.symm.trans hline₂)
  · intro st hst
    exact (hinv₁.lines i b st hst).2
  · intro st hst
    exact (hinv₂.lines i b st hst).2

/-- Of the events that may be popped, the one scheduled last. -/
def newestFirst {n : Nat} (history : List (List (Event n))) : Event n :=
  (history.head?.bind fun queue => queue.find? (·.isTop queue)).getD (.busRelease 0)

/-- Core 0 loads and stores one block, core 1 stores another. -/
def privateTraces (i : Fin 2) : List TraceEntry :=
  if i = 0 then [⟨0, 0⟩, ⟨1, 0⟩] else [⟨1, 4⟩]

def privateEvents : List (Event 2) :=
  [.fetch 0 0, .busArbitration 0, .fetch 0 1, .busRelease 101, .busArbitration 101,
    .coreUnblock 101 0, .fetch 101 0, .fetch 102 0, .busRelease 202, .coreUnblock 202 1,
    .fetch 202 1]

theorem no_sharing_protocols_coincide_privateTraces :
    ∃ (h : List (Move (Simulator MESIState 2) (Event 2))) (s : Simulator MESIState 2)
      (h₁ : List (Move (Simulator MESIFState 2) (Event 2))) (s₁ : Simulator MESIFState 2)
      (h₂ : List (Move (Simulator MOESIState 2) (Event 2))) (s₂ : Simulator MOESIState 2),
      NoSharing tinyConfig privateTraces ∧
      ((system tinyConfig mesi privateTraces).Run h s ∧ s.ended = true) ∧
      ((system tinyConfig mesif privateTraces).Run h₁ s₁ ∧ s₁.ended = true) ∧
      ((system tinyConfig moesi privateTraces).Run h₂ s₂ ∧ s₂.ended = true) ∧
      s.currentTime = 202 ∧ s₁.currentTime = 202 ∧ s₂.currentTime = 202 ∧
      h₁.map Move.label = h.map Move.label ∧ h₂.map Move.label = h.map Move.label := by
  have hns : NoSharing tinyConfig privateTraces := by
    unfold NoSharing
    decide +kernel
  obtain ⟨h, s, hr, ht⟩ := exists_run tinyConfig mesi privateTraces privateEvents
    (fun h s => s.ended && decide (System.Follows eventQueue newestFirst h) &&
      s.currentTime == 202) (by decide +kernel)
  obtain ⟨h₁, s₁, hr₁, ht₁⟩ := exists_run tinyConfig mesif privateTraces privateEvents
    (fun h s => s.ended && decide (System.Follows eventQueue newestFirst h)) (by decide +kernel)
  obtain ⟨h₂, s₂, hr₂, ht₂⟩ := exists_run tinyConfig moesi privateTraces privateEvents
    (fun h s => s.ended && decide (System.Follows eventQueue newestFirst h)) (by decide +kernel)
  simp only [Bool.and_eq_true, decide_eq_true_eq, beq_iff_eq] at ht ht₁ ht₂
  obtain ⟨⟨hend, htie⟩, htime⟩ := ht
  obtain ⟨hend₁, htie₁⟩ := ht₁
  obtain ⟨hend₂, htie₂⟩ := ht₂
  obtain ⟨⟨hlabels₁, hlabels₂⟩, ⟨htime₁, htime₂⟩, -⟩ := no_sharing_protocols_coincide tinyConfig
    privateTraces hns newestFirst hr hend htie hr₁ hend₁ htie₁ hr₂ hend₂ htie₂
  exact ⟨h, s, h₁, s₁, h₂, s₂, hns, ⟨hr, hend⟩, ⟨hr₁, hend₁⟩, ⟨hr₂, hend₂⟩, htime,
    htime₁.trans htime, htime₂.trans htime, hlabels₁, hlabels₂⟩

end Simulator
end CoherenceFormal
