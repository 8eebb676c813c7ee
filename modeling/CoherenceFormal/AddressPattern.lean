import CoherenceFormal.BlockRenaming
import CoherenceFormal.RunCompletion
import CoherenceFormal.Shared.Renaming
import CoherenceFormal.Shared.Simulation

/-!
# Only the pattern of the addresses matters

A simulation reads of its addresses which of them share a set and which share a block, and
nothing else. Two groups of traces that differ in their addresses and agree in this pattern
have the same runs: the same events at the same times, the same counters, the same line
states. The caches may have different numbers of sets.
-/

namespace CoherenceFormal
open LineState Renaming
set_option autoImplicit false

variable {S : Type} {n : Nat}

structure BusRequest.Renamed (β : BlockRenaming) (g g' : Geometry) (req req' : BusRequest n) :
    Prop where
  coreId : req.coreId = req'.coreId
  type : req.type = req'.type
  arrivalTime : req.arrivalTime = req'.arrivalTime
  places : β.Places g g' req.addr req'.addr

structure TraceEntry.Renamed (β : BlockRenaming) (g g' : Geometry) (entry entry' : TraceEntry) :
    Prop where
  label : entry.label = entry'.label
  cycles : entry.label = 2 → entry.val = entry'.val
  places : entry.label ≠ 2 → β.Places g g' entry.val entry'.val

section
variable {β : BlockRenaming} {g g' : Geometry}

theorem BusRequest.Renamed.precedes {a a' b b' : BusRequest n} (ha : a.Renamed β g g' a')
    (hb : b.Renamed β g g' b') (readPriority : Bool) :
    a.precedes readPriority b = a'.precedes readPriority b' := by
  simp only [BusRequest.precedes, ha.type, hb.type, ha.arrivalTime, hb.arrivalTime, ha.coreId,
    hb.coreId]

theorem minElement_renamed {l l' : List (BusRequest n)}
    (h : List.Forall₂ (BusRequest.Renamed β g g') l l') (readPriority : Bool) :
    Option.Rel (BusRequest.Renamed β g g') (minElement (BusRequest.precedes readPriority) l)
      (minElement (BusRequest.precedes readPriority) l') := by
  cases h with
  | nil => exact .none
  | @cons a a' rest rest' ha hrest =>
    apply Option.Rel.some
    apply List.rel_foldl _ ha hrest
    intro smallest smallest' hsmallest b b' hb
    dsimp only
    rw [hb.precedes hsmallest]
    split
    · exact hb
    · exact hsmallest

end

namespace Simulator

/-- A core waits with one request at a time. -/
def OneRequest (s : Simulator S n) : Prop :=
  ∀ req ∈ s.busQueue, ∀ req' ∈ s.busQueue, req.coreId = req'.coreId → req = req'

theorem TokenInv.oneRequest {s : Simulator S n} (hinv : s.TokenInv) : s.OneRequest :=
  fun _ hreq _ hreq' hcore => hinv.request_eq hreq hreq' hcore.symm

/-- Two simulators that differ in nothing but the names of blocks. -/
structure Renamed (β : BlockRenaming) (g g' : Geometry) (s s' : Simulator S n) : Prop where
  eventQueue : s.eventQueue = s'.eventQueue
  currentTime : s.currentTime = s'.currentTime
  blocked : s.blocked = s'.blocked
  traceExhausted : s.traceExhausted = s'.traceExhausted
  busBusy : s.busBusy = s'.busBusy
  traces : ∀ i, List.Forall₂ (TraceEntry.Renamed β g g') (s.traces i) (s'.traces i)
  busQueue : List.Forall₂ (BusRequest.Renamed β g g') s.busQueue s'.busQueue
  machine : s.machine.Renamed β s'.machine

namespace Renamed
variable {β : BlockRenaming} {g g' : Geometry} {s s' : Simulator S n}

theorem schedule (h : Renamed β g g' s s') (e : Event n) :
    Renamed β g g' (s.schedule e) (s'.schedule e) :=
  { h with eventQueue := congrArg (e :: ·) h.eventQueue }

theorem pop (h : Renamed β g g' s s') (e : Event n) : Renamed β g g' (s.pop e) (s'.pop e) :=
  { h with
    eventQueue := congrArg (List.erase · e) h.eventQueue
    currentTime := rfl }

theorem setMachine (h : Renamed β g g' s s') {m m' : Machine S n} (hm : m.Renamed β m') :
    Renamed β g g' { s with machine := m } { s' with machine := m' } :=
  { h with machine := hm }

theorem enqueue (h : Renamed β g g' s s') (i : Fin n) {req req' : BusRequest n}
    (hreq : req.Renamed β g g' req') :
    Renamed β g g'
      { s with blocked := Function.update s.blocked i true, busQueue := s.busQueue ++ [req] }
      { s' with blocked := Function.update s'.blocked i true, busQueue := s'.busQueue ++ [req'] } :=
  { h with
    blocked := congrArg (Function.update · i true) h.blocked
    busQueue := List.rel_append h.busQueue (.cons hreq .nil) }

theorem isEmpty_busQueue (h : Renamed β g g' s s') : s.busQueue.isEmpty = s'.busQueue.isEmpty := by
  have hqueue := h.busQueue
  generalize s.busQueue = l at hqueue ⊢
  generalize s'.busQueue = l' at hqueue ⊢
  cases hqueue with
  | nil => rfl
  | cons => rfl

theorem finished (h : Renamed β g g' s s') : s.finished = s'.finished := by
  simp only [Simulator.finished, h.traceExhausted, h.blocked, h.busBusy, h.isEmpty_busQueue]

theorem busRelease (h : Renamed β g g' s s') (t : Nat) :
    Renamed β g g' (s.busRelease t) (s'.busRelease t) := by
  have hfree : Renamed β g g' { s with busBusy := false } { s' with busBusy := false } :=
    { h with busBusy := rfl }
  simp only [Simulator.busRelease, h.isEmpty_busQueue]
  split
  · exact hfree
  · exact hfree.schedule _

theorem coreUnblock (h : Renamed β g g' s s') (t : Nat) (i : Fin n) :
    Renamed β g g' (s.coreUnblock t i) (s'.coreUnblock t i) := by
  apply schedule
  exact { h with blocked := congrArg (Function.update · i false) h.blocked }

variable [LineState S] {R : ProtocolRules S} {cfg cfg' : Config}

theorem access (h : Renamed β cfg.geometry cfg'.geometry s s') (i : Fin n)
    {entry entry' : TraceEntry} (hlabel : entry.label = entry'.label)
    (hplace : β.Places cfg.geometry cfg'.geometry entry.val entry'.val) :
    (s.access cfg R i entry).1 = (s'.access cfg' R i entry').1 ∧
      (s.access cfg R i entry).2.Renamed β (s'.access cfg' R i entry').2 := by
  have hwrite : entry.isWrite = entry'.isWrite := by
    rw [TraceEntry.isWrite, TraceEntry.isWrite, hlabel]
  simp only [Simulator.access, hwrite]
  exact handleProcessorRequest_renamed hplace (h.machine.updStats i _) i _

theorem executeEntry (h : Renamed β cfg.geometry cfg'.geometry s s') (t : Nat) (i : Fin n)
    {entry entry' : TraceEntry} (hentry : entry.Renamed β cfg.geometry cfg'.geometry entry') :
    Renamed β cfg.geometry cfg'.geometry (s.executeEntry cfg R t i entry)
      (s'.executeEntry cfg' R t i entry') := by
  by_cases hcompute : entry.label = 2
  · have hcompute' : entry'.label = 2 := by rw [← hentry.label, hcompute]
    simp only [Simulator.executeEntry, hcompute, hcompute', if_true, hentry.cycles hcompute]
    exact (h.setMachine (h.machine.updStats i _)).schedule _
  · have hcompute' : entry'.label ≠ 2 := by rwa [← hentry.label]
    have hplace := hentry.places hcompute
    obtain ⟨hresp, hmachine⟩ := h.access (R := R) i hentry.label hplace
    simp only [Simulator.executeEntry, hcompute, hcompute', if_false, hresp]
    split
    · exact (h.setMachine (hmachine.updStats i _)).schedule _
    · have hmissed := h.setMachine (hmachine.updStats i fun st =>
        { st with cacheMisses := st.cacheMisses + 1 })
      have hqueued := hmissed.enqueue i
        (⟨rfl, rfl, rfl, hplace⟩ : BusRequest.Renamed β cfg.geometry cfg'.geometry
          ⟨i, (s'.access cfg' R i entry').1.busAction, entry.val, t⟩
          ⟨i, (s'.access cfg' R i entry').1.busAction, entry'.val, t⟩)
      by_cases hbusy : s.busBusy = true
      · have hbusy' : s'.busBusy = true := by rwa [← h.busBusy]
        rw [if_pos hbusy, if_pos hbusy']
        exact hqueued
      · have hbusy' : ¬ s'.busBusy = true := by rwa [← h.busBusy]
        rw [if_neg hbusy, if_neg hbusy']
        exact hqueued.schedule _

theorem fetch (h : Renamed β cfg.geometry cfg'.geometry s s') (t : Nat) (i : Fin n) :
    Renamed β cfg.geometry cfg'.geometry (s.fetch cfg R t i) (s'.fetch cfg' R t i) := by
  have htraces := h.traces i
  have hblocked : s.blocked i = s'.blocked i := congrFun h.blocked i
  simp only [Simulator.fetch, hblocked]
  split
  · exact h
  · generalize s.traces i = l at htraces ⊢
    generalize s'.traces i = l' at htraces ⊢
    cases htraces with
    | nil =>
      exact { h with traceExhausted := congrArg (Function.update · i true) h.traceExhausted }
    | @cons entry entry' rest rest' hentry hrest =>
      apply executeEntry _ t i hentry
      refine { h with traces := ?_ }
      intro j
      simp only [Function.update_apply]
      split
      · exact hrest
      · exact h.traces j

variable (hshape : SameShape cfg.geometry cfg'.geometry) (hblind : R.replacement.Blind)
  (hpriority : cfg.readPriority = cfg'.readPriority)
include hshape hblind hpriority

theorem busArbitration (h : Renamed β cfg.geometry cfg'.geometry s s') (hone : s.OneRequest)
    (hone' : s'.OneRequest) (t : Nat) : Option.Rel (Renamed β cfg.geometry cfg'.geometry)
      (s.busArbitration cfg R t) (s'.busArbitration cfg' R t) := by
  have hmin := minElement_renamed h.busQueue cfg.readPriority
  have hmem (req : BusRequest n) (heq : minElement (BusRequest.precedes cfg.readPriority)
      s.busQueue = some req) : req ∈ s.busQueue := minElement_mem heq
  have hmem' (req : BusRequest n) (heq : minElement (BusRequest.precedes cfg.readPriority)
      s'.busQueue = some req) : req ∈ s'.busQueue := minElement_mem heq
  simp only [Simulator.busArbitration, h.busBusy, ← hpriority]
  split
  · exact .some h
  · generalize minElement (BusRequest.precedes cfg.readPriority) s.busQueue = x at hmin hmem ⊢
    generalize minElement (BusRequest.precedes cfg.readPriority) s'.busQueue = y at hmin hmem' ⊢
    cases hmin with
    | none => exact .some h
    | @some req req' hreq =>
      -- both queues lose the request of the same core
      have hqueue : List.Forall₂ (BusRequest.Renamed β cfg.geometry cfg'.geometry)
          (s.busQueue.erase req) (s'.busQueue.erase req') :=
        forall₂_erase (fun _ _ hrel => hrel.coreId) h.busQueue hreq.coreId
          (fun x hx hcore => hone x hx req (hmem req rfl) hcore)
          (fun x hx hcore => hone' x hx req' (hmem' req' rfl) hcore)
      have hgranted : Renamed β cfg.geometry cfg'.geometry
          { s with busQueue := s.busQueue.erase req, busBusy := true }
          { s' with busQueue := s'.busQueue.erase req', busBusy := true } :=
        { h with busQueue := hqueue, busBusy := rfl }
      have hrel := handleBusTransaction_renamed hreq.places hshape hblind h.machine req.coreId
        req.type
      simp only [← hreq.coreId, ← hreq.type]
      generalize handleBusTransaction R cfg.geometry s.machine req.coreId req.type req.addr = x
        at hrel ⊢
      generalize handleBusTransaction R cfg'.geometry s'.machine req.coreId req.type req'.addr = y
        at hrel ⊢
      cases hrel with
      | none => exact .none
      | @some result result' hrel =>
        obtain ⟨latency, machine⟩ := result
        obtain ⟨latency', machine'⟩ := result'
        obtain ⟨hlatency, hmachine⟩ := hrel
        have hdone := (hgranted.setMachine hmachine).schedule (.busRelease (t + latency))
        simp only at hlatency ⊢
        rw [← hlatency]
        split
        · exact .some (hdone.schedule _)
        · exact .some hdone

theorem processNext (h : Renamed β cfg.geometry cfg'.geometry s s') (hone : s.OneRequest)
    (hone' : s'.OneRequest) (e : Event n) : Option.Rel (Renamed β cfg.geometry cfg'.geometry)
      (s.processNext cfg R e) (s'.processNext cfg' R e) := by
  have hpop := h.pop e
  simp only [Simulator.processNext, h.eventQueue]
  split
  · cases e with
    | busRelease t => exact .some (hpop.busRelease t)
    | busArbitration t => exact hpop.busArbitration hshape hblind hpriority hone hone' t
    | coreUnblock t i => exact .some (hpop.coreUnblock t i)
    | fetch t i => exact .some (hpop.fetch t i)
  · exact .none

end Renamed

/-! ### Whole runs -/

theorem Renamed.start {β : BlockRenaming} {g g' : Geometry} {traces traces' : Fin n → List TraceEntry}
    (h : ∀ i, List.Forall₂ (TraceEntry.Renamed β g g') (traces i) (traces' i)) :
    Renamed β g g' (Simulator.start traces : Simulator S n) (Simulator.start traces') where
  eventQueue := rfl
  currentTime := rfl
  blocked := rfl
  traceExhausted := rfl
  busBusy := rfl
  traces := h
  busQueue := .nil
  machine := Machine.renamed_init β

section
variable [LineState S] {R : ProtocolRules S} {cfg cfg' : Config} {β : BlockRenaming}
  {traces traces' : Fin n → List TraceEntry} (hfills : R.MissFills)
  (hshape : SameShape cfg.geometry cfg'.geometry) (hblind : R.replacement.Blind)
  (hpriority : cfg.readPriority = cfg'.readPriority)
  (htraces : ∀ i, List.Forall₂ (TraceEntry.Renamed β cfg.geometry cfg'.geometry) (traces i)
    (traces' i))
include hfills hshape hblind hpriority htraces

theorem renamed_simulates : System.Simulates (system cfg R traces) (system cfg' R traces')
    (Renamed β cfg.geometry cfg'.geometry) where
  start := by
    rintro s rfl
    exact ⟨Simulator.start traces', rfl, Renamed.start htraces⟩
  step := by
    rintro s s' e t hr hr' hrel ⟨hfin, hstep⟩
    have hnext := hrel.processNext hshape hblind hpriority
      (tokenInv_reached hfills hr).oneRequest (tokenInv_reached hfills hr').oneRequest e
    rw [hstep] at hnext
    obtain ⟨t', ht', hrel'⟩ := System.answer hnext
    exact ⟨t', ⟨by rw [← hrel.finished, hfin], ht'⟩, hrel'⟩

theorem renamed_simulates_back : System.Simulates (system cfg' R traces') (system cfg R traces)
    (flip (Renamed β cfg.geometry cfg'.geometry)) where
  start := by
    rintro s' rfl
    exact ⟨Simulator.start traces, rfl, Renamed.start htraces⟩
  step := by
    rintro s' s e t' hr' hr hrel ⟨hfin, hstep⟩
    have hnext := Renamed.processNext hshape hblind hpriority hrel
      (tokenInv_reached hfills hr).oneRequest (tokenInv_reached hfills hr').oneRequest e
    rw [hstep] at hnext
    obtain ⟨t, ht, hrel'⟩ := System.answer_back hnext
    exact ⟨t, ⟨by rw [Renamed.finished hrel, hfin], ht⟩, hrel'⟩

end

/-! ### From the pattern to a renaming -/

/-- The addresses that two groups of traces access at corresponding entries. -/
def accessPairs (traces traces' : Fin n → List TraceEntry) : List (Addr × Addr) :=
  (List.finRange n).flatMap fun i =>
    (((traces i).zip (traces' i)).filter fun p => p.1.label ≠ 2).map fun p => (p.1.val, p.2.val)

/-- The traces differ in their addresses only, and corresponding accesses agree on which of
them are to the same set and which are to the same block. -/
structure SamePattern (g g' : Geometry) (traces traces' : Fin n → List TraceEntry) : Prop where
  entries : ∀ i, List.Forall₂ (fun entry entry' => entry.label = entry'.label ∧
    (entry.label = 2 → entry.val = entry'.val)) (traces i) (traces' i)
  sets : Matches ((accessPairs traces traces').map fun p => (g.setIdx p.1, g'.setIdx p.2))
  blocks : Matches ((accessPairs traces traces').map fun p => (g.block p.1, g'.block p.2))

namespace SamePattern
variable {g g' : Geometry} {traces traces' : Fin n → List TraceEntry}

/-- Within one set the tags match. -/
theorem tags (h : SamePattern g g' traces traces') (k : Nat) :
    Matches (((accessPairs traces traces').filter fun p => g.setIdx p.1 = k).map
      fun p => (g.tag p.1, g'.tag p.2)) := by
  intro p hp q hq
  obtain ⟨a, ha, rfl⟩ := List.mem_map.mp hp
  obtain ⟨b, hb, rfl⟩ := List.mem_map.mp hq
  obtain ⟨ha, hak⟩ := List.mem_filter.mp ha
  obtain ⟨hb, hbk⟩ := List.mem_filter.mp hb
  have hset : g.setIdx a.1 = g.setIdx b.1 :=
    (of_decide_eq_true hak).trans (of_decide_eq_true hbk).symm
  have hset' : g'.setIdx a.2 = g'.setIdx b.2 :=
    (h.sets _ (List.mem_map_of_mem ha) _ (List.mem_map_of_mem hb)).mp hset
  have hblock := h.blocks _ (List.mem_map_of_mem ha) _ (List.mem_map_of_mem hb)
  simpa only [Geometry.block, Block.mk.injEq, hset, hset', true_and] using hblock

theorem exists_blockRenaming (h : SamePattern g g' traces traces') : ∃ β : BlockRenaming,
    (∀ p ∈ accessPairs traces traces', β.Places g g' p.1 p.2) ∧
      ∀ i, List.Forall₂ (TraceEntry.Renamed β g g') (traces i) (traces' i) := by
  obtain ⟨σ, hσ, hsets⟩ := exists_renaming h.sets
  have named (k : Nat) := exists_renaming (h.tags k)
  choose τ hτ htags using named
  have hplaces : ∀ p ∈ accessPairs traces traces',
      (⟨σ, τ, hσ, hτ⟩ : BlockRenaming).Places g g' p.1 p.2 := by
    intro p hp
    refine ⟨(hsets _ (List.mem_map_of_mem hp)).symm, ?_⟩
    have hset : p ∈ (accessPairs traces traces').filter fun q => g.setIdx q.1 = g.setIdx p.1 :=
      List.mem_filter.mpr ⟨hp, decide_eq_true rfl⟩
    exact (htags (g.setIdx p.1) _ (List.mem_map_of_mem hset)).symm
  refine ⟨⟨σ, τ, hσ, hτ⟩, hplaces, ?_⟩
  intro i
  obtain ⟨hlength, hentries⟩ := List.forall₂_iff_zip.mp (h.entries i)
  refine List.forall₂_iff_zip.mpr ⟨hlength, ?_⟩
  intro entry entry' hmem
  obtain ⟨hlabel, hcycles⟩ := hentries hmem
  refine ⟨hlabel, hcycles, ?_⟩
  intro haccess
  apply hplaces (entry.val, entry'.val)
  apply List.mem_flatMap.mpr
  exact ⟨i, List.mem_finRange i,
    List.mem_map.mpr ⟨_, List.mem_filter.mpr ⟨hmem, decide_eq_true haccess⟩, rfl⟩⟩

end SamePattern

/-- What is alike in two simulators whose traces have the same pattern. -/
structure SameOutcome (g g' : Geometry) (traces traces' : Fin n → List TraceEntry)
    (s s' : Simulator S n) : Prop where
  eventQueue : s.eventQueue = s'.eventQueue
  currentTime : s.currentTime = s'.currentTime
  blocked : s.blocked = s'.blocked
  traceExhausted : s.traceExhausted = s'.traceExhausted
  busBusy : s.busBusy = s'.busBusy
  finished : s.finished = s'.finished
  gStats : s.machine.gStats = s'.machine.gStats
  cStats : s.machine.cStats = s'.machine.cStats
  lines : ∀ p ∈ accessPairs traces traces', ∀ i,
    s.machine.lineState i (g.block p.1) = s'.machine.lineState i (g'.block p.2)

theorem Renamed.sameOutcome {β : BlockRenaming} {g g' : Geometry}
    {traces traces' : Fin n → List TraceEntry} {s s' : Simulator S n} (h : Renamed β g g' s s')
    (hplaces : ∀ p ∈ accessPairs traces traces', β.Places g g' p.1 p.2) :
    SameOutcome g g' traces traces' s s' where
  eventQueue := h.eventQueue
  currentTime := h.currentTime
  blocked := h.blocked
  traceExhausted := h.traceExhausted
  busBusy := h.busBusy
  finished := h.finished
  gStats := h.machine.gStats
  cStats := h.machine.cStats
  lines := by
    intro p hp i
    have hline := (h.machine.caches i).line (hplaces p hp)
    change ((s.machine.caches i).line (g.block p.1)).map CacheLine.state =
      ((s'.machine.caches i).line (g'.block p.2)).map CacheLine.state
    generalize (s.machine.caches i).line (g.block p.1) = x at hline ⊢
    generalize (s'.machine.caches i).line (g'.block p.2) = y at hline ⊢
    cases hline with
    | none => rfl
    | some hstate => exact congrArg some hstate

/-- Under each of the five protocols, traces with the same pattern of sets and blocks have
the same runs, event by event. -/
theorem pattern_determines_runs (p : ProtocolName) {cfg cfg' : Config}
    {traces traces' : Fin n → List TraceEntry} (hpriority : cfg.readPriority = cfg'.readPriority)
    (hshape : SameShape cfg.geometry cfg'.geometry)
    (hpat : SamePattern cfg.geometry cfg'.geometry traces traces') :
    (∀ h s, (system cfg p.rules traces).Run h s → ∃ h' s',
        (system cfg' p.rules traces').Run h' s' ∧ h'.map Move.label = h.map Move.label ∧
        List.Forall₂ (SameOutcome cfg.geometry cfg'.geometry traces traces')
          (System.visited h s) (System.visited h' s')) ∧
      ∀ h' s', (system cfg' p.rules traces').Run h' s' → ∃ h s,
        (system cfg p.rules traces).Run h s ∧ h.map Move.label = h'.map Move.label ∧
        List.Forall₂ (SameOutcome cfg.geometry cfg'.geometry traces traces')
          (System.visited h s) (System.visited h' s') := by
  obtain ⟨β, hplaces, htraces⟩ := hpat.exists_blockRenaming
  have forth := renamed_simulates p.missFills hshape p.blind hpriority htraces
  have back := renamed_simulates_back p.missFills hshape p.blind hpriority htraces
  refine ⟨?_, ?_⟩
  · intro h s hr
    obtain ⟨h', s', hr', hlabels, hvisited⟩ := forth.run hr
    exact ⟨h', s', hr', hlabels, hvisited.imp fun _ _ hrel => hrel.sameOutcome hplaces⟩
  · intro h' s' hr'
    obtain ⟨h, s, hr, hlabels, hvisited⟩ := back.run hr'
    refine ⟨h, s, hr, hlabels, ?_⟩
    exact hvisited.flip.imp fun _ _ hrel => Renamed.sameOutcome hrel hplaces

/-- Eight sets in place of one. -/
def eightSets : Config :=
  { tinyConfig with
    geometry := { tinyConfig.geometry with csize := 64, fits := by decide, csize_lt := by decide } }

/-- The store and the load at two bytes of another block. -/
def farAway (i : Fin 2) : List TraceEntry := if i = 0 then [⟨1, 0x1234⟩] else [⟨0, 0x1237⟩]

theorem pattern_determines_runs_farAway :
    ∃ (h' : List (Move (Simulator MESIState 2) (Event 2))) (s' : Simulator MESIState 2),
      (system eightSets (ProtocolName.rules .mesi) farAway).Run h' s' ∧ s'.finished = true ∧
      s'.currentTime = 104 ∧ s'.machine.gStats.busReads = 1 ∧
      s'.machine.lineState 0 (eightSets.geometry.block 0x1234) = some .shared := by
  have hpat : SamePattern tinyConfig.geometry eightSets.geometry storeAndLoad farAway :=
    ⟨by decide, by decide, by decide⟩
  obtain ⟨h, s, hr, ht⟩ := exists_run (S := MESIState) tinyConfig (ProtocolName.rules .mesi)
    storeAndLoad
    [.fetch 0 0, .busArbitration 0, .fetch 0 1, .busRelease 101, .busArbitration 101,
      .coreUnblock 101 0, .fetch 101 0, .busRelease 104, .coreUnblock 104 1, .fetch 104 1]
    (fun _ s => s.finished && s.currentTime == 104 && s.machine.gStats.busReads == 1 &&
      decide (s.machine.lineState 0 (tinyConfig.geometry.block 0) = some MESIState.shared))
    (by decide)
  simp only [Bool.and_eq_true, beq_iff_eq, decide_eq_true_eq] at ht
  obtain ⟨⟨⟨hfin, htime⟩, hreads⟩, hline⟩ := ht
  have hpriority : tinyConfig.readPriority = eightSets.readPriority := rfl
  have hshape : SameShape tinyConfig.geometry eightSets.geometry := ⟨rfl, rfl⟩
  obtain ⟨h', s', hr', -, hvisited⟩ :=
    (pattern_determines_runs .mesi hpriority hshape hpat).1 h s hr
  have hsame : SameOutcome tinyConfig.geometry eightSets.geometry storeAndLoad farAway s s' :=
    (List.forall₂_cons.mp hvisited).1
  refine ⟨h', s', hr', hsame.finished ▸ hfin, hsame.currentTime ▸ htime, ?_, ?_⟩
  · rw [← hsame.gStats, hreads]
  · exact (hsame.lines (0, 0x1234) (by decide) 0).symm.trans hline

end Simulator
end CoherenceFormal
