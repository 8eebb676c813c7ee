import CoherenceFormal.BlockView

/-!
# Upgrades of dead copies

BUS_UPGR is decided at the Fetch and may wait in the queue. If another core's store
to the block is granted first, the waiting core's copy is invalidated, and its
upgrade is later granted all the same: the line turns MODIFIED with no transfer of
the data the other core has written. The handler never re-tests the line.

This is the only way it can happen. Without such an overtaking the copy of every
waiting upgrade stays valid, and every overtaken upgrade is granted on a dead copy.
-/

namespace CoherenceFormal
open LineState
set_option autoImplicit false

variable {S : Type} [LineState S] {n : Nat}

/-- A store's transaction invalidates every other copy, a load's none. -/
structure Invalidating (R : ProtocolRules S) : Prop where
  fills : R.MissFills
  invalidates : ∀ type st, type = .busRdx ∨ type = .busUpgr → snoopState R type st = invalid
  spares : ∀ st, st ≠ invalid → snoopState R .busRd st ≠ invalid

theorem mesi_invalidating : Invalidating mesi := ⟨mesi_missFills, by decide, by decide⟩

theorem smart_invalidating : Invalidating smart :=
  ⟨smart_missFills, mesi_invalidating.invalidates, mesi_invalidating.spares⟩

theorem mesif_invalidating : Invalidating mesif := ⟨mesif_missFills, by decide, by decide⟩

theorem moesi_invalidating : Invalidating moesi := ⟨moesi_missFills, by decide, by decide⟩

theorem ProtocolName.invalidating {p : ProtocolName} (hp : p ≠ .dragon) :
    Invalidating p.rules := by
  cases p with
  | mesi => exact mesi_invalidating
  | dragon => exact absurd rfl hp
  | mesif => exact mesif_invalidating
  | smart => exact smart_invalidating
  | moesi => exact moesi_invalidating

namespace Simulator

/-- The move grants a store's transaction for a block while another core's upgrade
of the same block waits in the queue. -/
def overtakes (cfg : Config) (m : Move (Simulator S n) (Event n)) : Bool :=
  (grantOf cfg m).any fun req => (req.type == .busRdx || req.type == .busUpgr) &&
    m.before.busQueue.any fun waiting => waiting.coreId != req.coreId &&
      waiting.type == .busUpgr &&
      cfg.geometry.block waiting.addr == cfg.geometry.block req.addr

/-- A waiting or granted upgrade whose requester's copy is dead. -/
def IsStale (cfg : Config) (s : Simulator S n) (req : BusRequest n) : Prop :=
  req.type = .busUpgr ∧ s.machine.state req.coreId (cfg.geometry.block req.addr) = invalid

variable {cfg : Config} {R : ProtocolRules S} {s s' : Simulator S n} {e : Event n}

omit [LineState S] in
theorem overtakes_eq_true {m : Move (Simulator S n) (Event n)} :
    overtakes cfg m = true ↔ ∃ req, grantOf cfg m = some req ∧
      (req.type = .busRdx ∨ req.type = .busUpgr) ∧ ∃ waiting ∈ m.before.busQueue,
        waiting.coreId ≠ req.coreId ∧ waiting.type = .busUpgr ∧
          cfg.geometry.block waiting.addr = cfg.geometry.block req.addr := by
  simp only [overtakes, Option.any_eq_true, Bool.and_eq_true, Bool.or_eq_true, beq_iff_eq,
    List.any_eq_true, bne_iff_ne, and_assoc]

/-- While a request waits its line is only snooped. -/
theorem waiting_state (htok : s.TokenInv) (he : e ∈ s.eventQueue)
    (hf : Fired cfg R (s.pop e) e s') {req : BusRequest n} (hreq : req ∈ s.busQueue)
    (hwait : grantOf cfg ⟨s, e, s'⟩ ≠ some req) :
    req ∈ s'.busQueue ∧ s'.machine.state req.coreId (cfg.geometry.block req.addr) =
      match grantFor cfg ⟨s, e, s'⟩ (cfg.geometry.block req.addr) with
      | none => s.machine.state req.coreId (cfg.geometry.block req.addr)
      | some (_, type) => snoopState R type
          (s.machine.state req.coreId (cfg.geometry.block req.addr)) := by
  cases hf with
  | idle h =>
    refine ⟨hreq, ?_⟩
    rw [grantFor, grantOf_idle h]
    rfl
  | @grant t req' latency machine free first bus =>
    have hmem : req' ∈ s.busQueue := minElement_mem first
    have hg := grantOf_grant ((s.pop (.busArbitration t)).granted t req' latency machine) free first
    have hne : req ≠ req' := by
      rintro rfl
      exact hwait hg
    have herase : req ∈ s.busQueue.erase req' := (List.mem_erase_of_ne hne).mpr hreq
    refine ⟨herase, ?_⟩
    have hline := lineState_of_bus (htok.types req' hmem) bus (htok.request_unique hmem herase)
      (cfg.geometry.block req.addr)
    change machine.state req.coreId _ = _
    rw [grantFor, hg, Option.bind_some, Machine.state_eq_lineState, hline, pop_machine]
    by_cases hb : cfg.geometry.block req.addr = cfg.geometry.block req'.addr
    · simp only [if_pos hb, Machine.state_eq_lineState]
      cases s.machine.lineState req.coreId (cfg.geometry.block req.addr) with
      | none => exact (snoopState_invalid R _).symm
      | some st => rfl
    · simp only [if_neg hb, Machine.state_eq_lineState]
  | @hit t i entry rest running read label resp =>
    refine ⟨hreq, ?_⟩
    change (access cfg R (s.pop (.fetch t i)) i entry).2.state req.coreId _ = _
    rw [Machine.state_eq_lineState, access_lineState,
      if_neg fun h => htok.fetch_not_waiting he hreq h.1.symm]
    rfl
  | @miss t i entry rest running read label resp =>
    refine ⟨List.mem_append_left _ hreq, ?_⟩
    rw [Machine.state_eq_lineState, missed_lineState resp]
    rfl
  | _ => exact ⟨hreq, rfl⟩

/-- A queued request has waited since before the event, or is new and not stale. -/
theorem queued_cases (hR : R.MissFills) (htok : s.TokenInv) (hf : Fired cfg R (s.pop e) e s')
    {req : BusRequest n} (hreq : req ∈ s'.busQueue) :
    (req ∈ s.busQueue ∧ grantOf cfg ⟨s, e, s'⟩ ≠ some req) ∨ ¬ s'.IsStale cfg req := by
  cases hf with
  | idle h => exact .inl ⟨hreq, by rw [grantOf_idle h]; simp⟩
  | @grant t req' latency machine free first bus =>
    have hne := htok.request_unique (minElement_mem first) hreq
    refine .inl ⟨List.mem_of_mem_erase hreq, ?_⟩
    rw [grantOf_grant _ free first]
    intro heq
    obtain rfl := Option.some.inj heq
    exact hne rfl
  | @miss t i entry rest running read label resp =>
    rcases List.mem_append.mp hreq with hreq | hreq
    · exact .inl ⟨hreq, by simp [grantOf]⟩
    · right
      obtain rfl := List.mem_singleton.mp hreq
      rintro ⟨htype, hstate⟩
      simp only [Machine.state_eq_lineState, missed_lineState resp] at hstate
      rw [← Machine.state_eq_lineState] at hstate
      simp only [access_response, hstate, respond, if_true] at htype
      rcases hR entry.isWrite with h | h <;> simp [h] at htype
  | _ => exact .inl ⟨hreq, by simp [grantOf]⟩

def NoStale (cfg : Config) (s : Simulator S n) : Prop := ∀ req ∈ s.busQueue, ¬ s.IsStale cfg req

theorem noStale_fired (hR : Invalidating R) (htok : s.TokenInv) (he : e ∈ s.eventQueue)
    (hf : Fired cfg R (s.pop e) e s') (hno : overtakes cfg ⟨s, e, s'⟩ = false)
    (hold : s.NoStale cfg) : s'.NoStale cfg := by
  intro req hreq
  rcases queued_cases hR.fills htok hf hreq with ⟨hmem, hwait⟩ | hnew
  · rintro ⟨htype, hdead⟩
    have hlive : s.machine.state req.coreId (cfg.geometry.block req.addr) ≠ invalid :=
      fun h => hold req hmem ⟨htype, h⟩
    rw [(waiting_state htok he hf hmem hwait).2] at hdead
    cases hfor : grantFor cfg ⟨s, e, s'⟩ (cfg.geometry.block req.addr) with
    | none =>
      rw [hfor] at hdead
      exact hlive hdead
    | some granted =>
      obtain ⟨r, type⟩ := granted
      rw [hfor] at hdead
      obtain ⟨req', hg, hb, hreq'⟩ := grantFor_eq_some hfor
      obtain ⟨rfl, rfl⟩ := hreq'
      have hne : req.coreId ≠ req'.coreId := by
        apply htok.request_unique (grantOf_mem hg)
        apply (List.mem_erase_of_ne _).mpr hmem
        rintro rfl
        exact hwait hg
      have hstore : ¬ (req'.type = .busRdx ∨ req'.type = .busUpgr) := by
        intro hstore
        have hover : overtakes cfg ⟨s, e, s'⟩ = true :=
          overtakes_eq_true.mpr ⟨req', hg, hstore, req, hmem, hne, htype, hb⟩
        rw [hno] at hover
        exact absurd hover (by simp)
      have hread : req'.type = .busRd := by
        rcases htok.types req' (grantOf_mem hg) with h | h | h
        · exact h
        · exact absurd (.inl h) hstore
        · exact absurd (.inr h) hstore
      rw [hread] at hdead
      exact hR.spares _ hlive hdead
  · exact hnew

theorem noStale_run (hR : Invalidating R) {traces : Fin n → List TraceEntry}
    {h : List (Move (Simulator S n) (Event n))} (hr : (system cfg R traces).Run h s)
    (hno : ∀ m ∈ h, overtakes cfg m = false) : ∀ m ∈ h, m.before.NoStale cfg := by
  have hall := hr.invariant_under (C := fun m => overtakes cfg m = false) (J := TokenInv)
    (I := NoStale cfg) (fun s => tokenInv_reached hR.fills) ?_ ?_ hno
  · intro m hm
    exact (hall.2 m hm).1
  · rintro s rfl req hreq
    simp [start] at hreq
  · intro m hstep hno htok hold
    obtain ⟨he, -, hf⟩ := fired_of_step hstep
    exact noStale_fired hR htok he hf hno hold

/-- An overtaken upgrade has been granted on its dead copy, or still waits for it. -/
def StaleGrantedOrWaiting (cfg : Config) (h : List (Move (Simulator S n) (Event n)))
    (s : Simulator S n) : Prop :=
  (∃ m ∈ h, ∃ req, grantOf cfg m = some req ∧ m.before.IsStale cfg req) ∨
    ∃ req ∈ s.busQueue, s.IsStale cfg req

theorem stale_of_overtakes (hR : Invalidating R) (htok : s.TokenInv) (he : e ∈ s.eventQueue)
    (hf : Fired cfg R (s.pop e) e s') (hover : overtakes cfg ⟨s, e, s'⟩ = true) :
    ∃ req ∈ s'.busQueue, s'.IsStale cfg req := by
  obtain ⟨req, hg, hstore, waiting, hmem, hne, htype, hb⟩ := overtakes_eq_true.mp hover
  have hwait : grantOf cfg ⟨s, e, s'⟩ ≠ some waiting := by
    rw [hg]
    intro heq
    obtain rfl := Option.some.inj heq
    exact hne rfl
  obtain ⟨hmem', hstate⟩ := waiting_state htok he hf hmem hwait
  refine ⟨waiting, hmem', htype, ?_⟩
  rw [hstate, grantFor, hg, Option.bind_some, if_pos hb]
  exact hR.invalidates _ _ hstore

theorem staleGrantedOrWaiting_fired {h : List (Move (Simulator S n) (Event n))}
    (htok : s.TokenInv) (he : e ∈ s.eventQueue) (hf : Fired cfg R (s.pop e) e s')
    (hold : StaleGrantedOrWaiting cfg h s) : StaleGrantedOrWaiting cfg (⟨s, e, s'⟩ :: h) s' := by
  rcases hold with ⟨m, hm, hstale⟩ | ⟨req, hmem, hstale⟩
  · exact .inl ⟨m, List.mem_cons_of_mem _ hm, hstale⟩
  · by_cases hg : grantOf cfg ⟨s, e, s'⟩ = some req
    · exact .inl ⟨_, List.mem_cons_self, req, hg, hstale⟩
    · obtain ⟨hmem', hstate⟩ := waiting_state htok he hf hmem hg
      refine .inr ⟨req, hmem', hstale.1, ?_⟩
      rw [hstate, hstale.2]
      split
      · rfl
      · exact snoopState_invalid R _

theorem staleGrantedOrWaiting_run (hR : Invalidating R) {traces : Fin n → List TraceEntry}
    {h : List (Move (Simulator S n) (Event n))} (hr : (system cfg R traces).Run h s)
    (hover : ∃ m ∈ h, overtakes cfg m = true) : StaleGrantedOrWaiting cfg h s := by
  refine System.Run.history (J := TokenInv) (K := fun h s =>
    (∃ m ∈ h, overtakes cfg m = true) → StaleGrantedOrWaiting cfg h s) ?_ ?_ ?_ hr hover
  · intro s hs
    exact tokenInv_reached hR.fills hs
  · rintro s - ⟨m, hm, -⟩
    simp at hm
  · rintro h s e s' hstep htok hold ⟨m, hm, hover⟩
    obtain ⟨he, -, hf⟩ := fired_of_step hstep
    rcases List.mem_cons.mp hm with rfl | hm
    · exact .inr (stale_of_overtakes hR htok he hf hover)
    · exact staleGrantedOrWaiting_fired htok he hf (hold ⟨m, hm, hover⟩)

/-- In a run in which no upgrade is overtaken, every granted upgrade finds its
requester's line valid. In a run that has served every request, also conversely. -/
theorem upgrade_finds_valid_line (p : ProtocolName) (hp : p ≠ .dragon) (cfg : Config)
    (traces : Fin n → List TraceEntry) {h : List (Move (Simulator p.State n) (Event n))}
    {s : Simulator p.State n} (hr : (system cfg p.rules traces).Run h s) :
    ((∀ m ∈ h, overtakes cfg m = false) → ∀ m ∈ h, ∀ req, grantOf cfg m = some req →
      req.type = .busUpgr →
      m.before.machine.state req.coreId (cfg.geometry.block req.addr) ≠ invalid) ∧
    (s.busQueue = [] → (∀ m ∈ h, ∀ req, grantOf cfg m = some req → req.type = .busUpgr →
      m.before.machine.state req.coreId (cfg.geometry.block req.addr) ≠ invalid) →
      ∀ m ∈ h, overtakes cfg m = false) := by
  have hR := ProtocolName.invalidating hp
  constructor
  · intro hno m hm req hg htype hdead
    exact noStale_run hR hr hno m hm req (grantOf_mem hg) ⟨htype, hdead⟩
  · intro hserved hvalid m hm
    by_contra hover
    rcases staleGrantedOrWaiting_run hR hr ⟨m, hm, by simpa using hover⟩ with
      ⟨m', hm', req, hg, htype, hdead⟩ | ⟨req, hreq, -⟩
    · exact hvalid m' hm' req hg htype hdead
    · simp [hserved] at hreq

/-- Core 0 upgrades a block that core 1 shares. -/
theorem upgrade_finds_valid_line_alone :
    ∃ (h : List (Move (Simulator MESIState 2) (Event 2)))
      (m : Move (Simulator MESIState 2) (Event 2)) (req : BusRequest 2),
      (system tinyConfig (ProtocolName.rules .mesi) fun i =>
        if i = 0 then [⟨0, 0⟩, ⟨1, 0⟩] else [⟨0, 0⟩]).Run (m :: h) m.after ∧
      (∀ m' ∈ m :: h, overtakes tinyConfig m' = false) ∧
      grantOf tinyConfig m = some req ∧ req.type = .busUpgr ∧
      m.before.machine.state req.coreId (tinyConfig.geometry.block req.addr) ≠ .invalid := by
  obtain ⟨h, m, hr, ht⟩ := exists_last_move tinyConfig (ProtocolName.rules .mesi)
    (fun i : Fin 2 => if i = 0 then [⟨0, 0⟩, ⟨1, 0⟩] else [⟨0, 0⟩])
    [.fetch 0 0, .busArbitration 0, .fetch 0 1, .busRelease 101, .busArbitration 101,
      .coreUnblock 101 0, .fetch 101 0, .busRelease 104, .busArbitration 104]
    (fun h m => (m :: h).all (fun m => !overtakes tinyConfig m) &&
      (grantOf tinyConfig m).any (·.type == .busUpgr)) (by decide +kernel)
  simp only [Bool.and_eq_true, Option.any_eq_true, beq_iff_eq, List.all_eq_true,
    Bool.not_eq_true'] at ht
  obtain ⟨hno, req, hg, htype⟩ := ht
  exact ⟨h, m, req, hr, hno, hg, htype,
    (upgrade_finds_valid_line .mesi (by decide) _ _ hr).1 hno m List.mem_cons_self req hg htype⟩

/-- Cores 0 and 1 share block 0 and then store to it, while core 2 holds the bus. -/
def racingStores (i : Fin 3) : List TraceEntry :=
  if i = 2 then [⟨0, 4⟩] else [⟨0, 0⟩, ⟨1, 0⟩]

/-- Both upgrades wait behind core 2. The second one is granted to core 1 after the
first has invalidated its line, which turns MODIFIED without a data transfer. -/
theorem upgrade_of_dead_line :
    ∃ (h : List (Move (Simulator MESIState 3) (Event 3)))
      (m : Move (Simulator MESIState 3) (Event 3)) (req : BusRequest 3),
      (system tinyConfig (ProtocolName.rules .mesi) racingStores).Run (m :: h) m.after ∧
      grantOf tinyConfig m = some req ∧ req.type = .busUpgr ∧
      m.before.machine.lineState req.coreId (tinyConfig.geometry.block req.addr) =
        some .invalid ∧
      m.before.machine.lineState 0 (tinyConfig.geometry.block req.addr) = some .modified ∧
      m.after.machine.lineState req.coreId (tinyConfig.geometry.block req.addr) =
        some .modified ∧
      m.after.machine.gStats.totalDataTrafficBytes =
        m.before.machine.gStats.totalDataTrafficBytes := by
  obtain ⟨h, m, hr, ht⟩ := exists_last_move tinyConfig (ProtocolName.rules .mesi) racingStores
    [.fetch 0 0, .busArbitration 0, .fetch 0 1, .fetch 0 2, .busRelease 101, .busArbitration 101,
      .coreUnblock 101 0, .fetch 101 0, .busRelease 104, .busArbitration 104, .coreUnblock 104 1,
      .fetch 104 1, .busRelease 205, .busArbitration 205, .busRelease 205, .busArbitration 205]
    (fun _ m => (grantOf tinyConfig m).any fun req => req.type == .busUpgr &&
      m.before.machine.lineState req.coreId (tinyConfig.geometry.block req.addr) ==
        some .invalid &&
      m.before.machine.lineState 0 (tinyConfig.geometry.block req.addr) == some .modified &&
      m.after.machine.lineState req.coreId (tinyConfig.geometry.block req.addr) ==
        some .modified &&
      m.after.machine.gStats.totalDataTrafficBytes ==
        m.before.machine.gStats.totalDataTrafficBytes) (by decide +kernel)
  simp only [Option.any_eq_true, Bool.and_eq_true, beq_iff_eq, and_assoc] at ht
  obtain ⟨req, hg, hrest⟩ := ht
  exact ⟨h, m, req, hr, hg, hrest⟩

end Simulator
end CoherenceFormal
