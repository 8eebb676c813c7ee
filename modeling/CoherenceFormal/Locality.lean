import CoherenceFormal.NoSharing
import CoherenceFormal.GrantedLines
import CoherenceFormal.SetCapacity

/-!
# Locality of the two handlers

A handler works on the block of its address. The one exception is the victim of a
fill, which is in the requester's set for that address, and which has to have a line
to lose one: the recency list may name a tag without a line, and then the line that
`lines[victim]` creates is erased again.
-/

namespace CoherenceFormal
open LineState
set_option autoImplicit false

variable {S : Type} [LineState S] {n : Nat}

/-- Two addresses have the same place in a cache exactly when they are in one block. -/
theorem Geometry.block_eq_iff (g : Geometry) (a b : Addr) :
    g.block a = g.block b ↔ g.blockNumber a = g.blockNumber b := by
  constructor
  · exact g.blockNumber_of_block
  · intro h
    have hset (addr : Addr) : g.setIdx addr = g.blockNumber addr &&& (g.numSets - 1) := rfl
    rw [block, block, tag_eq_shift, tag_eq_shift, hset, hset, h]

/-- A transaction of `r` at `addr` and the lines of the other blocks. It takes out at most
the line of `removed`, and the state of that line decides whether a writeback is charged.
The last branch of the handler is meant for BUS_RD and BUS_RDX; NONE, with which it is
never called, would end there too. -/
structure RemovesOnly (R : ProtocolRules S) (g : Geometry) (m : Machine S n) (r : Fin n)
    (type : BusTransactionType) (addr : Addr) (m' : Machine S n) (removed : Option Block) :
    Prop where
  others : ∀ j b, b ≠ g.block addr →
    m'.line j b = if j = r ∧ removed = some b then none else m.line j b
  victim : ∀ v, removed = some v → (type = .busRd ∨ type = .busRdx ∨ type = .none) ∧
    v.set = g.setIdx addr ∧ (m.line r v).isSome
  charge : type ≠ .writeback → m'.gStats.busWritebacks = m.gStats.busWritebacks +
    if removed.any fun v => R.isDirty (m.state r v) then 1 else 0

theorem FillSpec.removesOnly {R : ProtocolRules S} {g : Geometry} {m m' : Machine S n}
    {r : Fin n} {type : BusTransactionType} {addr : Addr} (hclean : R.isDirty invalid = false)
    (hw : type ≠ .writeback) (hu : type ≠ .busUpgr) (h : FillSpec R g m r type addr m') :
    RemovesOnly R g m r type addr m'
      ((m.victim R g r addr).filter fun v => (m.line r v).isSome) where
  others := by
    intro j b hb
    rw [h.lines, if_neg hb]
    by_cases hj : j = r
    · subst hj
      by_cases hv : m.victim R g j addr = some b
      · cases hl : m.line j b <;> simp [hv, hl, Option.filter_some]
      · simp [hv, Option.filter_eq_some_iff]
    · simp [hj]
  victim := by
    intro v hv
    rw [Option.filter_eq_some_iff] at hv
    refine ⟨?_, (Machine.victim_entry hv.1).1, hv.2⟩
    cases type <;> simp_all
  charge := by
    intro _
    rw [h.writebacks, Machine.victimDirty]
    cases hv : m.victim R g r addr with
    | none => rfl
    | some v =>
      cases hl : m.line r v with
      | none => simp [hl, Machine.state_eq, hclean]
      | some line => simp [hl]

theorem removesOnly_of_bus {R : ProtocolRules S} {g : Geometry} {m m' : Machine S n} {r : Fin n}
    {type : BusTransactionType} {addr : Addr} {latency : Nat} (hclean : R.isDirty invalid = false)
    (h : handleBusTransaction R g m r type addr = some (latency, m')) :
    ∃ removed, RemovesOnly R g m r type addr m' removed := by
  by_cases hw : type = .writeback
  · subst hw
    refine ⟨none, ?_, by simp, fun hw => absurd rfl hw⟩
    intro j b hb
    cases busEffect_of_bus h with
    | fill hw => exact absurd rfl hw
    | writeback =>
      have hline := line_snoopAll R g m r .writeback addr j b
      simpa [hb, Machine.line] using hline
  · by_cases hu : type = .busUpgr
    · subst hu
      have hspec := upgrade_spec h
      refine ⟨none, ?_, by simp, fun _ => hspec.writebacks⟩
      intro j b hb
      rw [hspec.lines, if_neg hb]
      simp
    · exact ⟨_, (fill_spec hw hu h).removesOnly hclean hw hu⟩

/-- A request writes to the block's line in the cache of its core at most, and only if it
hits. -/
theorem line_request_of_ne (R : ProtocolRules S) (g : Geometry) (m : Machine S n) (id : Fin n)
    (addr : Addr) (isWrite : Bool) {j : Fin n} {b : Block}
    (h : ¬ (j = id ∧ b = g.block addr) ∨
      (handleProcessorRequest R g m id addr isWrite).1.isHit = false) :
    (handleProcessorRequest R g m id addr isWrite).2.line j b = m.line j b := by
  rw [line_handleProcessorRequest]
  split
  · rename_i hjb
    obtain ⟨rfl, rfl⟩ := hjb
    have hmiss := h.resolve_left (fun h => h ⟨rfl, rfl⟩)
    rw [handleProcessorRequest_response] at hmiss
    cases hl : m.line j (g.block addr) with
    | none => rfl
    | some line =>
      rw [Machine.state_eq, hl, Option.map_some, Option.getD_some] at hmiss
      rw [Option.map_some, afterRequest_of_miss hmiss]
  · rfl

namespace Simulator

/-- In every reached state, whatever the arguments: a bus transaction changes no line of
another block but the one it removes from the requester's set, and a processor request
changes no line of another block or cache, and none at all unless it hits. -/
theorem handlers_local (p : ProtocolName) (cfg : Config) (traces : Fin n → List TraceEntry)
    {s : Simulator p.State n} (hr : (system cfg p.rules traces).Reached s) (r : Fin n)
    (addr : Addr) :
    (∀ a, cfg.geometry.block a = cfg.geometry.block addr ↔
      cfg.geometry.blockNumber a = cfg.geometry.blockNumber addr) ∧
    (∀ type, (type = .busUpgr ∧ s.machine.line r (cfg.geometry.block addr) = none) ∨
      ∃ latency m' removed,
        handleBusTransaction p.rules cfg.geometry s.machine r type addr = some (latency, m') ∧
        RemovesOnly p.rules cfg.geometry s.machine r type addr m' removed) ∧
    ∀ isWrite,
      (∀ j b, ¬ (j = r ∧ b = cfg.geometry.block addr) →
        (handleProcessorRequest p.rules cfg.geometry s.machine r addr isWrite).2.line j b =
          s.machine.line j b) ∧
      ((handleProcessorRequest p.rules cfg.geometry s.machine r addr isWrite).1.isHit = false →
        ∀ j b, (handleProcessorRequest p.rules cfg.geometry s.machine r addr isWrite).2.line j b =
          s.machine.line j b) := by
  refine ⟨fun a => cfg.geometry.block_eq_iff a addr, ?_, ?_⟩
  · intro type
    by_cases hmissing : type = .busUpgr ∧ s.machine.line r (cfg.geometry.block addr) = none
    · exact .inl hmissing
    · right
      have hsome : (handleBusTransaction p.rules cfg.geometry s.machine r type addr).isSome := by
        apply handleBusTransaction_isSome p.rules cfg.geometry (listed_reached hr)
        intro htype
        rw [Option.isSome_iff_ne_none]
        intro hnone
        exact hmissing ⟨htype, hnone⟩
      obtain ⟨⟨latency, m'⟩, hbus⟩ := Option.isSome_iff_exists.mp hsome
      obtain ⟨removed, hremoves⟩ := removesOnly_of_bus p.invalid_not_dirty hbus
      exact ⟨latency, m', removed, hbus, hremoves⟩
  · intro isWrite
    refine ⟨?_, ?_⟩
    · intro j b hne
      exact line_request_of_ne _ _ _ _ _ _ (.inl hne)
    · intro hmiss j b
      exact line_request_of_ne _ _ _ _ _ _ (.inr hmiss)

/-- A core stores to one block and loads another. -/
def twoBlocks (_ : Fin 1) : List TraceEntry := [⟨1, 0⟩, ⟨0, 4⟩]

/-- A full set with a MODIFIED line: the transaction of a third block removes that line. -/
theorem handlers_local_full_set : ∃ (s : Simulator MESIState 1) (latency : Nat)
    (m' : Machine MESIState 1) (removed : Option Block),
      (system tinyConfig (ProtocolName.rules .mesi) twoBlocks).Reached s ∧
      handleBusTransaction mesi tinyConfig.geometry s.machine 0 .busRd 8 = some (latency, m') ∧
      RemovesOnly mesi tinyConfig.geometry s.machine 0 .busRd 8 m' removed ∧
      s.machine.state 0 ⟨0, 0⟩ = .modified ∧ m'.line 0 ⟨0, 0⟩ = none ∧
      m'.gStats.busWritebacks = 1 := by
  obtain ⟨h, s, hr, ht⟩ := exists_run tinyConfig (ProtocolName.rules .mesi) twoBlocks
    [.fetch 0 0, .busArbitration 0, .busRelease 101, .coreUnblock 101 0, .fetch 101 0,
      .busArbitration 101]
    (fun _ (s : Simulator MESIState 1) => s.machine.state 0 ⟨0, 0⟩ == .modified &&
      (handleBusTransaction mesi tinyConfig.geometry s.machine 0 .busRd 8).all fun result =>
        (result.2.line 0 ⟨0, 0⟩).isNone && result.2.gStats.busWritebacks == 1)
    (by decide +kernel)
  obtain ⟨hline, hresult⟩ := Bool.and_eq_true_iff.mp ht
  obtain ⟨-, hbus, -⟩ := handlers_local .mesi tinyConfig twoBlocks hr.reached 0 8
  rcases hbus .busRd with ⟨htype, -⟩ | ⟨latency, m', removed, hbus, hremoves⟩
  · cases htype
  · change handleBusTransaction mesi _ _ _ _ _ = _ at hbus
    rw [hbus] at hresult
    obtain ⟨hgone, hcharged⟩ := Bool.and_eq_true_iff.mp hresult
    exact ⟨s, latency, m', removed, hr.reached, hbus, hremoves, beq_iff_eq.mp hline,
      Option.isNone_iff_eq_none.mp hgone, beq_iff_eq.mp hcharged⟩

end Simulator
end CoherenceFormal
