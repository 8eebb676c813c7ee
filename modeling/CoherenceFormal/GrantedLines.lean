import CoherenceFormal.RecencyList
import CoherenceFormal.DragonInvariant

/-!
# What a granted transaction finds in its requester's cache

The request was made arbitrarily many transactions before it is granted. An upgrade
still finds the entry it was made for, and a fill still finds no valid line.
-/

namespace CoherenceFormal
open LineState
set_option autoImplicit false

variable {n : Nat}

theorem ProtocolName.invalid_not_dirty (p : ProtocolName) :
    p.rules.isDirty (invalid : p.State) = false := by
  cases p <;> rfl

namespace Simulator
variable {S : Type}

/-- The request for which `handle_bus_transaction` is called when `e` executes. -/
def busCall (cfg : Config) (s : Simulator S n) (e : Event n) : Option (BusRequest n) :=
  grantOf cfg ⟨s, e, s⟩

/-- The requester of BUS_UPGR has an entry for the block when the snooping is over
and `get_line` is dereferenced, and the handler returns. -/
theorem upgrade_finds_entry (p : ProtocolName) (cfg : Config) (traces : Fin n → List TraceEntry)
    {s : Simulator p.State n} (hr : (system cfg p.rules traces).Reached s) {e : Event n}
    {req : BusRequest n} (hcall : busCall cfg s e = some req) (htype : req.type = .busUpgr) :
    ((snoopAll p.rules cfg.geometry s.machine req.coreId req.type req.addr).machine.line
        req.coreId (cfg.geometry.block req.addr)).isSome ∧
      (handleBusTransaction p.rules cfg.geometry s.machine req.coreId req.type
        req.addr).isSome := by
  have hreq : req ∈ s.busQueue := grantOf_mem hcall
  refine ⟨?_, bus_isSome p.missFills hr hreq⟩
  have hknown := waitInv_reached p.missFills (lineKnown_waitLaws p.missFills) hr req hreq
  rw [htype] at hknown
  rw [Machine.line, snoopAll_caches, if_pos rfl]
  simpa [lineKnown, Machine.lineState, Machine.line] using hknown

/-- Core 0 loads a block and stores to it, and core 1 loads it too. -/
def loadThenStore (i : Fin 2) : List TraceEntry := if i = 0 then [⟨0, 0⟩, ⟨1, 0⟩] else [⟨0, 0⟩]

theorem upgrade_finds_entry_queued :
    ∃ (s : Simulator MESIState 2) (e : Event 2) (req : BusRequest 2),
      (system tinyConfig (ProtocolName.rules .mesi) loadThenStore).Reached s ∧
      busCall tinyConfig s e = some req ∧ req.type = .busUpgr ∧
      ((snoopAll mesi tinyConfig.geometry s.machine req.coreId req.type req.addr).machine.line
        req.coreId (tinyConfig.geometry.block req.addr)).isSome := by
  obtain ⟨h, s, hr, ht⟩ := exists_run tinyConfig (ProtocolName.rules .mesi) loadThenStore
    [.fetch 0 0, .busArbitration 0, .fetch 0 1, .busRelease 101, .busArbitration 101,
      .coreUnblock 101 0, .fetch 101 0, .busRelease 104]
    (fun _ s => (busCall tinyConfig s (.busArbitration 104)).any (·.type == .busUpgr))
    (by decide +kernel)
  obtain ⟨req, hcall, htype⟩ := (Option.any_eq_true _ _).mp ht
  have htype : req.type = .busUpgr := beq_iff_eq.mp htype
  exact ⟨s, _, req, hr.reached, hcall, htype,
    (upgrade_finds_entry .mesi tinyConfig loadThenStore hr.reached hcall htype).1⟩

/-- The requester of a fill has no valid line of the block, under Dragon no entry.
If the victim of `allocate` is the requested block itself, nothing is written back. -/
theorem fill_finds_no_copy (p : ProtocolName) (cfg : Config) (traces : Fin n → List TraceEntry)
    {s : Simulator p.State n} (hr : (system cfg p.rules traces).Reached s) {e : Event n}
    {req : BusRequest n} (hcall : busCall cfg s e = some req)
    (htype : req.type = .busRd ∨ req.type = .busRdx) :
    (s.machine.lineState req.coreId (cfg.geometry.block req.addr) = none ∨
      s.machine.lineState req.coreId (cfg.geometry.block req.addr) = some invalid) ∧
    (p = .dragon → s.machine.lineState req.coreId (cfg.geometry.block req.addr) = none) ∧
    (s.machine.victim p.rules cfg.geometry req.coreId req.addr =
        some (cfg.geometry.block req.addr) →
      s.machine.victimDirty p.rules cfg.geometry req.coreId req.addr = false) := by
  have hreq : req ∈ s.busQueue := grantOf_mem hcall
  have hknown : s.machine.lineState req.coreId (cfg.geometry.block req.addr) = none ∨
      s.machine.lineState req.coreId (cfg.geometry.block req.addr) = some invalid := by
    have h := waitInv_reached p.missFills (lineKnown_waitLaws p.missFills) hr req hreq
    rcases htype with ht | ht <;> rw [ht] at h <;> exact h
  refine ⟨hknown, ?_, ?_⟩
  · intro hp
    subst hp
    rcases hknown with h | h
    · exact h
    · exact absurd h (noInvalidLine_reached hr _ _)
  · intro hv
    have hstate : s.machine.state req.coreId (cfg.geometry.block req.addr) = invalid := by
      rw [Machine.state_eq_lineState]
      rcases hknown with h | h <;> rw [h] <;> rfl
    rw [Machine.victimDirty, hv, Option.any_some, hstate]
    exact p.invalid_not_dirty

/-- Core 1 invalidates a block of core 0, which asks for it again, and core 2 loads the other
block of core 0 in the meantime. -/
def refetchedBlock (i : Fin 3) : List TraceEntry :=
  if i.val = 0 then [⟨0, 0⟩, ⟨0, 4⟩, ⟨0, 0⟩]
  else if i.val = 1 then [⟨1, 0⟩, ⟨0, 16⟩]
  else [⟨2, 150⟩, ⟨0, 4⟩]

/-- Core 0 fetches a block whose INVALID entry is still there, and the snoop for core 2 has made
that entry the last of the full set: the victim is the requested block. -/
theorem fill_finds_no_copy_queued :
    ∃ (s : Simulator MESIState 3) (e : Event 3) (req : BusRequest 3),
      (system tinyConfig (ProtocolName.rules .mesi) refetchedBlock).Reached s ∧
      busCall tinyConfig s e = some req ∧ req.type = .busRd ∧
      s.machine.lineState req.coreId (tinyConfig.geometry.block req.addr) = some .invalid ∧
      s.machine.victim mesi tinyConfig.geometry req.coreId req.addr =
        some (tinyConfig.geometry.block req.addr) ∧
      s.machine.victimDirty mesi tinyConfig.geometry req.coreId req.addr = false := by
  obtain ⟨h, s, hr, ht⟩ := exists_run tinyConfig (ProtocolName.rules .mesi) refetchedBlock
    [.fetch 0 0, .busArbitration 0, .fetch 0 1, .fetch 0 2, .busRelease 101, .busArbitration 101,
      .coreUnblock 101 0, .fetch 101 0, .busRelease 104, .busArbitration 104, .coreUnblock 104 1,
      .fetch 104 1, .fetch 150 2, .busRelease 205, .busArbitration 205, .coreUnblock 205 0,
      .fetch 205 0, .busRelease 306, .busArbitration 306, .coreUnblock 306 1, .fetch 306 1,
      .busRelease 309]
    (fun _ s => (busCall tinyConfig s (.busArbitration 309)).any fun req => req.type == .busRd &&
      s.machine.victim mesi tinyConfig.geometry req.coreId req.addr ==
        some (tinyConfig.geometry.block req.addr) &&
      (s.machine.lineState req.coreId (tinyConfig.geometry.block req.addr)).isSome) (by decide)
  obtain ⟨req, hcall, ht⟩ := (Option.any_eq_true _ _).mp ht
  simp only [Bool.and_eq_true, beq_iff_eq] at ht
  obtain ⟨⟨htype, hvictim⟩, hentry⟩ := ht
  obtain ⟨hknown, -, hclean⟩ :=
    fill_finds_no_copy .mesi tinyConfig refetchedBlock hr.reached hcall (.inl htype)
  refine ⟨s, _, req, hr.reached, hcall, htype, ?_, hvictim, hclean hvictim⟩
  exact hknown.resolve_left (Option.isSome_iff_ne_none.mp hentry)

end Simulator
end CoherenceFormal
