import CoherenceFormal.LruHits
import CoherenceFormal.SetCapacity
import CoherenceFormal.UpgradeRace

/-!
# Where the copies go

Every copy that a fill brings into a cache is still there, or has been invalidated and
counted in `invalidations_received`, or has been evicted. The only copies that come out of
nowhere are those of upgrades granted after their line has died (`UpgradeRace.lean`).
-/

namespace CoherenceFormal
open LineState Snooping
set_option autoImplicit false

variable {S : Type} [LineState S] {n : Nat}

/-! ### What a transaction counts -/

theorem countInvalidation_received (R : ProtocolRules S) (type : BusTransactionType)
    (m : Machine S n) (i reqId j : Fin n) :
    ((countInvalidation R type m i reqId).cStats j).invalidationsReceived =
      (m.cStats j).invalidationsReceived + if j = i ∧ R.countsReceived type = true then 1 else 0 := by
  have sent (m : Machine S n) : ((m.updStats reqId Statistics.send).cStats j).invalidationsReceived =
      (m.cStats j).invalidationsReceived := by
    by_cases hj : j = reqId <;> simp [Machine.updStats, Statistics.send, hj]
  have received (m : Machine S n) :
      ((m.updStats i Statistics.receive).cStats j).invalidationsReceived =
        (m.cStats j).invalidationsReceived + if j = i then 1 else 0 := by
    by_cases hj : j = i <;> simp [Machine.updStats, Statistics.receive, hj]
  unfold countInvalidation
  cases R.countsReceived type with
  | false => simp
  | true =>
    simp only [if_true, and_true]
    cases R.countsSent with
    | true => exact (sent _).trans (received m)
    | false => exact received m

theorem snoopCore_received (R : ProtocolRules S) (g : Geometry) (reqId : Fin n)
    (type : BusTransactionType) (addr : Addr) (acc : Snooped S n) (i j : Fin n) :
    ((snoopCore R g reqId type addr acc i).machine.cStats j).invalidationsReceived =
      (acc.machine.cStats j).invalidationsReceived +
        if j = i ∧ i ≠ reqId ∧ (acc.machine.caches i).state (g.block addr) ≠ invalid ∧
          R.countsReceived type = true then 1 else 0 := by
  unfold snoopCore Cache.state
  by_cases hi : i = reqId
  · simp [hi]
  · simp only [hi, if_false, Cache.getLine_fst]
    cases (acc.machine.caches i).line (g.block addr) with
    | none => simp [Machine.setCache]
    | some line =>
      by_cases hs : line.state = invalid
      · simp [hs, Machine.setCache]
      · simp only [hs, if_false, countInvalidation_received]
        simp [hi, hs, Machine.setCache]

/-- A snoop that finds a valid copy is counted by the core that has it. -/
theorem snoopAll_received (R : ProtocolRules S) (g : Geometry) (m : Machine S n) (reqId : Fin n)
    (type : BusTransactionType) (addr : Addr) (j : Fin n) :
    ((snoopAll R g m reqId type addr).machine.cStats j).invalidationsReceived =
      (m.cStats j).invalidationsReceived +
        if j ≠ reqId ∧ m.state j (g.block addr) ≠ invalid ∧ R.countsReceived type = true
        then 1 else 0 := by
  have hloop := IndexLoop.get_foldl (snoopCore R g reqId type addr)
    (fun acc i => (acc.machine.caches i, (acc.machine.cStats i).invalidationsReceived))
    (fun i core => (if i = reqId then core.1 else snoopCache R g type addr core.1,
      core.2 + if i ≠ reqId ∧ core.1.state (g.block addr) ≠ invalid ∧ R.countsReceived type = true
        then 1 else 0))
    (fun acc i => by simp [snoopCore_caches, snoopCore_received])
    (fun acc i j hj => by simp [snoopCore_caches, snoopCore_received, hj])
    (List.finRange n) (List.nodup_finRange n) ⟨m, false, false⟩ j
  rw [if_pos (List.mem_finRange j)] at hloop
  exact congrArg Prod.snd hloop

namespace GlobalStatistics

/-- The fills granted so far. -/
def fills (gs : GlobalStatistics) : Nat := gs.busReads + gs.busReadx

end GlobalStatistics

theorem fills_snoopAll (R : ProtocolRules S) (g : Geometry) (m : Machine S n) (r : Fin n)
    (type : BusTransactionType) (addr : Addr) :
    (snoopAll R g m r type addr).machine.gStats.fills = m.gStats.fills := by
  obtain ⟨k, hk⟩ := snoopAll_gStats R g m r type addr
  rw [hk]
  rfl

theorem fills_of_bus {R : ProtocolRules S} {g : Geometry} {m m' : Machine S n} {r : Fin n}
    {type : BusTransactionType} {addr : Addr} {latency : Nat} (ht : type.requestable)
    (h : handleBusTransaction R g m r type addr = some (latency, m')) :
    m'.gStats.fills = m.gStats.fills + if type = .busUpgr then 0 else 1 := by
  rw [← fills_snoopAll R g m r type addr]
  cases busEffect_of_bus h with
  | writeback => exact absurd rfl ht.ne_writeback
  | upgrade => rfl
  | fill hw hu _ =>
    have hone (gs : GlobalStatistics) (supplier : Bool) :
        (countFill R g type supplier gs).fills = gs.fills + 1 := by
      simp only [countFill, GlobalStatistics.fills]
      cases R.countsRead type <;> simp <;> omega
    rw [if_neg hu, ← hone]
    cases m.victimDirty R g r addr <;> rfl

theorem received_of_bus {R : ProtocolRules S} {g : Geometry} {m m' : Machine S n} {r : Fin n}
    {type : BusTransactionType} {addr : Addr} {latency : Nat}
    (h : handleBusTransaction R g m r type addr = some (latency, m')) (j : Fin n) :
    (m'.cStats j).invalidationsReceived = (m.cStats j).invalidationsReceived +
      if j ≠ r ∧ m.state j (g.block addr) ≠ invalid ∧ R.countsReceived type = true
      then 1 else 0 := by
  rw [← snoopAll_received R g m r type addr j]
  cases busEffect_of_bus h with
  | writeback => rfl
  | upgrade => rfl
  | fill => rfl

/-! ### What a protocol does with copies -/

/-- A valid copy dies of another core's transaction of a counted type, in a protocol that
`invalidates`, and of nothing else. -/
structure CopyLaws (R : ProtocolRules S) (invalidates : Bool) : Prop where
  fills : R.MissFills
  write : ∀ st, st ≠ invalid → R.isShared st = false → R.writeHit st ≠ invalid
  upgrade : ∀ shared, R.upgrState shared ≠ invalid
  fill : ∀ type shared, R.fillState type shared ≠ invalid
  dies_iff : ∀ type st, type.requestable → st ≠ invalid →
    (snoopState R type st = invalid ↔ invalidates = true ∧ R.countsReceived type = true)

theorem mesi_copyLaws : CopyLaws mesi true := by
  refine ⟨mesi_missFills, by decide, by decide, by decide, ?_⟩
  rintro type st (rfl | rfl | rfl) <;> revert st <;> decide

theorem smart_copyLaws : CopyLaws smart true :=
  ⟨smart_missFills, mesi_copyLaws.write, mesi_copyLaws.upgrade, mesi_copyLaws.fill,
    mesi_copyLaws.dies_iff⟩

theorem mesif_copyLaws : CopyLaws mesif true := by
  refine ⟨mesif_missFills, by decide, by decide, by decide, ?_⟩
  rintro type st (rfl | rfl | rfl) <;> revert st <;> decide

theorem moesi_copyLaws : CopyLaws moesi true := by
  refine ⟨moesi_missFills, by decide, by decide, by decide, ?_⟩
  rintro type st (rfl | rfl | rfl) <;> revert st <;> decide

theorem dragon_copyLaws : CopyLaws dragon false := by
  refine ⟨dragon_missFills, by decide, by decide, by decide, ?_⟩
  rintro type st (rfl | rfl | rfl) <;> revert st <;> decide

def ProtocolName.invalidates (p : ProtocolName) : Bool := p != .dragon

theorem ProtocolName.copyLaws (p : ProtocolName) : CopyLaws p.rules p.invalidates := by
  cases p with
  | mesi => exact mesi_copyLaws
  | dragon => exact dragon_copyLaws
  | mesif => exact mesif_copyLaws
  | smart => exact smart_copyLaws
  | moesi => exact moesi_copyLaws

theorem snoopState_eq_invalid_iff {R : ProtocolRules S} {invalidates : Bool}
    (laws : CopyLaws R invalidates) {type : BusTransactionType} (ht : type.requestable) (st : S) :
    snoopState R type st = invalid ↔
      st = invalid ∨ invalidates = true ∧ R.countsReceived type = true := by
  by_cases hst : st = invalid
  · simp [hst, snoopState_invalid]
  · simp [hst, laws.dies_iff type st ht hst]

/-! ### The copies of one core -/

/-- The blocks of `U` of which the core has a valid copy. -/
def Machine.held (m : Machine S n) (i : Fin n) (U : Finset Block) : Finset Block :=
  U.filter fun b => m.state i b ≠ invalid

theorem Machine.mem_held {m : Machine S n} {i : Fin n} {U : Finset Block} {b : Block} :
    b ∈ m.held i U ↔ b ∈ U ∧ m.state i b ≠ invalid := by
  simp [held]

theorem UpgradeSpec.state {R : ProtocolRules S} {g : Geometry} {m m' : Machine S n} {r : Fin n}
    {addr : Addr} {latency : Nat} (h : UpgradeSpec R g m r addr latency m') (i : Fin n) (b : Block) :
    m'.state i b = if b = g.block addr
      then if i = r then R.upgrState (m.sharedSignal r b) else snoopState R .busUpgr (m.state i b)
      else m.state i b := by
  have hcopies := congrFun (h.copies b) i
  change m'.state i b = _ at hcopies
  rw [hcopies]
  split <;> rfl

theorem FillSpec.state {R : ProtocolRules S} {g : Geometry} {m m' : Machine S n} {r : Fin n}
    {type : BusTransactionType} {addr : Addr} (h : FillSpec R g m r type addr m') (i : Fin n)
    (b : Block) : m'.state i b = if b = g.block addr
      then if i = r then R.fillState type (m.sharedSignal r b) else snoopState R type (m.state i b)
      else if i = r ∧ m.victim R g r addr = some b then invalid else m.state i b := by
  have hcopies := congrFun (h.copies b) i
  change m'.state i b = _ at hcopies
  rw [hcopies]
  split
  · rfl
  · by_cases hv : m.victim R g r addr = some b
    · by_cases hi : i = r <;> simp [hi, hv, Machine.copies]
    · simp [hv, Machine.copies]

section
variable {R : ProtocolRules S} {invalidates : Bool} (laws : CopyLaws R invalidates)
  {g : Geometry} {m m' : Machine S n} {r : Fin n} {addr : Addr} {U : Finset Block}
include laws

/-- A core that is snooped loses its copy of the block or none. -/
theorem held_snooped {type : BusTransactionType} (ht : type.requestable) {i : Fin n}
    (hstate : ∀ b, m'.state i b = if b = g.block addr then snoopState R type (m.state i b)
      else m.state i b) (hU : ∀ b, m.state i b ≠ invalid → b ∈ U) :
    (m'.held i U).card + (if m.state i (g.block addr) ≠ invalid ∧ invalidates = true ∧
      R.countsReceived type = true then 1 else 0) = (m.held i U).card := by
  by_cases hdies : invalidates = true ∧ R.countsReceived type = true
  · have hheld : m'.held i U = (m.held i U).erase (g.block addr) := by
      ext b
      rw [Finset.mem_erase, Machine.mem_held, Machine.mem_held, hstate]
      by_cases hb : b = g.block addr
      · simp [hb, snoopState_eq_invalid_iff laws ht, hdies]
      · simp [hb]
    rw [hheld]
    by_cases hv : m.state i (g.block addr) ≠ invalid
    · rw [if_pos ⟨hv, hdies⟩]
      exact Finset.card_erase_add_one (Machine.mem_held.mpr ⟨hU _ hv, hv⟩)
    · rw [if_neg fun h => hv h.1, Nat.add_zero,
        Finset.erase_eq_of_notMem fun h => hv (Machine.mem_held.mp h).2]
  · have hheld : m'.held i U = m.held i U := by
      ext b
      rw [Machine.mem_held, Machine.mem_held, hstate]
      split
      · rw [ne_eq, snoopState_eq_invalid_iff laws ht, or_iff_left hdies]
      · rfl
    rw [hheld, if_neg fun h => hdies h.2, Nat.add_zero]

theorem held_upgraded {latency : Nat} (hspec : UpgradeSpec R g m r addr latency m')
    (hblock : g.block addr ∈ U) :
    (m'.held r U).card = (m.held r U).card +
      if m.state r (g.block addr) = invalid then 1 else 0 := by
  have hheld : m'.held r U = insert (g.block addr) (m.held r U) := by
    ext b
    rw [Finset.mem_insert, Machine.mem_held, Machine.mem_held, hspec.state]
    by_cases hb : b = g.block addr
    · simp [hb, hblock, laws.upgrade]
    · simp [hb]
  rw [hheld]
  by_cases hdead : m.state r (g.block addr) = invalid
  · rw [if_pos hdead, Finset.card_insert_of_notMem fun h => (Machine.mem_held.mp h).2 hdead]
  · rw [if_neg hdead, Finset.insert_eq_of_mem (Machine.mem_held.mpr ⟨hblock, hdead⟩), Nat.add_zero]

theorem held_filled {type : BusTransactionType} (hspec : FillSpec R g m r type addr m')
    (hdead : m.state r (g.block addr) = invalid) (hblock : g.block addr ∈ U)
    (hU : ∀ b, m.state r b ≠ invalid → b ∈ U) :
    (m'.held r U).card + (if (m.victim R g r addr).any (fun v => m.state r v ≠ invalid)
      then 1 else 0) = (m.held r U).card + 1 := by
  have habsent : g.block addr ∉ m.held r U := fun h => (Machine.mem_held.mp h).2 hdead
  cases hv : m.victim R g r addr with
  | none =>
    have hheld : m'.held r U = insert (g.block addr) (m.held r U) := by
      ext b
      rw [Finset.mem_insert, Machine.mem_held, Machine.mem_held, hspec.state]
      by_cases hb : b = g.block addr
      · simp [hb, hblock, laws.fill]
      · simp [hb, hv]
    rw [hheld, Finset.card_insert_of_notMem habsent]
    rfl
  | some v =>
    have hheld : m'.held r U = insert (g.block addr) ((m.held r U).erase v) := by
      ext b
      rw [Finset.mem_insert, Finset.mem_erase, Machine.mem_held, Machine.mem_held, hspec.state]
      by_cases hb : b = g.block addr
      · simp [hb, hblock, laws.fill]
      · by_cases hbv : b = v
        · subst hbv
          simp [hb, hv]
        · simp [hb, hv, hbv, Ne.symm hbv]
    have habsent' : g.block addr ∉ (m.held r U).erase v :=
      fun h => habsent (Finset.mem_of_mem_erase h)
    rw [hheld, Finset.card_insert_of_notMem habsent']
    by_cases hvalid : m.state r v ≠ invalid
    · have hcard := Finset.card_erase_add_one (Machine.mem_held.mpr ⟨hU v hvalid, hvalid⟩)
      rw [if_pos (by simpa using hvalid)]
      omega
    · rw [Finset.erase_eq_of_notMem fun h => hvalid (Machine.mem_held.mp h).2,
        if_neg (by simpa using hvalid)]

end
/-! ### Moves that grant nothing -/

/-- What is the same before and after a move without a transaction. -/
structure Machine.Quiet (m m' : Machine S n) : Prop where
  valid : ∀ i b, m'.state i b = invalid ↔ m.state i b = invalid
  present : ∀ i b, (m'.line i b).isSome = (m.line i b).isSome
  received : ∀ i, (m'.cStats i).invalidationsReceived = (m.cStats i).invalidationsReceived
  gStats : m'.gStats = m.gStats

theorem Machine.Quiet.held {m m' : Machine S n} (h : m.Quiet m') (i : Fin n) (U : Finset Block) :
    m'.held i U = m.held i U := by
  ext b
  rw [mem_held, mem_held, ne_eq, ne_eq, h.valid]

namespace Simulator
variable {cfg : Config} {R : ProtocolRules S} {invalidates : Bool} {s s' : Simulator S n}
  {e : Event n}

/-- An access keeps every copy valid that is valid, and makes none valid. -/
theorem access_valid (laws : CopyLaws R invalidates) (j : Fin n) (entry : TraceEntry) (i : Fin n)
    (b : Block) :
    (s.access cfg R j entry).2.state i b = invalid ↔ s.machine.state i b = invalid := by
  have hcopies := congrFun (access_copies cfg R s j entry b) i
  change (s.access cfg R j entry).2.state i b = _ at hcopies
  rw [hcopies]
  by_cases hb : b = cfg.geometry.block entry.val
  · rw [if_pos hb]
    by_cases hi : i = j
    · subst hi
      rw [Function.update_self, afterRequest]
      split
      · rename_i hw
        exact iff_of_false (laws.write _ hw.2.1 hw.2.2) hw.2.1
      · rfl
    · rw [Function.update_of_ne hi]
      rfl
  · rw [if_neg hb]
    rfl

theorem access_quiet (laws : CopyLaws R invalidates) {j : Fin n} {entry : TraceEntry}
    {m' : Machine S n} (hcaches : m'.caches = (s.access cfg R j entry).2.caches)
    (hgstats : m'.gStats = (s.access cfg R j entry).2.gStats) {st : Statistics} {missed : Nat}
    (hcounts : (s.machine.cStats j).Counts st missed)
    (hcstats : m'.cStats = Function.update s.machine.cStats j st) : s.machine.Quiet m' := by
  refine ⟨?_, ?_, ?_, ?_⟩
  · intro i b
    have hstate : m'.state i b = (s.access cfg R j entry).2.state i b := by
      rw [Machine.state, hcaches, Machine.state]
    rw [hstate, access_valid laws]
  · intro i b
    have hline : m'.line i b = (s.access cfg R j entry).2.line i b := by
      rw [Machine.line, hcaches, Machine.line]
    rw [hline, access_line]
    split <;> simp
  · intro i
    rw [hcstats]
    by_cases hi : i = j
    · rw [hi, Function.update_self, hcounts.received]
    · rw [Function.update_of_ne hi]
  · rw [hgstats]
    exact handleProcessorRequest_gStats _ _ _ _ _ _

theorem quiet_fired (laws : CopyLaws R invalidates) (hf : Fired cfg R (s.pop e) e s')
    (hg : grantOf cfg ⟨s, e, s'⟩ = none) : s.machine.Quiet s'.machine := by
  have same {m : Machine S n} : m.Quiet m :=
    ⟨fun _ _ => Iff.rfl, fun _ _ => rfl, fun _ => rfl, rfl⟩
  cases hf with
  | grant free first bus =>
    rw [grantOf_grant _ free first] at hg
    cases hg
  | @compute t i entry rest running read label =>
    refine ⟨fun _ _ => Iff.rfl, fun _ _ => rfl, ?_, rfl⟩
    intro j
    by_cases hj : j = i
    · subst hj
      simp [computed, Machine.updStats]
    · simp [computed, Machine.updStats, hj]
  | @hit t i entry rest running read label resp =>
    have hhit : ((s.pop (.fetch t i)).access cfg R i entry).1.isHit = true := by
      rw [access_response, resp]
    obtain ⟨st, hcounts, hstats⟩ := hit_cStats t i entry rest hhit
    exact access_quiet (s := s.pop (.fetch t i)) laws rfl rfl hcounts hstats
  | @miss t i entry rest running read label resp =>
    rw [← access_response] at resp
    obtain ⟨st, hcounts, hstats⟩ := missed_cStats t i entry rest resp
    exact access_quiet (s := s.pop (.fetch t i)) laws rfl rfl hcounts hstats
  | _ => exact same

/-! ### A core has only blocks of its own trace -/

structure OwnBlocks (cfg : Config) (traces : Fin n → List TraceEntry) (s : Simulator S n) :
    Prop where
  rest : ∀ i, ∀ entry ∈ s.traces i, entry ∈ traces i
  queue : ∀ req ∈ s.busQueue, Accesses cfg traces req.coreId (cfg.geometry.block req.addr)
  lines : ∀ i b, (s.machine.line i b).isSome → Accesses cfg traces i b

/-- What a transaction brings into a cache is the requested block in the requester's. -/
theorem present_of_grant (htok : s.TokenInv) (hf : Fired cfg R (s.pop e) e s')
    {req : BusRequest n} (hg : grantOf cfg ⟨s, e, s'⟩ = some req) {i : Fin n} {b : Block}
    (hline : (s'.machine.line i b).isSome) : (s.machine.line i b).isSome ∨
      req.type ≠ .busUpgr ∧ i = req.coreId ∧ b = cfg.geometry.block req.addr := by
  rcases granted_spec htok hf hg with ⟨-, latency, hspec⟩ | ⟨hfill, hspec⟩
  · rw [hspec.lines] at hline
    split at hline
    · exact .inl (by simpa using hline)
    · exact .inl hline
  · rw [hspec.lines] at hline
    split at hline
    · rename_i hb
      split at hline
      · rename_i hi
        exact .inr ⟨BusTransactionType.ne_busUpgr_of_fill hfill, hi, hb⟩
      · exact .inl (by simpa using hline)
    · split at hline
      · simp at hline
      · exact .inl hline

theorem ownBlocks_fired (laws : CopyLaws R invalidates) {traces : Fin n → List TraceEntry}
    (htok : s.TokenInv) (h : OwnBlocks cfg traces s) (hf : Fired cfg R (s.pop e) e s') :
    OwnBlocks cfg traces s' := by
  refine ⟨?_, ?_, ?_⟩
  · intro i entry hentry
    apply h.rest i
    rw [← (executed_fired hf i).1]
    exact List.mem_append_right _ hentry
  · cases hf with
    | grant free first bus => exact fun req hreq => h.queue req (List.mem_of_mem_erase hreq)
    | @miss t j entry rest running read label resp =>
      intro req hreq
      rcases List.mem_append.mp hreq with hreq | hreq
      · exact h.queue req hreq
      · obtain rfl := List.mem_singleton.mp hreq
        refine ⟨entry, h.rest j entry ?_, label, rfl⟩
        rw [← pop_traces s (.fetch t j), read]
        exact List.mem_cons_self
    | _ => exact h.queue
  · intro i b hline
    cases hg : grantOf cfg ⟨s, e, s'⟩ with
    | none =>
      rw [(quiet_fired laws hf hg).present] at hline
      exact h.lines i b hline
    | some req =>
      rcases present_of_grant htok hf hg hline with hold | ⟨-, rfl, rfl⟩
      · exact h.lines i b hold
      · exact h.queue req (grantOf_mem hg)

theorem ownBlocks_reached (laws : CopyLaws R invalidates) {traces : Fin n → List TraceEntry}
    (hr : (system cfg R traces).Reached s) : OwnBlocks cfg traces s := by
  refine hr.invariant_of (fun s => tokenInv_reached laws.fills) ?_ ?_
  · intro s hs
    subst hs
    refine ⟨fun i entry hentry => hentry, by simp [start], ?_⟩
    intro i b hline
    cases (hline : (none : Option (CacheLine S)).isSome = true)
  · intro s e s' hstep htok hinv
    obtain ⟨-, -, hf⟩ := fired_of_step hstep
    exact ownBlocks_fired laws htok hinv hf

/-! ### The ledger of a run -/

theorem present_of_valid {m : Machine S n} {i : Fin n} {b : Block} (hv : m.state i b ≠ invalid) :
    (m.line i b).isSome := by
  have hline := Machine.lineState_of_valid hv
  rw [Machine.lineState, Option.map_eq_some_iff] at hline
  obtain ⟨line, hline, -⟩ := hline
  rw [hline]
  rfl

/-- The move grants core `i` a fill. -/
def fillsFor (cfg : Config) (i : Fin n) (m : Move (Simulator S n) (Event n)) : Bool :=
  (grantOf cfg m).any fun req => req.coreId == i && req.type != .busUpgr

/-- The move grants core `i` an upgrade of a line that has died. -/
def revives (cfg : Config) (i : Fin n) (m : Move (Simulator S n) (Event n)) : Bool :=
  (grantOf cfg m).any fun req => req.coreId == i && req.type == .busUpgr &&
    m.before.machine.state i (cfg.geometry.block req.addr) = invalid

/-- The move grants core `i` a fill that evicts a valid copy. -/
def evictsCopy (cfg : Config) (R : ProtocolRules S) (i : Fin n)
    (m : Move (Simulator S n) (Event n)) : Bool :=
  (grantOf cfg m).any fun req => req.coreId == i && req.type != .busUpgr &&
    (m.before.machine.victim R cfg.geometry i req.addr).any fun v =>
      m.before.machine.state i v ≠ invalid

/-- The copies that core `i` has lost to transactions of other cores. -/
def lostCopies (invalidates : Bool) (s : Simulator S n) (i : Fin n) : Nat :=
  if invalidates then (s.machine.cStats i).invalidationsReceived else 0

theorem lostCopies_grant {req : BusRequest n} (hf : Fired cfg R (s.pop e) e s')
    (hg : grantOf cfg ⟨s, e, s'⟩ = some req) (invalidates : Bool) (i : Fin n) :
    s'.lostCopies invalidates i = s.lostCopies invalidates i +
      if i ≠ req.coreId ∧ s.machine.state i (cfg.geometry.block req.addr) ≠ invalid ∧
        invalidates = true ∧ R.countsReceived req.type = true then 1 else 0 := by
  obtain ⟨t, latency, machine, rfl, bus, rfl⟩ := granted_of_fired hf hg
  cases invalidates with
  | false => simp [lostCopies]
  | true =>
    simp only [lostCopies, if_true, true_and]
    exact received_of_bus bus i

/-- One move, for one core. -/
theorem copies_fired (laws : CopyLaws R invalidates) {traces : Fin n → List TraceEntry}
    (hr : (system cfg R traces).Reached s) (hf : Fired cfg R (s.pop e) e s') (i : Fin n)
    {U : Finset Block} (hU : ∀ b, Accesses cfg traces i b → b ∈ U) :
    (s'.machine.held i U).card + s'.lostCopies invalidates i +
        (if evictsCopy cfg R i ⟨s, e, s'⟩ then 1 else 0) =
      (s.machine.held i U).card + s.lostCopies invalidates i +
        (if fillsFor cfg i ⟨s, e, s'⟩ then 1 else 0) +
        (if revives cfg i ⟨s, e, s'⟩ then 1 else 0) := by
  have htok := tokenInv_reached laws.fills hr
  have hown := ownBlocks_reached laws hr
  have hvalid (b : Block) (hb : s.machine.state i b ≠ invalid) : b ∈ U := by
    apply hU b
    exact hown.lines i b (present_of_valid hb)
  cases hg : grantOf cfg ⟨s, e, s'⟩ with
  | none =>
    have hquiet := quiet_fired laws hf hg
    have hlost : s'.lostCopies invalidates i = s.lostCopies invalidates i := by
      rw [lostCopies, lostCopies, hquiet.received]
    simp only [evictsCopy, fillsFor, revives, hg, Option.any_none, hquiet.held i U, hlost,
      Bool.false_eq_true, if_false]
  | some req =>
    have hreq := grantOf_mem hg
    have htype := htok.types req hreq
    have hlost := lostCopies_grant hf hg invalidates i
    have hspec := granted_spec htok hf hg
    by_cases hi : i = req.coreId
    · subst hi
      have hblock : cfg.geometry.block req.addr ∈ U := hU _ (hown.queue req hreq)
      rw [if_neg fun h => h.1 rfl] at hlost
      rcases hspec with ⟨hu, latency, hspec⟩ | ⟨hfill, hspec⟩
      · have hheld := held_upgraded laws hspec hblock
        simp only [evictsCopy, fillsFor, revives, hg, Option.any_some, hu, beq_self_eq_true,
          bne_self_eq_false, Bool.and_false, Bool.false_and, Bool.true_and, Bool.false_eq_true,
          if_false, decide_eq_true_eq]
        omega
      · have hu := BusTransactionType.ne_busUpgr_of_fill hfill
        have hdead : s.machine.state req.coreId (cfg.geometry.block req.addr) = invalid :=
          (fillReady_reached laws.fills hr req hreq).resolve_left hu
        have hheld := held_filled laws hspec hdead hblock hvalid
        simp only [evictsCopy, fillsFor, revives, hg, Option.any_some, beq_self_eq_true,
          bne_iff_ne.mpr hu, beq_eq_false_iff_ne.mpr hu, Bool.false_and, Bool.true_and,
          Bool.and_false, Bool.false_eq_true, if_false, if_true]
        omega
    · have hcore : (req.coreId == i) = false := beq_eq_false_iff_ne.mpr (Ne.symm hi)
      have hstate (b : Block) : s'.machine.state i b = if b = cfg.geometry.block req.addr
          then snoopState R req.type (s.machine.state i b) else s.machine.state i b := by
        rcases hspec with ⟨hu, latency, hspec⟩ | ⟨-, hspec⟩
        · rw [hspec.state, if_neg hi, hu]
        · simp [hspec.state, hi]
      have hheld := held_snooped laws htype hstate hvalid
      simp only [ne_eq, hi, not_false_eq_true, true_and] at hlost hheld
      simp only [evictsCopy, fillsFor, revives, hg, Option.any_some, hcore, Bool.false_and,
        Bool.false_eq_true, if_false]
      omega

/-- Every copy that a core has got is still valid, or lost, or evicted. -/
theorem copies_run (laws : CopyLaws R invalidates) {traces : Fin n → List TraceEntry}
    {h : List (Move (Simulator S n) (Event n))} (hr : (system cfg R traces).Run h s) (i : Fin n)
    {U : Finset Block} (hU : ∀ b, Accesses cfg traces i b → b ∈ U) :
    (s.machine.held i U).card + s.lostCopies invalidates i + h.countP (evictsCopy cfg R i) =
      h.countP (fillsFor cfg i) + h.countP (revives cfg i) := by
  induction hr with
  | start hs =>
    subst hs
    have hheld : (start traces : Simulator S n).machine.held i U = ∅ :=
      Finset.filter_eq_empty_iff.mpr fun b _ hv => hv rfl
    have hlost : (start traces : Simulator S n).lostCopies invalidates i = 0 := by
      cases invalidates <;> rfl
    rw [hheld, hlost]
    rfl
  | @next h s s' e hr hs ih =>
    obtain ⟨-, -, hf⟩ := fired_of_step hs
    have hmove := copies_fired laws hr.reached hf i hU
    simp only [List.countP_cons]
    omega

theorem fills_fired (laws : CopyLaws R invalidates) (htok : s.TokenInv)
    (hf : Fired cfg R (s.pop e) e s') : s'.machine.gStats.fills =
      s.machine.gStats.fills + ∑ i, if fillsFor cfg i ⟨s, e, s'⟩ then 1 else 0 := by
  cases hg : grantOf cfg ⟨s, e, s'⟩ with
  | none => simp [(quiet_fired laws hf hg).gStats, fillsFor, hg]
  | some req =>
    have htype := htok.types req (grantOf_mem hg)
    obtain ⟨t, latency, machine, rfl, bus, rfl⟩ := granted_of_fired hf hg
    have hcount := fills_of_bus htype bus
    change machine.gStats.fills = _
    rw [hcount]
    by_cases hu : req.type = .busUpgr <;> simp [fillsFor, hg, hu]

/-- The fills of all cores are what the bus has counted. -/
theorem fills_run (laws : CopyLaws R invalidates) {traces : Fin n → List TraceEntry}
    {h : List (Move (Simulator S n) (Event n))} (hr : (system cfg R traces).Run h s) :
    s.machine.gStats.fills = ∑ i, h.countP (fillsFor cfg i) := by
  induction hr with
  | start hs =>
    subst hs
    simp [start, Machine.init, GlobalStatistics.fills]
  | @next h s s' e hr hs ih =>
    obtain ⟨-, -, hf⟩ := fired_of_step hs
    rw [fills_fired laws (tokenInv_reached laws.fills hr.reached) hf, ih,
      ← Finset.sum_add_distrib]
    simp only [List.countP_cons]

/-- The different blocks that a trace accesses. -/
def touched (cfg : Config) (entries : List TraceEntry) : Finset Block :=
  (traceBlocks cfg entries).toFinset

omit [LineState S] in
theorem mem_touched {traces : Fin n → List TraceEntry} {i : Fin n} {b : Block} :
    b ∈ touched cfg (traces i) ↔ Accesses cfg traces i b := by
  simp [touched, traceBlocks, Accesses, and_assoc]

/-- A core has as many valid copies as it has been granted, by fills and by upgrades of dead
lines, less those invalidated by other cores, as it has counted them, and those evicted. -/
theorem copies_conserved (p : ProtocolName) (cfg : Config) (traces : Fin n → List TraceEntry)
    {h : List (Move (Simulator p.State n) (Event n))} {s : Simulator p.State n}
    (hr : (system cfg p.rules traces).Run h s) :
    (∀ i b, s.machine.state i b ≠ invalid ↔ b ∈ s.machine.held i (touched cfg (traces i))) ∧
      (∀ i, (s.machine.held i (touched cfg (traces i))).card + s.lostCopies p.invalidates i +
          h.countP (evictsCopy cfg p.rules i) =
        h.countP (fillsFor cfg i) + h.countP (revives cfg i)) ∧
      s.machine.gStats.busReads + s.machine.gStats.busReadx =
        ∑ i, h.countP (fillsFor cfg i) := by
  refine ⟨?_, ?_, fills_run p.copyLaws hr⟩
  · intro i b
    rw [Machine.mem_held]
    constructor
    · intro hv
      have hline := (ownBlocks_reached p.copyLaws hr.reached).lines i b (present_of_valid hv)
      exact ⟨mem_touched.mpr hline, hv⟩
    · exact fun hb => hb.2
  · intro i
    exact copies_run p.copyLaws hr i fun b hb => mem_touched.mpr hb

/-- Core 1 has its copy from the upgrade of the line that core 0's upgrade has killed. -/
theorem copies_conserved_racingStores :
    ∃ (h : List (Move (Simulator MESIState 3) (Event 3))) (s : Simulator MESIState 3),
      (system tinyConfig (ProtocolName.rules .mesi) racingStores).Run h s ∧
      h.countP (revives tinyConfig 1) = 1 ∧ (s.machine.cStats 1).invalidationsReceived = 1 ∧
      (s.machine.held 1 (touched tinyConfig (racingStores 1))).card =
        h.countP (fillsFor tinyConfig 1) := by
  obtain ⟨h, s, hr, ht⟩ := exists_run (S := MESIState) tinyConfig (ProtocolName.rules .mesi)
    racingStores
    [.fetch 0 0, .busArbitration 0, .fetch 0 1, .fetch 0 2, .busRelease 101, .busArbitration 101,
      .coreUnblock 101 0, .fetch 101 0, .busRelease 104, .busArbitration 104, .coreUnblock 104 1,
      .fetch 104 1, .busRelease 205, .busArbitration 205, .busRelease 205, .busArbitration 205]
    (fun h s => h.countP (revives tinyConfig 1) == 1 &&
      (s.machine.cStats 1).invalidationsReceived == 1 &&
      h.countP (evictsCopy tinyConfig (ProtocolName.rules .mesi) 1) == 0) (by decide)
  simp only [Bool.and_eq_true, beq_iff_eq] at ht
  obtain ⟨⟨hrevives, hreceived⟩, hevicts⟩ := ht
  refine ⟨h, s, hr, hrevives, hreceived, ?_⟩
  have hcopies : (s.machine.held 1 (touched tinyConfig (racingStores 1))).card +
      (s.machine.cStats 1).invalidationsReceived +
        h.countP (evictsCopy tinyConfig (ProtocolName.rules .mesi) 1) =
      h.countP (fillsFor tinyConfig 1) + h.countP (revives tinyConfig 1) :=
    (copies_conserved .mesi tinyConfig racingStores hr).2.1 1
  omega

end Simulator
end CoherenceFormal
