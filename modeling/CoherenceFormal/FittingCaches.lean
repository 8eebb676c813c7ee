import CoherenceFormal.CopyLedger
import Mathlib.Algebra.Order.BigOperators.Group.Finset

/-!
# Working sets that fit

A core fills each block that it accesses at least once. Where its blocks of any one set leave
a way free it never evicts anything: then nothing is written back, and the fills are one for
each block and at most one more for each copy that other cores invalidate. A free way is
needed because a dead line keeps its place while its block is filled again
(`InvalidFrames.lean`). In Dragon no line dies, so the blocks may fill their sets, and the
number of fills is the number of blocks in every interleaving.
-/

namespace CoherenceFormal
open LineState FiniteMap
set_option autoImplicit false

variable {S : Type} [LineState S] {n : Nat}

namespace Simulator
variable {cfg : Config} {R : ProtocolRules S} {invalidates : Bool} {s s' : Simulator S n}
  {e : Event n} {traces : Fin n → List TraceEntry}

/-! ### Every block is filled once -/

/-- The block that a move fills for core `i`. -/
def fillOf (cfg : Config) (i : Fin n) (m : Move (Simulator S n) (Event n)) : Option Block :=
  ((grantOf cfg m).filter fun req => req.coreId == i && req.type != .busUpgr).map fun req =>
    cfg.geometry.block req.addr

omit [LineState S] in
theorem countP_fillsFor (cfg : Config) (i : Fin n) (h : List (Move (Simulator S n) (Event n))) :
    h.countP (fillsFor cfg i) = (h.filterMap (fillOf cfg i)).length := by
  rw [List.length_filterMap_eq_countP]
  congr 1
  funext m
  cases hg : grantOf cfg m with
  | none => simp [fillsFor, fillOf, hg]
  | some req => simp [fillsFor, fillOf, hg]

omit [LineState S] in
theorem fillOf_grant {m : Move (Simulator S n) (Event n)} {req : BusRequest n}
    (hg : grantOf cfg m = some req) (hu : req.type ≠ .busUpgr) :
    fillOf cfg req.coreId m = some (cfg.geometry.block req.addr) := by
  simp [fillOf, hg, hu]

/-- What a core has an entry of has been filled, and what it has accessed too, unless it still
waits for the fill. -/
structure FilledInv (cfg : Config) (h : List (Move (Simulator S n) (Event n)))
    (s : Simulator S n) : Prop where
  present : ∀ i b, (s.machine.line i b).isSome → b ∈ h.filterMap (fillOf cfg i)
  accessed : ∀ i, ∀ b ∈ accesses cfg i h, b ∈ h.filterMap (fillOf cfg i) ∨
    ∃ req ∈ s.busQueue, req.coreId = i ∧ req.type ≠ .busUpgr ∧ cfg.geometry.block req.addr = b

omit [LineState S] in
theorem mem_filled_cons {m : Move (Simulator S n) (Event n)}
    {h : List (Move (Simulator S n) (Event n))} {i : Fin n} {b : Block}
    (hb : b ∈ h.filterMap (fillOf cfg i)) : b ∈ (m :: h).filterMap (fillOf cfg i) := by
  obtain ⟨m', hm', hfill⟩ := List.mem_filterMap.mp hb
  exact List.mem_filterMap.mpr ⟨m', List.mem_cons_of_mem m hm', hfill⟩

/-- A new access finds its block in the cache or asks for it to be filled. -/
theorem accessed_new (hR : R.MissFills) (hf : Fired cfg R (s.pop e) e s') {i : Fin n} {b : Block}
    (haccess : accessOf cfg i ⟨s, e, s'⟩ = some b) : (s.machine.line i b).isSome ∨
      ∃ req ∈ s'.busQueue, req.coreId = i ∧ req.type ≠ .busUpgr ∧
        cfg.geometry.block req.addr = b := by
  cases hf with
  | stalled blocked =>
    rw [pop_blocked] at blocked
    rw [accessOf_idle (.inl blocked)] at haccess
    cases haccess
  | exhausted running done =>
    rw [pop_traces] at done
    rw [accessOf_idle (.inr done)] at haccess
    cases haccess
  | compute running read label =>
    rw [pop_traces] at read
    rw [pop_blocked] at running
    rw [accessOf_compute running read label] at haccess
    cases haccess
  | @hit t j entry rest running read label resp =>
    rw [pop_traces] at read
    rw [pop_blocked] at running
    by_cases hij : i = j
    · subst hij
      rw [accessOf_self running read label] at haccess
      obtain rfl := Option.some.inj haccess
      left
      apply present_of_valid
      intro hdead
      rw [pop_machine, hdead] at resp
      simp [respond] at resp
    · rw [accessOf_other hij] at haccess
      cases haccess
  | @miss t j entry rest running read label resp =>
    rw [pop_traces] at read
    rw [pop_blocked] at running
    by_cases hij : i = j
    · subst hij
      rw [accessOf_self running read label] at haccess
      obtain rfl := Option.some.inj haccess
      by_cases hdead : s.machine.state i (cfg.geometry.block entry.val) = invalid
      · right
        refine ⟨_, List.mem_append_right _ (List.mem_singleton_self _), rfl, ?_, rfl⟩
        dsimp only
        rw [access_response, pop_machine, hdead, respond, if_pos rfl]
        rcases hR entry.isWrite with h | h <;> simp [h]
      · exact .inl (present_of_valid hdead)
    · rw [accessOf_other hij] at haccess
      cases haccess
  | _ => cases haccess

theorem filledInv_fired (laws : CopyLaws R invalidates)
    {h : List (Move (Simulator S n) (Event n))} (htok : s.TokenInv) (he : e ∈ s.eventQueue)
    (hold : FilledInv cfg h s) (hf : Fired cfg R (s.pop e) e s') :
    FilledInv cfg (⟨s, e, s'⟩ :: h) s' := by
  refine ⟨?_, ?_⟩
  · intro i b hline
    cases hg : grantOf cfg ⟨s, e, s'⟩ with
    | none =>
      rw [(quiet_fired laws hf hg).present] at hline
      exact mem_filled_cons (hold.present i b hline)
    | some req =>
      rcases present_of_grant htok hf hg hline with hline | ⟨hu, rfl, rfl⟩
      · exact mem_filled_cons (hold.present i b hline)
      · exact List.mem_filterMap.mpr ⟨_, List.mem_cons_self, fillOf_grant hg hu⟩
  · intro i b hb
    have hcases : b ∈ accesses cfg i h ∨ accessOf cfg i ⟨s, e, s'⟩ = some b := by
      obtain ⟨m, hm, haccess⟩ := List.mem_filterMap.mp hb
      rcases List.mem_cons.mp hm with rfl | hm
      · exact .inr haccess
      · exact .inl (List.mem_filterMap.mpr ⟨m, hm, haccess⟩)
    rcases hcases with hb | haccess
    · rcases hold.accessed i b hb with hfilled | ⟨req, hreq, rfl, hu, rfl⟩
      · exact .inl (mem_filled_cons hfilled)
      · by_cases hg : grantOf cfg ⟨s, e, s'⟩ = some req
        · exact .inl (List.mem_filterMap.mpr ⟨_, List.mem_cons_self, fillOf_grant hg hu⟩)
        · exact .inr ⟨req, (waiting_state htok he hf hreq hg).1, rfl, hu, rfl⟩
    · rcases accessed_new laws.fills hf haccess with hline | hwaits
      · exact .inl (mem_filled_cons (hold.present i b hline))
      · exact .inr hwaits

theorem filledInv_run (laws : CopyLaws R invalidates) {traces : Fin n → List TraceEntry}
    {h : List (Move (Simulator S n) (Event n))} (hr : (system cfg R traces).Run h s) :
    FilledInv cfg h s := by
  refine hr.history (fun s => tokenInv_reached laws.fills) ?_ ?_
  · intro s hs
    subst hs
    refine ⟨?_, by simp [accesses]⟩
    intro i b hline
    cases (hline : (none : Option (CacheLine S)).isSome = true)
  · intro h s e s' hstep htok hold
    obtain ⟨he, -, hf⟩ := fired_of_step hstep
    exact filledInv_fired laws htok he hold hf

/-- At the end of a simulation every core has filled each of its blocks. -/
theorem touched_le_fills (laws : CopyLaws R invalidates)
    {h : List (Move (Simulator S n) (Event n))} (hr : (system cfg R traces).Run h s)
    (hend : s.ended = true) (i : Fin n) :
    (touched cfg (traces i)).card ≤ h.countP (fillsFor cfg i) := by
  have hinv := filledInv_run laws hr
  have hqueue : s.busQueue = [] := (idle_of_ended laws.fills hr.reached hend).2.2
  have hsubset : touched cfg (traces i) ⊆ (h.filterMap (fillOf cfg i)).toFinset := by
    intro b hb
    have haccess : b ∈ accesses cfg i h := by
      rw [accesses_eq, executed_of_ended laws.fills hr hend]
      exact List.mem_reverse.mpr (List.mem_toFinset.mp hb)
    rcases hinv.accessed i b haccess with hfilled | ⟨req, hreq, -⟩
    · exact List.mem_toFinset.mpr hfilled
    · rw [hqueue] at hreq
      cases hreq
  rw [countP_fillsFor]
  exact (Finset.card_le_card hsubset).trans (List.toFinset_card_le _)

/-! ### No evictions -/

/-- The blocks that a trace accesses in set `k`. -/
def touchedIn (cfg : Config) (entries : List TraceEntry) (k : Nat) : Finset Block :=
  (touched cfg entries).filter fun b => b.set = k

omit [LineState S] in
/-- The entries of a set are blocks of the core's trace. -/
theorem entries_subset (hown : OwnBlocks cfg traces s) (i : Fin n) (k : Nat) :
    (s.machine.entries i k).image (Block.mk k) ⊆ touchedIn cfg (traces i) k := by
  intro b hb
  obtain ⟨tag, htag, rfl⟩ := Finset.mem_image.mp hb
  have haccess := hown.lines i ⟨k, tag⟩ (Machine.mem_entries.mp htag)
  exact Finset.mem_filter.mpr ⟨mem_touched.mpr haccess, rfl⟩

/-- A fill finds room where its core's blocks leave a way free, or do not exceed the ways and
the block has no entry yet. -/
theorem victim_eq_none (hown : OwnBlocks cfg traces s) {req : BusRequest n}
    (hreq : req ∈ s.busQueue)
    (hfits : (touchedIn cfg (traces req.coreId) (cfg.geometry.setIdx req.addr)).card ≤
      cfg.geometry.assoc)
    (hfree : (touchedIn cfg (traces req.coreId) (cfg.geometry.setIdx req.addr)).card <
        cfg.geometry.assoc ∨
      s.machine.line req.coreId (cfg.geometry.block req.addr) = none) :
    s.machine.victim R cfg.geometry req.coreId req.addr = none := by
  cases hv : s.machine.victim R cfg.geometry req.coreId req.addr with
  | none => rfl
  | some v =>
    have hfull : cfg.geometry.assoc ≤
        (s.machine.entries req.coreId (cfg.geometry.setIdx req.addr)).card :=
      (Machine.victim_entry hv).2.1
    have hsubset := entries_subset hown req.coreId (cfg.geometry.setIdx req.addr)
    have hinjective : Function.Injective (Block.mk (cfg.geometry.setIdx req.addr)) :=
      fun a b hab => (Block.mk.inj hab).2
    have hcard := Finset.card_image_of_injective
      (s.machine.entries req.coreId (cfg.geometry.setIdx req.addr)) hinjective
    rcases hfree with hfree | hnone
    · have hle := Finset.card_le_card hsubset
      omega
    · have hblock : cfg.geometry.block req.addr ∈
          touchedIn cfg (traces req.coreId) (cfg.geometry.setIdx req.addr) :=
        Finset.mem_filter.mpr ⟨mem_touched.mpr (hown.queue req hreq), rfl⟩
      have hnew : cfg.geometry.block req.addr ∉
          (s.machine.entries req.coreId (cfg.geometry.setIdx req.addr)).image
            (Block.mk (cfg.geometry.setIdx req.addr)) := by
        intro hmem
        obtain ⟨tag, htag, heq⟩ := Finset.mem_image.mp hmem
        rw [Machine.mem_entries, heq, hnone] at htag
        cases htag
      have hle := Finset.card_le_card (Finset.insert_subset hblock hsubset)
      rw [Finset.card_insert_of_notMem hnew] at hle
      omega

/-- The blocks of each core leave a way of every set free. In Dragon they may fill it. -/
def Fits (p : ProtocolName) (cfg : Config) (traces : Fin n → List TraceEntry) : Prop :=
  ∀ i, ∀ k < cfg.geometry.numSets, (touchedIn cfg (traces i) k).card +
    (if p.invalidates then 1 else 0) ≤ cfg.geometry.assoc

instance (p : ProtocolName) (cfg : Config) (traces : Fin n → List TraceEntry) :
    Decidable (Fits p cfg traces) :=
  inferInstanceAs (Decidable (∀ i, ∀ k < cfg.geometry.numSets,
    (touchedIn cfg (traces i) k).card + (if p.invalidates then 1 else 0) ≤ cfg.geometry.assoc))

namespace Fits
variable {p : ProtocolName} (hfits : Fits p cfg traces) {s s' : Simulator p.State n} {e : Event n}
include hfits

theorem victim_eq_none (hr : (system cfg p.rules traces).Reached s) {req : BusRequest n}
    (hg : grantOf cfg ⟨s, e, s'⟩ = some req) (hu : req.type ≠ .busUpgr) :
    s.machine.victim p.rules cfg.geometry req.coreId req.addr = none := by
  have hroom := hfits req.coreId (cfg.geometry.setIdx req.addr) (cfg.geometry.setIdx_lt req.addr)
  apply Simulator.victim_eq_none (ownBlocks_reached p.copyLaws hr) (grantOf_mem hg) (by omega)
  by_cases hp : p = .dragon
  · subst hp
    have habsent : FillsAbsent cfg ⟨s, e, s'⟩ := dragon_fillsAbsent hr
    exact .inr (habsent req hg hu)
  · have hinvalidates : p.invalidates = true := by simpa [ProtocolName.invalidates] using hp
    rw [hinvalidates, if_pos rfl] at hroom
    exact .inl hroom

theorem evictsCopy_eq_false (hr : (system cfg p.rules traces).Reached s) (i : Fin n) :
    evictsCopy cfg p.rules i ⟨s, e, s'⟩ = false := by
  cases hg : grantOf cfg ⟨s, e, s'⟩ with
  | none => simp [evictsCopy, hg]
  | some req =>
    by_cases hi : req.coreId = i
    · subst hi
      by_cases hu : req.type = .busUpgr
      · simp [evictsCopy, hg, hu]
      · simp [evictsCopy, hg, hfits.victim_eq_none hr hg hu]
    · simp [evictsCopy, hg, hi]

theorem writebacks_fired (hr : (system cfg p.rules traces).Reached s)
    (hf : Fired cfg p.rules (s.pop e) e s') :
    s'.machine.gStats.busWritebacks = s.machine.gStats.busWritebacks := by
  cases hg : grantOf cfg ⟨s, e, s'⟩ with
  | none => rw [(quiet_fired p.copyLaws hf hg).gStats]
  | some req =>
    rcases granted_spec (tokenInv_reached p.missFills hr) hf hg with
      ⟨-, latency, hspec⟩ | ⟨hfill, hspec⟩
    · exact hspec.writebacks
    · have hnone := hfits.victim_eq_none hr hg (BusTransactionType.ne_busUpgr_of_fill hfill)
      rw [hspec.writebacks, Machine.victimDirty, hnone]
      rfl

theorem quiet_run {h : List (Move (Simulator p.State n) (Event n))}
    (hr : (system cfg p.rules traces).Run h s) : s.machine.gStats.busWritebacks = 0 ∧
      ∀ i, h.countP (evictsCopy cfg p.rules i) = 0 := by
  induction hr with
  | start hs =>
    subst hs
    exact ⟨rfl, fun i => rfl⟩
  | @next h s s' e hr hs ih =>
    obtain ⟨-, -, hf⟩ := fired_of_step hs
    refine ⟨?_, ?_⟩
    · rw [hfits.writebacks_fired hr.reached hf, ih.1]
    · intro i
      rw [List.countP_cons, ih.2 i, hfits.evictsCopy_eq_false hr.reached i]
      rfl

end Fits

theorem sum_lostCopies {p : ProtocolName} {s : Simulator p.State n}
    (hr : (system cfg p.rules traces).Reached s) : ∑ i, s.lostCopies p.invalidates i =
      if p.invalidates then s.machine.gStats.totalInvalidations else 0 := by
  unfold lostCopies
  split
  · exact (ledger_reached p.missFills hr).invalidations.received.symm
  · exact Finset.sum_const_zero

/-- While the working sets fit, nothing is evicted or written back. At the end every core has
filled each of its blocks, and filled a block again only after losing it; so in Dragon the
fills are the blocks. -/
theorem fitting_caches (p : ProtocolName) (cfg : Config) (traces : Fin n → List TraceEntry)
    (hfits : Fits p cfg traces) {h : List (Move (Simulator p.State n) (Event n))}
    {s : Simulator p.State n} (hr : (system cfg p.rules traces).Run h s) :
    s.machine.gStats.busWritebacks = 0 ∧ (∀ i, h.countP (evictsCopy cfg p.rules i) = 0) ∧
      (s.ended = true →
        (∀ i, (touched cfg (traces i)).card ≤ h.countP (fillsFor cfg i) ∧
          h.countP (fillsFor cfg i) ≤
            (touched cfg (traces i)).card + s.lostCopies p.invalidates i) ∧
        ∑ i, (touched cfg (traces i)).card ≤
          s.machine.gStats.busReads + s.machine.gStats.busReadx ∧
        s.machine.gStats.busReads + s.machine.gStats.busReadx ≤
          ∑ i, (touched cfg (traces i)).card +
            if p.invalidates then s.machine.gStats.totalInvalidations else 0) := by
  obtain ⟨hwritebacks, hevicts⟩ := hfits.quiet_run hr
  refine ⟨hwritebacks, hevicts, ?_⟩
  intro hend
  have hlower (i : Fin n) := touched_le_fills p.copyLaws hr hend i
  have hupper (i : Fin n) : h.countP (fillsFor cfg i) ≤
      (touched cfg (traces i)).card + s.lostCopies p.invalidates i := by
    have hcopies := copies_run p.copyLaws hr i fun b hb => mem_touched.mpr hb
    have hheld : (s.machine.held i (touched cfg (traces i))).card ≤
        (touched cfg (traces i)).card := Finset.card_filter_le _ _
    have hnone := hevicts i
    omega
  have hfills : s.machine.gStats.busReads + s.machine.gStats.busReadx =
    ∑ i, h.countP (fillsFor cfg i) := fills_run p.copyLaws hr
  refine ⟨fun i => ⟨hlower i, hupper i⟩, ?_, ?_⟩
  · rw [hfills]
    exact Finset.sum_le_sum fun i _ => hlower i
  · rw [hfills, ← sum_lostCopies hr.reached, ← Finset.sum_add_distrib]
    exact Finset.sum_le_sum fun i _ => hupper i

/-- Core 0 loads a block before and after core 1 stores to it. -/
def loadedTwice (i : Fin 2) : List TraceEntry := if i = 0 then [⟨0, 0⟩, ⟨0, 0⟩] else [⟨1, 0⟩]

theorem fitting_caches_loadedTwice :
    ∃ (h : List (Move (Simulator MESIState 2) (Event 2))) (s : Simulator MESIState 2),
      (system tinyConfig (ProtocolName.rules .mesi) loadedTwice).Run h s ∧ s.ended = true ∧
      s.machine.gStats.busWritebacks = 0 ∧ s.machine.gStats.totalInvalidations = 1 ∧
      2 ≤ s.machine.gStats.busReads + s.machine.gStats.busReadx ∧
      s.machine.gStats.busReads + s.machine.gStats.busReadx ≤ 3 := by
  have hfits : Fits .mesi tinyConfig loadedTwice := by decide
  obtain ⟨h, s, hr, ht⟩ := exists_run tinyConfig (ProtocolName.rules .mesi) loadedTwice
    [.fetch 0 0, .busArbitration 0, .fetch 0 1, .busRelease 101, .busArbitration 101,
      .coreUnblock 101 0, .fetch 101 0, .busRelease 104, .busArbitration 104, .coreUnblock 104 1,
      .fetch 104 1, .busRelease 107, .coreUnblock 107 0, .fetch 107 0]
    (fun _ s => s.ended && s.machine.gStats.totalInvalidations == 1) (by decide)
  simp only [Bool.and_eq_true, beq_iff_eq] at ht
  obtain ⟨hend, hinvalidations⟩ := ht
  obtain ⟨hwritebacks, -, hfills⟩ := fitting_caches .mesi tinyConfig loadedTwice hfits hr
  obtain ⟨-, hlower, hupper⟩ := hfills hend
  rw [hinvalidations] at hupper
  exact ⟨h, s, hr, hend, hwritebacks, hinvalidations, hlower, hupper⟩

end Simulator
end CoherenceFormal
