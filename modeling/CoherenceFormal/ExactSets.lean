import CoherenceFormal.RecencyList
import CoherenceFormal.SetCapacity
import CoherenceFormal.DragonInvariant
import CoherenceFormal.Shared.Recency

/-!
# Sets whose two structures agree

`allocate` never asks whether its tag is already there. As long as no fill finds an
entry of its own block, `lru_order` lists every key of `lines` once and nothing else.
Under Dragon that is always so: a line is never invalidated, and a core that waits for
a fill cannot come by the block in another way.
-/

namespace CoherenceFormal
open LineState FiniteMap Recency
set_option autoImplicit false

variable {S : Type}

/-- The recency list is a list of the keys of `lines`, without duplicates. -/
structure CacheSet.Exact (assoc : Nat) (set : CacheSet S) : Prop where
  nodup : set.lruOrder.Nodup
  mem_iff : ∀ tag, tag ∈ set.lruOrder ↔ tag ∈ set.lines.keys
  size_le : size set.lines ≤ assoc
  tags : ∀ key line, set.lines.lookup key = some line → line.tag = key

theorem CacheSet.find_lruOrder (set : CacheSet S) (tag : Nat) : (set.find tag).2.lruOrder =
    if (set.lines.lookup tag).isSome then touch tag set.lruOrder else set.lruOrder := by
  unfold CacheSet.find
  cases set.lines.lookup tag <;> rfl

namespace CacheSet.Exact
variable {assoc : Nat} {set : CacheSet S}

theorem mem_of_lookup (h : set.Exact assoc) {tag : Nat} (hl : (set.lines.lookup tag).isSome) :
    tag ∈ set.lruOrder :=
  (h.mem_iff tag).mpr (Finmap.mem_keys.mpr (Finmap.lookup_isSome.mp hl))

theorem lookup_of_mem (h : set.Exact assoc) {tag : Nat} (hm : tag ∈ set.lruOrder) :
    (set.lines.lookup tag).isSome :=
  Finmap.lookup_isSome.mpr (Finmap.mem_keys.mp ((h.mem_iff tag).mp hm))

/-- The recency list has as many entries as there are lines. -/
theorem length_eq (h : set.Exact assoc) : set.lruOrder.length = size set.lines := by
  rw [← List.toFinset_card_of_nodup h.nodup, size]
  congr 1
  ext tag
  rw [List.mem_toFinset, h.mem_iff]

theorem empty (assoc : Nat) : (CacheSet.empty : CacheSet S).Exact assoc := by
  refine ⟨.nil, ?_, Nat.zero_le _, ?_⟩
  · intro tag
    simp [CacheSet.empty]
  · intro key line hl
    simp [CacheSet.empty] at hl

theorem find (h : set.Exact assoc) (tag : Nat) : (set.find tag).2.Exact assoc := by
  have hlines := CacheSet.find_lines set tag
  refine ⟨?_, ?_, by rw [hlines]; exact h.size_le, by rw [hlines]; exact h.tags⟩
  · rw [CacheSet.find_lruOrder]
    split
    · exact nodup_touch h.nodup
    · exact h.nodup
  · intro a
    rw [hlines, CacheSet.find_lruOrder, ← h.mem_iff]
    split
    · rename_i hl
      rw [mem_touch]
      constructor
      · intro ha
        rcases ha with rfl | ha
        · exact h.mem_of_lookup hl
        · exact ha
      · exact .inr
    · rfl

theorem setState (h : set.Exact assoc) (tag : Nat) (st : S) : (set.setState tag st).Exact assoc := by
  refine ⟨h.nodup, ?_, ?_, ?_⟩
  · intro a
    rw [CacheSet.setState, keys_modify]
    exact h.mem_iff a
  · rw [CacheSet.setState, size, keys_modify]
    exact h.size_le
  · intro key line hl
    rw [CacheSet.setState, lookup_modify] at hl
    split at hl
    · obtain ⟨line₀, hl₀, rfl⟩ := Option.map_eq_some_iff.mp hl
      exact h.tags key line₀ hl₀
    · exact h.tags key line hl

/-- Taking out an entry of the list together with its line makes room for another one. -/
theorem evict (h : set.Exact assoc) {pos victim : Nat} (hv : set.lruOrder[pos]? = some victim) :
    (CacheSet.mk (set.lruOrder.eraseIdx pos) (set.lines.erase victim)).Exact assoc ∧
      size (set.lines.erase victim) < assoc := by
  obtain ⟨hlt, heq⟩ := List.getElem?_eq_some_iff.mp hv
  have herase : set.lruOrder.eraseIdx pos = set.lruOrder.erase victim := by
    rw [← heq, h.nodup.erase_getElem _ hlt]
  have hkeys : (set.lines.erase victim).keys = set.lines.keys.erase victim := Finmap.keys_erase _ _
  have hmem : victim ∈ set.lines.keys :=
    (h.mem_iff victim).mp (List.mem_of_getElem? hv)
  have hsize : size (set.lines.erase victim) < assoc := by
    have hle := h.size_le
    have hpos := Finset.card_pos.mpr ⟨victim, hmem⟩
    rw [size] at hle
    rw [size, hkeys, Finset.card_erase_of_mem hmem]
    omega
  refine ⟨⟨?_, ?_, Nat.le_of_lt hsize, ?_⟩, hsize⟩
  · exact h.nodup.sublist (List.eraseIdx_sublist _ _)
  · intro a
    rw [herase, h.nodup.mem_erase_iff, hkeys, Finset.mem_erase, h.mem_iff]
  · intro key line hl
    rw [lookup_erase_eq] at hl
    split at hl
    · simp at hl
    · exact h.tags key line hl

variable [LineState S]

/-- A tag that is not there yet is put into a set that has room. -/
theorem install (h : set.Exact assoc) {tag : Nat} (hnew : set.lines.lookup tag = none)
    (hroom : size set.lines < assoc) : (set.install tag).Exact assoc := by
  have hkeys : (set.install tag).lines.keys = insert tag set.lines.keys := by
    ext a
    rw [Finset.mem_insert, Finmap.mem_keys, Finmap.mem_keys, CacheSet.install, Finmap.mem_insert]
  refine ⟨?_, ?_, ?_, ?_⟩
  · apply List.nodup_cons.mpr
    refine ⟨?_, h.nodup⟩
    intro hmem
    have hsome := h.lookup_of_mem hmem
    rw [hnew] at hsome
    simp at hsome
  · intro a
    rw [hkeys, Finset.mem_insert, ← h.mem_iff]
    exact List.mem_cons
  · rw [size, hkeys]
    have hcard := Finset.card_insert_le tag set.lines.keys
    rw [size] at hroom
    omega
  · intro key line hl
    rw [CacheSet.install, lookup_insert_eq] at hl
    split at hl
    · rename_i hkey
      obtain rfl := Option.some.inj hl
      exact hkey.symm
    · exact h.tags key line hl

theorem allocate (h : set.Exact assoc) {r : Replacement S} {tag : Nat}
    (hnew : set.lines.lookup tag = none) {set' : CacheSet S} {evicted : Option (CacheLine S)}
    (ha : r.allocate assoc set tag = some (set', evicted)) : set'.Exact assoc := by
  rw [r.allocate_eq] at ha
  split at ha
  · obtain ⟨victim, hv, heq⟩ := Option.map_eq_some_iff.mp ha
    obtain ⟨rfl, -⟩ := Prod.mk.inj heq
    obtain ⟨hexact, hroom⟩ := h.evict hv
    apply hexact.install _ hroom
    rw [lookup_erase_eq]
    split
    · rfl
    · exact hnew
  · rename_i hroom
    obtain ⟨rfl, -⟩ := Prod.mk.inj (Option.some.inj ha)
    exact h.install hnew (Nat.not_le.mp hroom)

end CacheSet.Exact

def Cache.Exact (assoc : Nat) (cache : Cache S) : Prop := ∀ k, (cache.sets k).Exact assoc

theorem Cache.Exact.setAt {assoc : Nat} {cache : Cache S} (h : cache.Exact assoc)
    {set : CacheSet S} (hset : set.Exact assoc) (k : Nat) : (cache.setAt k set).Exact assoc := by
  intro j
  change (Function.update cache.sets k set j).Exact assoc
  rw [Function.update_apply]
  split
  · exact hset
  · exact h j

variable [LineState S] {n : Nat}

theorem Cache.Exact.allocate {r : Replacement S} {g : Geometry} {cache cache' : Cache S} {addr : Addr}
    {evicted : Option (CacheLine S)} (h : cache.Exact g.assoc)
    (hnew : cache.line (g.block addr) = none)
    (ha : cache.allocate r g addr = some (cache', evicted)) : cache'.Exact g.assoc := by
  obtain ⟨⟨set, ev⟩, hset, heq⟩ := Option.map_eq_some_iff.mp ha
  obtain ⟨rfl, -⟩ := Prod.mk.inj heq
  exact h.setAt ((h _).allocate hnew hset) _

theorem exact_cacheLaws (R : ProtocolRules S) (g : Geometry) :
    CacheLawsWhen R g (Cache.Exact (S := S) g.assoc)
      fun cache addr => cache.line (g.block addr) = none where
  find := fun _ _ h => h.setAt ((h _).find _) _
  write := fun _ _ _ h => h.setAt ((h _).setState _ _) _
  fill := fun _ _ _ _ hnew h ha => h.allocate hnew ha

namespace Simulator
variable {cfg : Config} {R : ProtocolRules S} {traces : Fin n → List TraceEntry}
  {s s' : Simulator S n} {e : Event n}

def ExactSets (cfg : Config) (s : Simulator S n) : Prop :=
  ∀ i, (s.machine.caches i).Exact cfg.geometry.assoc

/-- The move grants no fill to a core that has an entry of the block. -/
def FillsAbsent (cfg : Config) (m : Move (Simulator S n) (Event n)) : Prop :=
  ∀ req, grantOf cfg m = some req → req.type ≠ .busUpgr →
    m.before.machine.line req.coreId (cfg.geometry.block req.addr) = none

omit [LineState S] in
instance (cfg : Config) (m : Move (Simulator S n) (Event n)) : Decidable (FillsAbsent cfg m) :=
  inferInstanceAs (Decidable (∀ req ∈ grantOf cfg m, req.type ≠ .busUpgr →
    m.before.machine.line req.coreId (cfg.geometry.block req.addr) = none))

omit [LineState S] in
theorem exactSets_start (cfg : Config) (traces : Fin n → List TraceEntry) :
    (start traces : Simulator S n).ExactSets cfg := fun _ _ => .empty _

theorem exactSets_fired (hinv : s.ExactSets cfg) (hfills : FillsAbsent cfg ⟨s, e, s'⟩)
    (hf : Fired cfg R (s.pop e) e s') : s'.ExactSets cfg :=
  caches_fired (exact_cacheLaws R cfg.geometry) hinv hfills hf

omit [LineState S] in
theorem ExactSets.withinCapacity (h : s.ExactSets cfg) : s.WithinCapacity cfg :=
  fun i k => (h i k).size_le

/-- No set outgrows its associativity in a run in which no fill finds an entry of its block,
not even an INVALID one. -/
theorem set_capacity_of_absent_fills (p : ProtocolName) (cfg : Config)
    (traces : Fin n → List TraceEntry) {h : List (Move (Simulator p.State n) (Event n))}
    {s : Simulator p.State n} (hr : (system cfg p.rules traces).Run h s)
    (hfills : ∀ m ∈ h, FillsAbsent cfg m) :
    s.WithinCapacity cfg ∧
      ∀ m ∈ h, m.before.WithinCapacity cfg ∧ m.after.WithinCapacity cfg := by
  have hexact : s.ExactSets cfg ∧ ∀ m ∈ h, m.before.ExactSets cfg ∧ m.after.ExactSets cfg := by
    refine hr.invariant_under (C := FillsAbsent cfg) (J := fun _ => True)
      (I := fun s => s.ExactSets cfg) (fun _ _ => trivial) ?_ ?_ hfills
    · intro s hs
      subst hs
      exact exactSets_start cfg traces
    · intro m hstep hm _ hinv
      obtain ⟨-, -, hf⟩ := fired_of_step hstep
      exact exactSets_fired hinv hm hf
  refine ⟨hexact.1.withinCapacity, ?_⟩
  intro m hm
  exact ⟨(hexact.2 m hm).1.withinCapacity, (hexact.2 m hm).2.withinCapacity⟩

/-- Core 1 stores to a block that core 0 has loaded; core 0 goes on to two others. -/
def invalidatedBlock (i : Fin 2) : List TraceEntry :=
  if i = 0 then [⟨0, 0⟩, ⟨0, 4⟩, ⟨0, 8⟩] else [⟨1, 0⟩]

/-- The last fill takes the INVALID entry out of the full set. -/
theorem set_capacity_of_absent_fills_invalidated :
    ∃ (h : List (Move (Simulator MESIState 2) (Event 2))) (s : Simulator MESIState 2),
      (system tinyConfig (ProtocolName.rules .mesi) invalidatedBlock).Run h s ∧
      (∃ m ∈ h, m.before.machine.lineState 0 ⟨0, 0⟩ = some .invalid) ∧
      s.machine.lineState 0 ⟨0, 0⟩ = none ∧ s.WithinCapacity tinyConfig := by
  obtain ⟨h, s, hr, ht⟩ := exists_run tinyConfig (ProtocolName.rules .mesi) invalidatedBlock
    [.fetch 0 0, .busArbitration 0, .fetch 0 1, .busRelease 101, .busArbitration 101,
      .coreUnblock 101 0, .fetch 101 0, .busRelease 104, .busArbitration 104, .coreUnblock 104 1,
      .fetch 104 1, .busRelease 205, .coreUnblock 205 0, .fetch 205 0, .busArbitration 205]
    (fun h (s : Simulator MESIState 2) => decide (∀ m ∈ h, FillsAbsent tinyConfig m) &&
      h.any (fun m => m.before.machine.lineState 0 ⟨0, 0⟩ == some .invalid) &&
      (s.machine.lineState 0 ⟨0, 0⟩).isNone) (by decide +kernel)
  simp only [Bool.and_eq_true, decide_eq_true_eq, List.any_eq_true, beq_iff_eq,
    Option.isNone_iff_eq_none] at ht
  obtain ⟨⟨hfills, hinvalid⟩, hgone⟩ := ht
  exact ⟨h, s, hr, hinvalid, hgone,
    (set_capacity_of_absent_fills .mesi tinyConfig invalidatedBlock hr hfills).1⟩

/-- What a step can take out of a cache is the victim of a fill of that core. -/
theorem line_lost (htok : s.TokenInv) (hf : Fired cfg R (s.pop e) e s') {i : Fin n} {b : Block}
    (hline : (s.machine.line i b).isSome) (hgone : s'.machine.line i b = none) :
    ∃ req, grantOf cfg ⟨s, e, s'⟩ = some req ∧ req.coreId = i ∧ req.type ≠ .busUpgr ∧
      s.machine.victim R cfg.geometry i req.addr = some b := by
  have kept (hsame : (s'.machine.line i b).isSome = (s.machine.line i b).isSome) : False := by
    rw [hgone, hline] at hsame
    simp at hsame
  have accessed (t : Nat) (j : Fin n) (entry : TraceEntry) :
      (((s.pop (.fetch t j)).access cfg R j entry).2.line i b).isSome =
        (s.machine.line i b).isSome := by
    rw [access_line]
    split <;> simp
  cases hf with
  | @grant t req latency machine free first bus =>
    refine ⟨req, grantOf_grant _ free first, ?_⟩
    rcases bus_spec (htok.types req (minElement_mem first)) bus with ⟨-, hspec⟩ | ⟨hfill, hspec⟩
    · refine (kept ?_).elim
      change (machine.line i b).isSome = _
      rw [hspec.lines]
      split <;> simp
    · have hu := BusTransactionType.ne_busUpgr_of_fill hfill
      by_cases hv : i = req.coreId ∧
          s.machine.victim R cfg.geometry req.coreId req.addr = some b
      · obtain ⟨rfl, hv⟩ := hv
        exact ⟨rfl, hu, hv⟩
      · refine (kept ?_).elim
        change (machine.line i b).isSome = _
        rw [hspec.lines]
        by_cases hb : b = cfg.geometry.block req.addr
        · by_cases hi : i = req.coreId
          · rw [if_pos hb, if_pos hi, hline]
            rfl
          · simp [hb, hi]
        · rw [if_neg hb]
          change (if i = req.coreId ∧ s.machine.victim R cfg.geometry req.coreId req.addr = some b
            then none else s.machine.line i b).isSome = _
          rw [if_neg hv]
  | @hit t j entry rest running read label resp => exact (kept (accessed t j entry)).elim
  | @miss t j entry rest running read label resp => exact (kept (accessed t j entry)).elim
  | _ => exact (kept rfl).elim

/-- A core that waits for a fill has no valid line of the block, so where no line is INVALID it
has none at all. -/
theorem fillsAbsent_of_valid (hR : R.MissFills) (hr : (system cfg R traces).Reached s)
    (hvalid : ∀ i b, s.machine.lineState i b ≠ some invalid) : FillsAbsent cfg ⟨s, e, s'⟩ := by
  intro req hg hu
  have hreq := grantOf_mem hg
  have hvalid := hvalid req.coreId (cfg.geometry.block req.addr)
  have hknown := waitInv_reached hR (lineKnown_waitLaws hR) hr req hreq
  have hnone : s.machine.lineState req.coreId (cfg.geometry.block req.addr) = none := by
    rcases (tokenInv_reached hR hr).types req hreq with h | h | h
    · rw [h] at hknown
      exact hknown.resolve_right hvalid
    · rw [h] at hknown
      exact hknown.resolve_right hvalid
    · exact absurd h hu
  exact Option.map_eq_none_iff.mp hnone

/-! ### Dragon -/

theorem dragon_fillsAbsent {s s' : Simulator DragonState n} {e : Event n}
    (hr : (system cfg dragon traces).Reached s) : FillsAbsent cfg ⟨s, e, s'⟩ :=
  fillsAbsent_of_valid dragon_missFills hr (noInvalidLine_reached hr)

theorem dragon_exactSets {s : Simulator DragonState n}
    (hr : (system cfg dragon traces).Reached s) : s.ExactSets cfg := by
  refine System.Reached.invariant_of (J := fun s => (system cfg dragon traces).Reached s)
    (I := fun s => s.ExactSets cfg) (fun _ hs => hs) ?_ ?_ hr
  · intro s hs
    subst hs
    exact exactSets_start cfg traces
  · intro s e s' hstep hreached hinv
    obtain ⟨-, -, hf⟩ := fired_of_step hstep
    exact exactSets_fired hinv (dragon_fillsAbsent hreached) hf

/-- Under Dragon every set of every cache is exact and holds no INVALID line, and a line
leaves a cache only as the victim of a fill of that cache's core. -/
theorem dragon_sets_well_formed (cfg : Config) (traces : Fin n → List TraceEntry)
    {h : List (Move (Simulator DragonState n) (Event n))} {s : Simulator DragonState n}
    (hr : (system cfg dragon traces).Run h s) :
    (∀ i k, ((s.machine.caches i).sets k).Exact cfg.geometry.assoc ∧
      ∀ tag line, ((s.machine.caches i).sets k).lines.lookup tag = some line →
        line.state ≠ .invalid) ∧
    ∀ m ∈ h, ∀ i b, (m.before.machine.line i b).isSome → m.after.machine.line i b = none →
      ∃ req, grantOf cfg m = some req ∧ req.coreId = i ∧ req.type ≠ .busUpgr ∧
        m.before.machine.victim dragon cfg.geometry i req.addr = some b := by
  refine ⟨?_, ?_⟩
  · intro i k
    refine ⟨dragon_exactSets hr.reached i k, ?_⟩
    intro tag line hl hinvalid
    apply noInvalidLine_reached hr.reached i ⟨k, tag⟩
    rw [Machine.lineState, Machine.line, Cache.line, hl, Option.map_some, hinvalid]
  · intro m hm i b hline hgone
    obtain ⟨hreached, hstep⟩ := hr.move hm
    obtain ⟨-, -, hf⟩ := fired_of_step hstep
    exact line_lost (tokenInv_reached dragon_missFills hreached) hf hline hgone

/-- The third of three loads takes the first block out of its two-way set. -/
theorem dragon_sets_well_formed_evicting :
    ∃ (h : List (Move (Simulator DragonState 1) (Event 1))) (s : Simulator DragonState 1),
      (system tinyConfig dragon (fun _ : Fin 1 => [⟨0, 0⟩, ⟨0, 4⟩, ⟨0, 8⟩])).Run h s ∧
      ((s.machine.caches 0).sets 0).lruOrder = [2, 1] ∧
      ((s.machine.caches 0).sets 0).Exact 2 ∧
      ∃ m ∈ h, (m.before.machine.line 0 ⟨0, 0⟩).isSome ∧ m.after.machine.line 0 ⟨0, 0⟩ = none ∧
        ∃ req, grantOf tinyConfig m = some req ∧ req.coreId = 0 := by
  obtain ⟨h, m, hr, ht⟩ := exists_last_move tinyConfig dragon
    (fun _ : Fin 1 => [⟨0, 0⟩, ⟨0, 4⟩, ⟨0, 8⟩])
    [.fetch 0 0, .busArbitration 0, .busRelease 101, .coreUnblock 101 0, .fetch 101 0,
      .busArbitration 101, .busRelease 202, .coreUnblock 202 0, .fetch 202 0, .busArbitration 202]
    (fun _ m => ((m.after.machine.caches 0).sets 0).lruOrder == [2, 1] &&
      (m.before.machine.line 0 ⟨0, 0⟩).isSome && (m.after.machine.line 0 ⟨0, 0⟩).isNone)
    (by decide +kernel)
  rw [Bool.and_eq_true, Bool.and_eq_true] at ht
  obtain ⟨⟨horder, hbefore⟩, hafter⟩ := ht
  have hafter := Option.isNone_iff_eq_none.mp hafter
  obtain ⟨hexact, hlost⟩ := dragon_sets_well_formed tinyConfig _ hr
  obtain ⟨req, hg, hcore, -⟩ := hlost m List.mem_cons_self 0 ⟨0, 0⟩ hbefore hafter
  exact ⟨_, _, hr, beq_iff_eq.mp horder, (hexact 0 0).1, m, List.mem_cons_self, hbefore, hafter,
    req, hg, hcore⟩

end Simulator
end CoherenceFormal
