import CoherenceFormal.WaitingRequests
import CoherenceFormal.Shared.MaskShift
import Mathlib.Data.List.Lemmas

/-!
# Traces without sharing

If no block is accessed by two cores, a core's cache only ever holds blocks of its own
trace, so a snoop never finds a line: the snooping loop changes nothing, the shared
signal stays low, and every line is EXCLUSIVE or MODIFIED.
-/

namespace CoherenceFormal
open LineState MaskShift
set_option autoImplicit false

/-! ### A block number determines the place of a block, and the other way round -/

theorem trailingZeros_ctzFrom (fuel : Nat) {x : Nat} (hpos : 0 < x) (hlt : x < 2 ^ fuel) :
    TrailingZeros (ctzFrom fuel x) x := by
  induction fuel generalizing x with
  | zero =>
    rw [pow_zero] at hlt
    omega
  | succ fuel ih =>
    rw [pow_succ] at hlt
    rw [ctzFrom]
    split
    · rename_i hodd
      exact .of_odd hodd
    · rename_i heven
      have hhalf := ih (x := x / 2) (by omega) (by omega)
      have hdouble : x / 2 * 2 = x := by omega
      rw [← hdouble, Nat.mul_div_cancel _ (by decide)]
      exact hhalf.double

namespace Geometry
variable (g : Geometry)

theorem trailingZeros_setBits : TrailingZeros g.setBits g.numSets := by
  have hle : g.numSets ≤ g.csize := Nat.div_le_self _ _
  have hlt := g.csize_lt
  exact trailingZeros_ctzFrom 32 g.numSets_pos (by omega)

/-- `addr >> offset_bits`. -/
def blockNumber (addr : Addr) : Nat := addr.toNat >>> g.offsetBits

theorem tag_eq_shift (addr : Addr) : g.tag addr = g.blockNumber addr >>> g.setBits := by
  rw [tag, blockNumber, Nat.shiftRight_add]

theorem blockNumber_of_block {a b : Addr} (h : g.block a = g.block b) :
    g.blockNumber a = g.blockNumber b := by
  obtain ⟨hset, htag⟩ := Block.mk.inj h
  rw [tag_eq_shift, tag_eq_shift] at htag
  exact eq_of_mask_of_shift g.numSets_pos g.trailingZeros_setBits.dvd hset htag

end Geometry

variable {S : Type} {n : Nat}

/-- Core `i` accesses the block: one of its entries is a load or a store of it. -/
def Accesses (cfg : Config) (traces : Fin n → List TraceEntry) (i : Fin n) (b : Block) : Prop :=
  ∃ entry ∈ traces i, entry.label ≠ 2 ∧ cfg.geometry.block entry.val = b

/-- No block is accessed by two different cores. -/
def NoSharing (cfg : Config) (traces : Fin n → List TraceEntry) : Prop :=
  ∀ i j, i ≠ j → ∀ a ∈ traces i, ∀ b ∈ traces j, a.label ≠ 2 → b.label ≠ 2 →
    cfg.geometry.blockNumber a.val ≠ cfg.geometry.blockNumber b.val

theorem NoSharing.accesses_unique {cfg : Config} {traces : Fin n → List TraceEntry}
    (h : NoSharing cfg traces) {i j : Fin n} {b : Block} (hi : Accesses cfg traces i b)
    (hj : Accesses cfg traces j b) : i = j := by
  by_contra hij
  obtain ⟨a, ha, halabel, hab⟩ := hi
  obtain ⟨c, hc, hclabel, hcb⟩ := hj
  exact h i j hij a ha c hc halabel hclabel
    (cfg.geometry.blockNumber_of_block (hab.trans hcb.symm))

/-! ### A snoop that finds nothing -/

theorem Cache.getLine_of_none {cache : Cache S} {g : Geometry} {addr : Addr}
    (h : cache.line (g.block addr) = none) : cache.getLine g addr = (none, cache) := by
  have hfind : (cache.sets (g.setIdx addr)).find (g.tag addr) =
      (none, cache.sets (g.setIdx addr)) := by
    unfold CacheSet.find
    change (cache.sets (g.setIdx addr)).lines.lookup (g.tag addr) = none at h
    rw [h]
  rw [Cache.getLine, hfind]
  simp [Cache.setAt]

/-- No other core has an entry of the block. -/
def Machine.Sole (m : Machine S n) (r : Fin n) (b : Block) : Prop :=
  ∀ j, j ≠ r → m.lineState j b = none

variable [LineState S]

theorem Machine.Sole.sharedSignal {m : Machine S n} {r : Fin n} {b : Block} (h : m.Sole r b) :
    m.sharedSignal r b = false := by
  apply List.any_eq_false.mpr
  intro j _
  by_cases hj : j = r
  · simp [hj]
  · simp [Machine.state_eq_lineState, h j hj]

theorem Machine.Sole.snoopAll {m : Machine S n} {r : Fin n} {g : Geometry} {addr : Addr}
    (h : m.Sole r (g.block addr)) (R : ProtocolRules S) (type : BusTransactionType) :
    snoopAll R g m r type addr = ⟨m, false, false⟩ := by
  have body (i : Fin n) : snoopCore R g r type addr ⟨m, false, false⟩ i = ⟨m, false, false⟩ := by
    unfold snoopCore
    split
    · rfl
    · rename_i hi
      have hline : (m.caches i).line (g.block addr) = none := Option.map_eq_none_iff.mp (h i hi)
      rw [Cache.getLine_of_none hline]
      simp [Machine.setCache]
  exact List.foldl_fixed' body _

/-! ### What the caches of such a run hold -/

/-- The states that a core reaches on its own. -/
structure SoleLaws (R : ProtocolRules S) (good : S → Prop) : Prop where
  write : ∀ st, good (R.writeHit st)
  upgrade : good (R.upgrState false)
  fill : ∀ type, good (R.fillState type false)

namespace Simulator

/-- A core reads, requests and holds only blocks of its own trace. -/
structure SoleInv (cfg : Config) (traces : Fin n → List TraceEntry) (good : S → Prop)
    (s : Simulator S n) : Prop where
  rest : ∀ i, ∀ entry ∈ s.traces i, entry ∈ traces i
  queue : ∀ req ∈ s.busQueue, Accesses cfg traces req.coreId (cfg.geometry.block req.addr)
  lines : ∀ i b st, s.machine.lineState i b = some st → Accesses cfg traces i b ∧ good st

variable {cfg : Config} {R : ProtocolRules S} {traces : Fin n → List TraceEntry} {good : S → Prop}
  {s s' : Simulator S n} {e : Event n}

omit [LineState S] in
theorem SoleInv.sole (hns : NoSharing cfg traces) (h : SoleInv cfg traces good s)
    {i : Fin n} {b : Block} (hb : Accesses cfg traces i b) : s.machine.Sole i b := by
  intro j hj
  cases hline : s.machine.lineState j b with
  | none => rfl
  | some st => exact absurd (hns.accesses_unique (h.lines j b st hline).1 hb) hj

theorem soleInv_granted (laws : SoleLaws R good) (hns : NoSharing cfg traces) (htok : s.TokenInv)
    (h : SoleInv cfg traces good s) {req : BusRequest n} (hreq : req ∈ s.busQueue)
    {latency : Nat} {machine : Machine S n}
    (hbus : handleBusTransaction R cfg.geometry s.machine req.coreId req.type req.addr =
      some (latency, machine)) (i : Fin n) (b : Block) (st : S)
    (hst : machine.lineState i b = some st) : Accesses cfg traces i b ∧ good st := by
  have hsole := h.sole hns (h.queue req hreq)
  by_cases hi : i = req.coreId
  · subst hi
    rcases bus_spec (htok.types req hreq) hbus with ⟨-, hspec⟩ | ⟨-, hspec⟩
    · rw [hspec.lineState] at hst
      split at hst
      · rename_i hb
        subst hb
        obtain ⟨st₀, -, rfl⟩ := Option.map_eq_some_iff.mp hst
        rw [if_pos rfl, hsole.sharedSignal]
        exact ⟨h.queue req hreq, laws.upgrade⟩
      · exact h.lines _ b st hst
    · rw [hspec.lineState] at hst
      split at hst
      · rename_i hb
        subst hb
        rw [if_pos rfl, hsole.sharedSignal] at hst
        obtain rfl := Option.some.inj hst
        exact ⟨h.queue req hreq, laws.fill _⟩
      · split at hst
        · simp at hst
        · exact h.lines _ b st hst
  · rw [lineState_of_bus (htok.types req hreq) hbus hi] at hst
    split at hst
    · rename_i hb
      subst hb
      rw [hsole i hi] at hst
      simp at hst
    · exact h.lines i b st hst

omit [LineState S] in
theorem SoleInv.rest_read (h : SoleInv cfg traces good s) {j : Fin n} {entry : TraceEntry}
    {rest : List TraceEntry} (read : s.traces j = entry :: rest) (i : Fin n) :
    ∀ a ∈ Function.update s.traces j rest i, a ∈ traces i := by
  intro a ha
  apply h.rest i a
  rw [Function.update_apply] at ha
  split at ha
  · rename_i hij
    rw [hij, read]
    exact List.mem_cons_of_mem _ ha
  · exact ha

/-- An access leaves a core with lines of its own trace. -/
theorem SoleInv.access_lines (laws : SoleLaws R good) (h : SoleInv cfg traces good s) {t : Nat}
    {j i : Fin n} {entry : TraceEntry} {b : Block} {st : S}
    (hst : ((s.pop (.fetch t j)).access cfg R j entry).2.lineState i b = some st) :
    Accesses cfg traces i b ∧ good st := by
  rw [access_lineState] at hst
  split at hst
  · obtain ⟨st₀, hst₀, rfl⟩ := Option.map_eq_some_iff.mp hst
    obtain ⟨haccess, hgood⟩ := h.lines i b st₀ hst₀
    refine ⟨haccess, ?_⟩
    unfold afterRequest
    split
    · exact laws.write st₀
    · exact hgood
  · exact h.lines i b st hst

theorem soleInv_fired (laws : SoleLaws R good) (hns : NoSharing cfg traces) (htok : s.TokenInv)
    (h : SoleInv cfg traces good s) (hf : Fired cfg R (s.pop e) e s') :
    SoleInv cfg traces good s' := by
  cases hf with
  | @grant t req latency machine free first bus =>
    have hreq : req ∈ s.busQueue := minElement_mem first
    refine ⟨h.rest, ?_, soleInv_granted laws hns htok h hreq bus⟩
    intro req' hreq'
    exact h.queue req' (List.mem_of_mem_erase hreq')
  | @compute t j entry rest running read label => exact ⟨h.rest_read read, h.queue, h.lines⟩
  | @hit t j entry rest running read label resp =>
    refine ⟨h.rest_read read, h.queue, ?_⟩
    intro i b st hst
    exact h.access_lines laws hst
  | @miss t j entry rest running read label resp =>
    refine ⟨h.rest_read read, ?_, ?_⟩
    · intro req hreq
      rcases List.mem_append.mp hreq with hreq | hreq
      · exact h.queue req hreq
      · obtain rfl := List.mem_singleton.mp hreq
        refine ⟨entry, h.rest j entry ?_, label, rfl⟩
        change s.traces j = entry :: rest at read
        rw [read]
        exact List.mem_cons_self
    · intro i b st hst
      exact h.access_lines laws hst
  | _ => exact ⟨h.rest, h.queue, h.lines⟩

theorem soleInv_reached (hR : R.MissFills) (laws : SoleLaws R good) (hns : NoSharing cfg traces)
    (hr : (system cfg R traces).Reached s) : SoleInv cfg traces good s := by
  refine hr.invariant_of (fun s => tokenInv_reached hR) ?_ ?_
  · intro s hs
    subst hs
    refine ⟨fun i entry hentry => hentry, by simp [start], ?_⟩
    intro i b st hst
    cases (hst : (none : Option S) = some st)
  · intro s e s' hstep htok hinv
    obtain ⟨-, -, hf⟩ := fired_of_step hstep
    exact soleInv_fired laws hns htok hinv hf

end Simulator
end CoherenceFormal
