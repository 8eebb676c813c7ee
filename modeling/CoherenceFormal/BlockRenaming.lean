import CoherenceFormal.Protocols
import CoherenceFormal.Shared.Lockstep
import Mathlib.Data.Finset.Card

/-!
# Blocks under other names

The handlers compare set indices and tags for equality and make no other use of them. Two
machines that hold the same lines under renamed sets and tags therefore answer alike, and
count alike, when they are given addresses of correspondingly named blocks. The two
geometries may differ in the number of sets, but not in associativity or block size.
-/

namespace CoherenceFormal
open LineState FiniteMap
set_option autoImplicit false

/-- The tags of each set have names of their own. -/
structure BlockRenaming where
  set : Nat → Nat
  tag : Nat → Nat → Nat
  set_injective : Function.Injective set
  tag_injective : ∀ k, Function.Injective (tag k)

/-- The address `addr'` names the block of `addr`. -/
structure BlockRenaming.Places (β : BlockRenaming) (g g' : Geometry) (addr addr' : Addr) :
    Prop where
  setIdx : g'.setIdx addr' = β.set (g.setIdx addr)
  tag : g'.tag addr' = β.tag (g.setIdx addr) (g.tag addr)

structure SameShape (g g' : Geometry) : Prop where
  assoc : g.assoc = g'.assoc
  bsize : g.bsize = g'.bsize

variable {S : Type}

/-! ### Sets -/

/-- `set'` is `set` with the tags renamed by `τ`, except for the tags that the lines carry,
which nothing reads. -/
structure CacheSet.Renamed (τ : Nat → Nat) (set set' : CacheSet S) : Prop where
  lruOrder : set'.lruOrder = set.lruOrder.map τ
  lookup : ∀ tag, Option.Rel (fun line line' => line.state = line'.state)
    (set.lines.lookup tag) (set'.lines.lookup (τ tag))
  named : ∀ tag' ∈ set'.lines, ∃ tag, τ tag = tag'

namespace CacheSet.Renamed
variable {τ : Nat → Nat} {set set' : CacheSet S}

theorem mem_iff (h : Renamed τ set set') (tag : Nat) :
    τ tag ∈ set'.lines ↔ tag ∈ set.lines := by
  rw [← Finmap.lookup_isSome, ← Finmap.lookup_isSome]
  have hrel := h.lookup tag
  generalize set.lines.lookup tag = x at hrel ⊢
  generalize set'.lines.lookup (τ tag) = y at hrel ⊢
  cases hrel with
  | none => exact Iff.rfl
  | some hstate => exact Iff.rfl

theorem size_eq (h : Renamed τ set set') (hτ : Function.Injective τ) :
    size set.lines = size set'.lines := by
  have hkeys : set'.lines.keys = set.lines.keys.image τ := by
    ext tag'
    rw [Finset.mem_image, Finmap.mem_keys]
    constructor
    · intro hmem
      obtain ⟨tag, rfl⟩ := h.named tag' hmem
      exact ⟨tag, Finmap.mem_keys.mpr ((h.mem_iff tag).mp hmem), rfl⟩
    · rintro ⟨tag, hmem, rfl⟩
      exact (h.mem_iff tag).mpr (Finmap.mem_keys.mp hmem)
  rw [size, size, hkeys, Finset.card_image_of_injective _ hτ]

theorem find (h : Renamed τ set set') (hτ : Function.Injective τ) (tag : Nat) :
    Renamed τ (set.find tag).2 (set'.find (τ tag)).2 := by
  have hrel := h.lookup tag
  unfold CacheSet.find
  generalize set.lines.lookup tag = x at hrel ⊢
  generalize set'.lines.lookup (τ tag) = y at hrel ⊢
  cases hrel with
  | none => exact h
  | some hstate =>
    refine ⟨?_, h.lookup, h.named⟩
    change τ tag :: set'.lruOrder.filter (· ≠ τ tag) =
      (tag :: set.lruOrder.filter (· ≠ tag)).map τ
    rw [h.lruOrder, List.filter_map, List.map_cons]
    have hsame : ((fun other => decide (other ≠ τ tag)) ∘ τ) = fun other => decide (other ≠ tag) := by
      funext other
      simp [hτ.eq_iff]
    rw [hsame]

theorem setState (h : Renamed τ set set') (hτ : Function.Injective τ) (tag : Nat) (state : S) :
    Renamed τ (set.setState tag state) (set'.setState (τ tag) state) := by
  refine ⟨h.lruOrder, ?_, ?_⟩
  · intro a
    simp only [CacheSet.setState, lookup_modify, hτ.eq_iff]
    split
    · apply Lockstep.rel_map (h.lookup a)
      intro line line' _
      rfl
    · exact h.lookup a
  · intro tag' hmem
    apply h.named
    rw [← Finmap.mem_keys] at hmem ⊢
    rwa [CacheSet.setState, keys_modify] at hmem

variable [LineState S]

theorem install (h : Renamed τ set set') (hτ : Function.Injective τ) (tag : Nat) :
    Renamed τ (set.install tag) (set'.install (τ tag)) := by
  refine ⟨?_, ?_, ?_⟩
  · rw [CacheSet.install, CacheSet.install, h.lruOrder, List.map_cons]
  · intro a
    simp only [CacheSet.install, lookup_insert_eq, hτ.eq_iff]
    split
    · exact .some rfl
    · exact h.lookup a
  · intro tag' hmem
    rcases Finmap.mem_insert.mp hmem with rfl | hmem
    · exact ⟨tag, rfl⟩
    · exact h.named tag' hmem

/-- The state of a line that `lines[key]` may have to create. -/
theorem getD_state (h : Renamed τ set set') (tag : Nat) :
    ((set.lines.lookup tag).getD blankLine).state =
      ((set'.lines.lookup (τ tag)).getD blankLine).state := by
  have hrel := h.lookup tag
  generalize set.lines.lookup tag = x at hrel ⊢
  generalize set'.lines.lookup (τ tag) = y at hrel ⊢
  cases hrel with
  | none => rfl
  | some hstate => exact hstate

omit [LineState S] in
theorem erase (h : Renamed τ set set') (hτ : Function.Injective τ) (pos tag : Nat) :
    Renamed τ ⟨set.lruOrder.eraseIdx pos, set.lines.erase tag⟩
      ⟨set'.lruOrder.eraseIdx pos, set'.lines.erase (τ tag)⟩ := by
  refine ⟨?_, ?_, ?_⟩
  · rw [h.lruOrder, List.eraseIdx_map]
  · intro a
    simp only [lookup_erase_eq, hτ.eq_iff]
    split
    · exact .none
    · exact h.lookup a
  · intro tag' hmem
    exact h.named tag' (Finmap.mem_erase.mp hmem).2

theorem evictAt (h : Renamed τ set set') (hτ : Function.Injective τ) (tag pos : Nat) :
    Option.Rel (fun x y => Renamed τ x.1 y.1 ∧ x.2.map CacheLine.state = y.2.map CacheLine.state)
      (set.evictAt tag pos) (set'.evictAt (τ tag) pos) := by
  unfold CacheSet.evictAt
  rw [h.lruOrder, List.getElem?_map]
  cases set.lruOrder[pos]? with
  | none => exact .none
  | some victim =>
    apply Option.Rel.some
    refine ⟨?_, congrArg some (h.getD_state victim)⟩
    have hleft := (h.erase hτ pos victim).install hτ tag
    rwa [h.lruOrder] at hleft

end CacheSet.Renamed

/-- Which entry goes does not depend on what the tags are. -/
def Replacement.Blind [LineState S] (r : Replacement S) : Prop :=
  ∀ τ, Function.Injective τ → ∀ set set', CacheSet.Renamed τ set set' →
    r.victimPos set = r.victimPos set'

theorem LRUCacheSet.blind [LineState S] : (LRUCacheSet.replacement : Replacement S).Blind := by
  intro τ _ set set' h
  change set.lruOrder.length - 1 = set'.lruOrder.length - 1
  rw [h.lruOrder, List.length_map]

theorem SmartCacheSet.blind [LineState S] (isModified : S → Bool)
    (hinv : isModified invalid = false) : (SmartCacheSet.replacement isModified hinv).Blind := by
  intro τ _ set set' h
  have hclean : SmartCacheSet.clean isModified set'.lines ∘ τ =
      SmartCacheSet.clean isModified set.lines := by
    funext tag
    simp only [Function.comp_apply, SmartCacheSet.clean, h.getD_state]
  change SmartCacheSet.victimPos isModified set = SmartCacheSet.victimPos isModified set'
  rw [SmartCacheSet.victimPos, SmartCacheSet.victimPos, h.lruOrder, ← List.map_reverse,
    List.findIdx?_map, hclean, List.length_map]

theorem ProtocolName.blind (p : ProtocolName) : p.rules.replacement.Blind := by
  cases p with
  | smart => exact SmartCacheSet.blind _ rfl
  | mesi => exact LRUCacheSet.blind
  | dragon => exact LRUCacheSet.blind
  | mesif => exact LRUCacheSet.blind
  | moesi => exact LRUCacheSet.blind

/-! ### Caches -/

def Cache.Renamed (β : BlockRenaming) (cache cache' : Cache S) : Prop :=
  ∀ k, CacheSet.Renamed (β.tag k) (cache.sets k) (cache'.sets (β.set k))

namespace Cache.Renamed
variable {β : BlockRenaming} {g g' : Geometry} {addr addr' : Addr} {cache cache' : Cache S}

theorem setAt (h : Renamed β cache cache') (k : Nat) {set set' : CacheSet S}
    (hset : CacheSet.Renamed (β.tag k) set set') :
    Renamed β (cache.setAt k set) (cache'.setAt (β.set k) set') := by
  intro j
  change CacheSet.Renamed (β.tag j) (Function.update cache.sets k set j)
    (Function.update cache'.sets (β.set k) set' (β.set j))
  simp only [Function.update_apply, β.set_injective.eq_iff]
  split
  · rename_i hjk
    rw [hjk]
    exact hset
  · exact h j

section
variable (hplace : β.Places g g' addr addr')
include hplace

theorem line (h : Renamed β cache cache') :
    Option.Rel (fun line line' => line.state = line'.state) (cache.line (g.block addr))
      (cache'.line (g'.block addr')) := by
  change Option.Rel _ ((cache.sets (g.setIdx addr)).lines.lookup (g.tag addr))
    ((cache'.sets (g'.setIdx addr')).lines.lookup (g'.tag addr'))
  rw [hplace.setIdx, hplace.tag]
  exact (h (g.setIdx addr)).lookup (g.tag addr)

theorem getLine (h : Renamed β cache cache') :
    Renamed β (cache.getLine g addr).2 (cache'.getLine g' addr').2 := by
  simp only [Cache.getLine, hplace.setIdx, hplace.tag]
  exact h.setAt _ ((h _).find (β.tag_injective _) _)

theorem setLineState (h : Renamed β cache cache') (state : S) :
    Renamed β (cache.setLineState g addr state) (cache'.setLineState g' addr' state) := by
  simp only [Cache.setLineState, hplace.setIdx, hplace.tag]
  exact h.setAt _ ((h _).setState (β.tag_injective _) _ state)

theorem allocate [LineState S] (h : Renamed β cache cache') {r : Replacement S} (hr : r.Blind)
    (hassoc : g.assoc = g'.assoc) :
    Option.Rel (fun x y => Renamed β x.1 y.1 ∧ x.2.map CacheLine.state = y.2.map CacheLine.state)
      (cache.allocate r g addr) (cache'.allocate r g' addr') := by
  have hset := h (g.setIdx addr)
  have hτ := β.tag_injective (g.setIdx addr)
  simp only [Cache.allocate, hplace.setIdx, hplace.tag]
  apply Lockstep.rel_map (r := fun x y => CacheSet.Renamed (β.tag (g.setIdx addr)) x.1 y.1 ∧
    x.2.map CacheLine.state = y.2.map CacheLine.state)
  · rw [r.allocate_eq, r.allocate_eq, ← hassoc, hset.size_eq hτ, hr _ hτ _ _ hset]
    split
    · exact hset.evictAt hτ _ _
    · exact .some ⟨hset.install hτ _, rfl⟩
  · intro x y hrel
    exact ⟨h.setAt _ hrel.1, hrel.2⟩

end
end Cache.Renamed

/-! ### Machines -/

structure Machine.Renamed {n : Nat} (β : BlockRenaming) (m m' : Machine S n) : Prop where
  caches : ∀ i, Cache.Renamed β (m.caches i) (m'.caches i)
  gStats : m.gStats = m'.gStats
  cStats : m.cStats = m'.cStats

variable {n : Nat}

namespace Machine.Renamed
variable {β : BlockRenaming} {m m' : Machine S n}

theorem setCache (h : Renamed β m m') (i : Fin n) {cache cache' : Cache S}
    (hcache : Cache.Renamed β cache cache') :
    Renamed β (m.setCache i cache) (m'.setCache i cache') := by
  refine ⟨?_, h.gStats, h.cStats⟩
  intro j
  change Cache.Renamed β (Function.update m.caches i cache j) (Function.update m'.caches i cache' j)
  rw [Function.update_apply, Function.update_apply]
  split
  · exact hcache
  · exact h.caches j

theorem updStats (h : Renamed β m m') (i : Fin n) (f : Statistics → Statistics) :
    Renamed β (m.updStats i f) (m'.updStats i f) := by
  refine ⟨h.caches, h.gStats, ?_⟩
  simp [Machine.updStats, h.cStats]

theorem updGlobal (h : Renamed β m m') (f : GlobalStatistics → GlobalStatistics) :
    Renamed β (m.updGlobal f) (m'.updGlobal f) :=
  ⟨h.caches, congrArg f h.gStats, h.cStats⟩

end Machine.Renamed

theorem Machine.renamed_init (β : BlockRenaming) :
    (Machine.init : Machine S n).Renamed β Machine.init where
  caches := by
    intro i k
    refine ⟨rfl, fun tag => .none, ?_⟩
    intro tag' hmem
    exact absurd hmem Finmap.notMem_empty
  gStats := rfl
  cStats := rfl

structure Snooped.Renamed (β : BlockRenaming) (acc acc' : Snooped S n) : Prop where
  machine : acc.machine.Renamed β acc'.machine
  sharedSignal : acc.sharedSignal = acc'.sharedSignal
  supplierFound : acc.supplierFound = acc'.supplierFound

section
variable [LineState S] {R : ProtocolRules S} {β : BlockRenaming} {g g' : Geometry}
  {addr addr' : Addr} {m m' : Machine S n} (hplace : β.Places g g' addr addr')
include hplace

theorem handleProcessorRequest_renamed (h : m.Renamed β m') (id : Fin n) (isWrite : Bool) :
    (handleProcessorRequest R g m id addr isWrite).1 =
        (handleProcessorRequest R g' m' id addr' isWrite).1 ∧
      (handleProcessorRequest R g m id addr isWrite).2.Renamed β
        (handleProcessorRequest R g' m' id addr' isWrite).2 := by
  have hfound := h.setCache id ((h.caches id).getLine hplace)
  have hline := (h.caches id).line hplace
  simp only [handleProcessorRequest, Cache.getLine_fst]
  generalize (m.caches id).line (g.block addr) = x at hline ⊢
  generalize (m'.caches id).line (g'.block addr') = y at hline ⊢
  cases hline with
  | none => exact ⟨rfl, hfound⟩
  | some hstate =>
    simp only [← hstate]
    split
    · exact ⟨rfl, hfound⟩
    · split
      · exact ⟨rfl, hfound⟩
      · refine ⟨rfl, ?_⟩
        cases isWrite with
        | false =>
          simp only [Bool.false_eq_true, if_false]
          exact hfound.updStats id _
        | true =>
          simp only [if_true]
          apply Machine.Renamed.updStats
          exact hfound.setCache id ((hfound.caches id).setLineState hplace _)

omit hplace in
theorem countInvalidation_renamed (h : m.Renamed β m') (type : BusTransactionType)
    (i reqId : Fin n) :
    (countInvalidation R type m i reqId).Renamed β (countInvalidation R type m' i reqId) := by
  unfold countInvalidation
  split
  · apply Machine.Renamed.updGlobal
    split
    · exact (h.updStats i _).updStats reqId _
    · exact h.updStats i _
  · exact h

theorem snoopCore_renamed {acc acc' : Snooped S n} (h : acc.Renamed β acc') (reqId : Fin n)
    (type : BusTransactionType) (i : Fin n) :
    (snoopCore R g reqId type addr acc i).Renamed β (snoopCore R g' reqId type addr' acc' i) := by
  have hcache := h.machine.caches i
  have hfound := h.machine.setCache i (hcache.getLine hplace)
  have hline := hcache.line hplace
  unfold snoopCore
  split
  · exact h
  · simp only [Cache.getLine_fst]
    generalize (acc.machine.caches i).line (g.block addr) = x at hline ⊢
    generalize (acc'.machine.caches i).line (g'.block addr') = y at hline ⊢
    cases hline with
    | none => exact ⟨hfound, h.sharedSignal, h.supplierFound⟩
    | some hstate =>
      simp only [← hstate]
      split
      · exact ⟨hfound, h.sharedSignal, h.supplierFound⟩
      · refine ⟨?_, rfl, ?_⟩
        · apply countInvalidation_renamed
          exact hfound.setCache i ((hfound.caches i).setLineState hplace _)
        · rw [h.supplierFound]

theorem snoopAll_renamed (h : m.Renamed β m') (reqId : Fin n) (type : BusTransactionType) :
    (snoopAll R g m reqId type addr).Renamed β (snoopAll R g' m' reqId type addr') := by
  have base : Snooped.Renamed β ⟨m, false, false⟩ ⟨m', false, false⟩ := ⟨h, rfl, rfl⟩
  exact Lockstep.rel_foldl (r := Snooped.Renamed β)
    (fun acc acc' i hacc => snoopCore_renamed hplace hacc reqId type i) (List.finRange n) base

variable (hshape : SameShape g g') (hR : R.replacement.Blind)
include hshape hR

theorem handleBusTransaction_renamed (h : m.Renamed β m') (reqId : Fin n)
    (type : BusTransactionType) :
    Option.Rel (fun x y => x.1 = y.1 ∧ x.2.Renamed β y.2)
      (handleBusTransaction R g m reqId type addr)
      (handleBusTransaction R g' m' reqId type addr') := by
  have hsnoop := snoopAll_renamed (R := R) hplace h reqId type
  have hmachine := hsnoop.machine
  have hwriteback : countWriteback g = countWriteback g' := by
    funext gs
    rw [countWriteback, countWriteback, hshape.bsize]
  have hfill : countFill R g = countFill R g' := by
    funext type supplier gs
    rw [countFill, countFill, hshape.bsize]
  simp only [handleBusTransaction, hwriteback, hfill, hshape.bsize, hsnoop.sharedSignal,
    hsnoop.supplierFound]
  split
  · exact .some ⟨rfl, hmachine.updGlobal _⟩
  · split
    · have hupgraded := hmachine.updGlobal (countUpgrade R)
      have hline := (hupgraded.caches reqId).line hplace
      simp only [Cache.getLine_fst]
      generalize Cache.line _ (g.block addr) = x at hline ⊢
      generalize Cache.line _ (g'.block addr') = y at hline ⊢
      cases hline with
      | none => exact .none
      | some hstate =>
        refine .some ⟨rfl, ?_⟩
        apply hupgraded.setCache
        exact ((hupgraded.caches reqId).getLine hplace).setLineState hplace _
    · have hcounted := hmachine.updGlobal (countFill R g' type
        (snoopAll R g' m' reqId type addr').supplierFound)
      have halloc := (hcounted.caches reqId).allocate hplace hR hshape.assoc
      generalize Cache.allocate R.replacement g _ addr = x at halloc ⊢
      generalize Cache.allocate R.replacement g' _ addr' = y at halloc ⊢
      cases halloc with
      | none => exact .none
      | @some result result' hrel =>
        obtain ⟨cache, evicted⟩ := result
        obtain ⟨cache', evicted'⟩ := result'
        obtain ⟨hcache, hevicted⟩ := hrel
        have hdirty : (evicted.any fun line => R.isDirty line.state) =
            evicted'.any fun line => R.isDirty line.state := by
          have hany := congrArg (Option.any R.isDirty) hevicted
          simpa only [Option.any_map] using hany
        have hfilled := hcounted.setCache reqId (hcache.setLineState hplace
          (R.fillState type (snoopAll R g' m' reqId type addr').sharedSignal))
        simp only [hdirty]
        split
        · exact .some ⟨rfl, hfilled.updGlobal _⟩
        · exact .some ⟨rfl, hfilled⟩

end
end CoherenceFormal
