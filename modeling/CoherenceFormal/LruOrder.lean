import CoherenceFormal.ExactSets
import CoherenceFormal.NoSharing
import CoherenceFormal.RunCompletion

/-!
# The recency lists and the accesses of a core

A set that is kept by LRU lists the blocks that its core has accessed last. `lru_order`
is that list as long as nothing but the core's own accesses reorders it: no snoop promotes
an entry, and no fill pushes a tag that is already there.
-/

namespace CoherenceFormal
open LineState FiniteMap Recency
set_option autoImplicit false

theorem Block.mk_injective (k : Nat) : (Block.mk k).Injective := fun _ _ h => (Block.mk.inj h).2

/-- What LRU keeps of set `k` after the accesses `A`, newest first. -/
def lruSet (assoc : Nat) (A : List Block) (k : Nat) : List Block :=
  (recent (A.filter (·.set = k))).take assoc

section
variable {assoc : Nat} {A : List Block} {b : Block}

theorem lruSet_other {k : Nat} (h : b.set ≠ k) : lruSet assoc (b :: A) k = lruSet assoc A k := by
  rw [lruSet, lruSet, List.filter_cons_of_neg (by simpa using h)]

theorem lruSet_touch (h : b ∈ lruSet assoc A b.set) :
    touch b (lruSet assoc A b.set) = lruSet assoc (b :: A) b.set := by
  rw [lruSet, take_recent_touch h, lruSet, List.filter_cons_of_pos (by simp)]

theorem lruSet_push (hassoc : 0 < assoc) (h : b ∉ lruSet assoc A b.set) :
    b :: (if assoc ≤ (lruSet assoc A b.set).length then (lruSet assoc A b.set).dropLast
      else lruSet assoc A b.set) = lruSet assoc (b :: A) b.set := by
  have hpush := take_recent_push hassoc h
  rw [lruSet, hpush, lruSet, List.filter_cons_of_pos (by simp)]

/-- LRU still has a block when fewer than `assoc` others of its set were accessed since. -/
theorem mem_lruSet_iff : b ∈ lruSet assoc A b.set ↔ b ∈ A ∧
    ((A.takeWhile (· ≠ b)).filter (·.set = b.set)).toFinset.card < assoc := by
  rw [lruSet, mem_take_recent_iff, takeWhile_filter_ne (by simp), List.mem_filter, decide_eq_true_eq,
    and_iff_left rfl]

/-- The last block of the set is older than the others. -/
theorem lruSet_last {k : Nat} {v : Block} (hlast : (lruSet assoc A k).getLast? = some v)
    (hb : b ∈ lruSet assoc A k) (hne : b ≠ v) : b ∈ A.takeWhile (· ≠ v) := by
  have hv : v ∈ A.filter (·.set = k) :=
    mem_recent.mp (List.mem_of_mem_take (List.mem_of_getLast? hlast))
  have hmem := mem_takeWhile_of_last hlast hb hne
  rw [takeWhile_filter_ne (p := fun c : Block => c.set = k) (List.mem_filter.mp hv).2] at hmem
  exact (List.mem_filter.mp hmem).1

/-- The block accessed last is at the front. -/
theorem lruSet_head (hassoc : 0 < assoc) : (lruSet assoc (b :: A) b.set).head? = some b := by
  obtain ⟨assoc, rfl⟩ := Nat.exists_eq_add_of_lt hassoc
  rw [lruSet, List.filter_cons_of_pos (by simp), recent, touch, Nat.zero_add, List.take_succ_cons,
    List.head?_cons]

end

variable {S : Type} {n : Nat}

namespace Cache

/-- The recency list of set `k`, by block. -/
def order (cache : Cache S) (k : Nat) : List Block := (cache.sets k).lruOrder.map (Block.mk k)

/-- The entry of the block, if there is one, is the most recent one of its set. -/
def AbsentOrFront (g : Geometry) (cache : Cache S) (addr : Addr) : Prop :=
  cache.line (g.block addr) = none ∨
    (cache.sets (g.setIdx addr)).lruOrder.head? = some (g.tag addr)

/-- Set `k` of the cache is that of a core which has made the accesses `A`, under LRU. -/
structure Follows (g : Geometry) (cache : Cache S) (k : Nat) (A : List Block) : Prop where
  agree : (cache.sets k).Exact g.assoc
  order : cache.order k = lruSet g.assoc A k

section
variable {g : Geometry} {cache : Cache S} {addr : Addr}

theorem order_setAt (i : Nat) (set : CacheSet S) (k : Nat) :
    (cache.setAt i set).order k = if k = i then set.lruOrder.map (Block.mk k) else cache.order k := by
  simp only [order, setAt, Function.update_apply]
  split <;> rfl

theorem order_getLine_of_some (h : (cache.line (g.block addr)).isSome) (k : Nat) :
    (cache.getLine g addr).2.order k =
      if k = g.setIdx addr then touch (g.block addr) (cache.order k) else cache.order k := by
  rw [getLine, order_setAt]
  split
  · rename_i hk
    subst hk
    change ((cache.sets (g.setIdx addr)).lines.lookup (g.tag addr)).isSome at h
    rw [CacheSet.find_lruOrder, if_pos h, ← touch_map (Block.mk_injective _)]
    rfl
  · rfl

theorem order_setLineState (st : S) (k : Nat) :
    (cache.setLineState g addr st).order k = cache.order k := by
  rw [setLineState, order_setAt]
  split
  · rename_i hk
    rw [hk]
    rfl
  · rfl

theorem order_allocate [LineState S] {cache' : Cache S} {evicted : Option (CacheLine S)}
    (h : cache.allocate LRUCacheSet.replacement g addr = some (cache', evicted)) (k : Nat) :
    cache'.order k = if k = g.setIdx addr
      then g.block addr :: (if g.assoc ≤ size (cache.sets k).lines then (cache.order k).dropLast
        else cache.order k)
      else cache.order k := by
  obtain ⟨⟨set, ev⟩, hset, heq⟩ := Option.map_eq_some_iff.mp h
  obtain ⟨rfl, -⟩ := Prod.mk.inj heq
  rw [order_setAt]
  split
  · rename_i hk
    subst hk
    change LRUCacheSet.allocate g.assoc _ _ = _ at hset
    rw [LRUCacheSet.allocate_eq, LRUCacheSet.evictAt_last] at hset
    split at hset
    · rename_i hfull
      rw [if_pos hfull]
      obtain ⟨victim, -, heq⟩ := Option.map_eq_some_iff.mp hset
      obtain ⟨rfl, -⟩ := Prod.mk.inj heq
      rw [order, ← List.map_dropLast]
      rfl
    · rename_i hroom
      rw [if_neg hroom]
      obtain ⟨rfl, -⟩ := Prod.mk.inj (Option.some.inj hset)
      rfl
  · rfl

theorem mem_order {b : Block} (h : (cache.sets b.set).Exact g.assoc) :
    b ∈ cache.order b.set ↔ (cache.line b).isSome := by
  have hmem : b ∈ cache.order b.set ↔ b.tag ∈ (cache.sets b.set).lruOrder := by
    rw [order, List.mem_map]
    constructor
    · intro hb
      obtain ⟨tag, htag, heq⟩ := hb
      rw [← congrArg Block.tag heq]
      exact htag
    · intro htag
      exact ⟨b.tag, htag, rfl⟩
  rw [hmem]
  exact ⟨h.lookup_of_mem, h.mem_of_lookup⟩

end

namespace Follows
variable {g : Geometry} {cache cache' : Cache S} {k : Nat} {A : List Block} {addr : Addr}

theorem empty (g : Geometry) (k : Nat) : (Cache.empty : Cache S).Follows g k [] := by
  refine ⟨.empty _, ?_⟩
  rw [lruSet, List.filter_nil, recent, List.take_nil]
  rfl

/-- A block has an entry when it is among those LRU keeps. -/
theorem mem_iff {b : Block} (h : cache.Follows g b.set A) :
    (cache.line b).isSome ↔ b ∈ lruSet g.assoc A b.set := by
  rw [← h.order, mem_order h.agree]

/-- Nothing has happened in set `k`. -/
theorem of_sets (h : cache.Follows g k A) (hsets : cache'.sets k = cache.sets k) :
    cache'.Follows g k A := by
  refine ⟨?_, ?_⟩
  · rw [hsets]
    exact h.agree
  · rw [Cache.order, hsets]
    exact h.order

theorem cons_iff_of_ne (hk : g.setIdx addr ≠ k) :
    cache.Follows g k (g.block addr :: A) ↔ cache.Follows g k A := by
  have hother : lruSet g.assoc (g.block addr :: A) k = lruSet g.assoc A k := lruSet_other hk
  constructor
  · intro h
    exact ⟨h.agree, h.order.trans hother⟩
  · intro h
    exact ⟨h.agree, h.order.trans hother.symm⟩

/-- The access of a block, which is there if it belongs to the set. -/
theorem access (h : cache.Follows g k A)
    (hline : g.setIdx addr = k → (cache.line (g.block addr)).isSome) :
    (cache.getLine g addr).2.Follows g k (g.block addr :: A) := by
  by_cases hk : g.setIdx addr = k
  · subst hk
    refine ⟨?_, ?_⟩
    · rw [getLine, sets_setAt_self]
      exact h.agree.find _
    · rw [order_getLine_of_some (hline rfl), if_pos rfl, h.order]
      exact lruSet_touch (h.mem_iff.mp (hline rfl))
  · exact (cons_iff_of_ne hk).mpr (h.of_sets (sets_setAt_of_ne _ (Ne.symm hk) _))

/-- Finding the entry at the front of its set. -/
theorem front (h : cache.Follows g (g.setIdx addr) A)
    (hfront : (cache.sets (g.setIdx addr)).lruOrder.head? = some (g.tag addr)) :
    (cache.getLine g addr).2.Follows g (g.setIdx addr) A := by
  refine ⟨?_, ?_⟩
  · rw [getLine, sets_setAt_self]
    exact h.agree.find _
  · have hline : (cache.line (g.block addr)).isSome :=
      h.agree.lookup_of_mem (List.mem_of_mem_head? hfront)
    rw [order_getLine_of_some hline, if_pos rfl, ← h.order]
    obtain ⟨rest, hrest⟩ := List.head?_eq_some_iff.mp hfront
    have hnodup := h.agree.nodup.map (Block.mk_injective (g.setIdx addr))
    rw [hrest, List.map_cons] at hnodup
    rw [Cache.order, hrest, List.map_cons]
    exact touch_head hnodup

theorem front_of_last (h : cache.Follows g (g.setIdx addr) A)
    (hlast : A.head? = some (g.block addr)) :
    (cache.sets (g.setIdx addr)).lruOrder.head? = some (g.tag addr) := by
  obtain ⟨A', rfl⟩ := List.head?_eq_some_iff.mp hlast
  have hhead : (cache.order (g.setIdx addr)).head? = some (g.block addr) := by
    rw [h.order]
    exact lruSet_head g.assoc_pos
  rw [Cache.order, List.head?_map] at hhead
  obtain ⟨tag, htag, heq⟩ := Option.map_eq_some_iff.mp hhead
  rw [htag, (Block.mk.inj heq).2]

theorem write (h : cache.Follows g k A) (st : S) :
    (cache.setLineState g addr st).Follows g k A := by
  refine ⟨?_, ?_⟩
  · by_cases hk : g.setIdx addr = k
    · subst hk
      rw [setLineState, sets_setAt_self]
      exact h.agree.setState _ _
    · rw [setLineState, sets_setAt_of_ne _ (Ne.symm hk)]
      exact h.agree
  · rw [order_setLineState, h.order]

/-- The fill of a block, which is not there if it belongs to the set. -/
theorem fill [LineState S] (h : cache.Follows g k A)
    (hline : g.setIdx addr = k → cache.line (g.block addr) = none)
    {evicted : Option (CacheLine S)}
    (ha : cache.allocate LRUCacheSet.replacement g addr = some (cache', evicted)) :
    cache'.Follows g k (g.block addr :: A) := by
  have horder := order_allocate ha k
  obtain ⟨⟨set, ev⟩, hset, heq⟩ := Option.map_eq_some_iff.mp ha
  obtain ⟨rfl, -⟩ := Prod.mk.inj heq
  by_cases hk : g.setIdx addr = k
  · subst hk
    refine ⟨?_, ?_⟩
    · rw [sets_setAt_self]
      exact h.agree.allocate (hline rfl) hset
    · have hnot : g.block addr ∉ lruSet g.assoc A (g.setIdx addr) := by
        intro hmem
        have hsome := h.mem_iff.mpr hmem
        rw [hline rfl] at hsome
        simp at hsome
      have hlen : size (cache.sets (g.setIdx addr)).lines =
          (lruSet g.assoc A (g.setIdx addr)).length := by
        rw [← h.order, Cache.order, List.length_map, h.agree.length_eq]
      rw [horder, if_pos rfl, h.order, hlen]
      exact lruSet_push g.assoc_pos hnot
  · exact (cons_iff_of_ne hk).mpr (h.of_sets (sets_setAt_of_ne _ (Ne.symm hk) _))

theorem quiet (h : cache.Follows g k A)
    (hquiet : g.setIdx addr = k → cache.AbsentOrFront g addr) :
    (cache.getLine g addr).2.Follows g k A := by
  by_cases hk : g.setIdx addr = k
  · subst hk
    rcases hquiet rfl with hnone | hfront
    · rw [Cache.getLine_of_none hnone]
      exact h
    · exact h.front hfront
  · exact h.of_sets (sets_setAt_of_ne _ (Ne.symm hk) _)

/-- The last access was that of the block: finding it again changes nothing. -/
theorem again (h : cache.Follows g k A) (hlast : A.head? = some (g.block addr)) :
    (cache.getLine g addr).2.Follows g k A := by
  apply h.quiet
  intro hk
  subst hk
  exact .inr (h.front_of_last hlast)

end Follows
end Cache

/-! ### What the handlers do to the recency lists -/

section
variable [LineState S]

theorem request_cache (R : ProtocolRules S) (g : Geometry) (m : Machine S n) (id : Fin n)
    (addr : Addr) (isWrite : Bool) {k : Nat} {A : List Block}
    (h : ((m.caches id).getLine g addr).2.Follows g k A) :
    ((handleProcessorRequest R g m id addr isWrite).2.caches id).Follows g k A := by
  obtain ⟨cache, hcaches, hfound⟩ := handleProcessorRequest_found R g m id addr isWrite
  rw [hcaches, Function.update_self]
  rcases hfound with rfl | ⟨st, rfl⟩
  · exact h
  · exact h.write st

theorem snoop_cache (R : ProtocolRules S) (g : Geometry) (type : BusTransactionType) (addr : Addr)
    {cache : Cache S} {k : Nat} {A : List Block} (h : (cache.getLine g addr).2.Follows g k A) :
    (snoopCache R g type addr cache).Follows g k A := by
  rcases snoopCache_found R g type addr cache with heq | ⟨st, heq⟩
  · rw [heq]
    exact h
  · rw [heq]
    exact h.write st

variable {R : ProtocolRules S} {g : Geometry} {m m' : Machine S n} {r : Fin n}
  {type : BusTransactionType} {addr : Addr} {latency : Nat} {k : Nat} {A : List Block}

theorem bus_cache_other (hbus : handleBusTransaction R g m r type addr = some (latency, m'))
    {i : Fin n} (hi : i ≠ r) (h : (m.caches i).Follows g k A)
    (hquiet : g.setIdx addr = k → (m.caches i).AbsentOrFront g addr) :
    (m'.caches i).Follows g k A := by
  have hsnoop : ((snoopAll R g m r type addr).machine.caches i).Follows g k A := by
    rw [snoopAll_caches, if_neg hi]
    exact snoop_cache R g type addr (h.quiet hquiet)
  have updated (cache : Cache S) :
      (Function.update (snoopAll R g m r type addr).machine.caches r cache i).Follows g k A := by
    rw [Function.update_of_ne hi]
    exact hsnoop
  cases busEffect_of_bus hbus with
  | writeback => exact hsnoop
  | upgrade => exact updated _
  | fill => exact updated _

theorem upgrade_cache (hbus : handleBusTransaction R g m r .busUpgr addr = some (latency, m'))
    (h : (m.caches r).Follows g k A) (hlast : A.head? = some (g.block addr)) :
    (m'.caches r).Follows g k A := by
  cases busEffect_of_bus hbus with
  | fill _ hu _ => exact absurd rfl hu
  | upgrade =>
    rw [Machine.setCache_caches, Function.update_self]
    exact (h.again hlast).write _

theorem fill_cache (hlru : R.replacement = LRUCacheSet.replacement) (hw : type ≠ .writeback)
    (hu : type ≠ .busUpgr) (hbus : handleBusTransaction R g m r type addr = some (latency, m'))
    (h : (m.caches r).Follows g k A)
    (hline : g.setIdx addr = k → m.line r (g.block addr) = none) :
    (m'.caches r).Follows g k (g.block addr :: A) := by
  cases busEffect_of_bus hbus with
  | writeback => exact absurd rfl hw
  | upgrade => exact absurd rfl hu
  | fill _ _ allocated =>
    rw [hlru] at allocated
    rw [Machine.updGlobal_caches, Machine.setCache_caches, Function.update_self]
    exact (h.fill hline allocated).write _

end

namespace Simulator

/-- The block that core `i` accesses in a move. -/
def accessOf (cfg : Config) (i : Fin n) (m : Move (Simulator S n) (Event n)) : Option Block :=
  ((executedBy i m).filter fun entry => entry.label ≠ 2).map fun entry =>
    cfg.geometry.block entry.val

/-- The blocks that core `i` has accessed, the most recent access first. -/
def accesses (cfg : Config) (i : Fin n) (h : List (Move (Simulator S n) (Event n))) : List Block :=
  h.filterMap (accessOf cfg i)

/-- The accesses of core `i` that have reached its cache: all but the one that waits for
the fill of a block without an entry. -/
inductive Settled (cfg : Config) (h : List (Move (Simulator S n) (Event n))) (s : Simulator S n)
    (i : Fin n) : List Block → Prop where
  | done (present : ∀ req ∈ s.busQueue, req.coreId = i →
      (s.machine.line i (cfg.geometry.block req.addr)).isSome ∧
        (accesses cfg i h).head? = some (cfg.geometry.block req.addr)) :
      Settled cfg h s i (accesses cfg i h)
  | waiting {req : BusRequest n} {A : List Block} (queued : req ∈ s.busQueue)
      (core : req.coreId = i) (absent : s.machine.line i (cfg.geometry.block req.addr) = none)
      (last : accesses cfg i h = cfg.geometry.block req.addr :: A) : Settled cfg h s i A

/-- Set `k` of core `i`'s cache is the one that LRU makes of the core's accesses. -/
def LruInv (cfg : Config) (i : Fin n) (k : Nat) (h : List (Move (Simulator S n) (Event n)))
    (s : Simulator S n) : Prop :=
  ∃ A, Settled cfg h s i A ∧ (s.machine.caches i).Follows cfg.geometry k A

/-- A transaction that the move grants leaves the order of set `k` of core `i`'s cache to the
core's accesses: a fill of the core pushes no tag that is there, and the snoop of another
core's transaction promotes none. -/
def LeavesOrder (cfg : Config) (i : Fin n) (k : Nat) (m : Move (Simulator S n) (Event n)) : Prop :=
  ∀ req, grantOf cfg m = some req → cfg.geometry.setIdx req.addr = k →
    (req.coreId = i → req.type ≠ .busUpgr →
      m.before.machine.line i (cfg.geometry.block req.addr) = none) ∧
    (req.coreId ≠ i → (m.before.machine.caches i).AbsentOrFront cfg.geometry req.addr)

instance (cfg : Config) (i : Fin n) (k : Nat) (m : Move (Simulator S n) (Event n)) :
    Decidable (LeavesOrder cfg i k m) :=
  inferInstanceAs (Decidable (∀ req ∈ grantOf cfg m, cfg.geometry.setIdx req.addr = k →
    (req.coreId = i → req.type ≠ .busUpgr →
      m.before.machine.line i (cfg.geometry.block req.addr) = none) ∧
    (req.coreId ≠ i → m.before.machine.line i (cfg.geometry.block req.addr) = none ∨
      ((m.before.machine.caches i).sets (cfg.geometry.setIdx req.addr)).lruOrder.head? =
        some (cfg.geometry.tag req.addr))))

variable {cfg : Config} {h h' : List (Move (Simulator S n) (Event n))} {s s' : Simulator S n}
  {e : Event n} {i j : Fin n} {k t : Nat} {A : List Block}

theorem accesses_of_none {m : Move (Simulator S n) (Event n)} (hm : accessOf cfg i m = none) :
    accesses cfg i (m :: h) = accesses cfg i h := by
  rw [accesses, List.filterMap_cons_none hm]
  rfl

theorem accesses_of_some {m : Move (Simulator S n) (Event n)} {b : Block}
    (hm : accessOf cfg i m = some b) : accesses cfg i (m :: h) = b :: accesses cfg i h := by
  rw [accesses, List.filterMap_cons_some hm]
  rfl

theorem accessOf_self {entry : TraceEntry} {rest : List TraceEntry} (running : s.blocked i = false)
    (read : s.traces i = entry :: rest) (label : entry.label ≠ 2) :
    accessOf cfg i ⟨s, .fetch t i, s'⟩ = some (cfg.geometry.block entry.val) := by
  rw [accessOf, executedBy_read running read, if_pos rfl]
  simp [label]

theorem accessOf_compute {entry : TraceEntry} {rest : List TraceEntry}
    (running : s.blocked j = false) (read : s.traces j = entry :: rest) (label : entry.label = 2)
    (i : Fin n) : accessOf cfg i ⟨s, .fetch t j, s'⟩ = none := by
  rw [accessOf, executedBy_read running read]
  split <;> simp [label]

theorem accessOf_idle (h : s.blocked j = true ∨ s.traces j = []) (i : Fin n) :
    accessOf cfg i ⟨s, .fetch t j, s'⟩ = none := by
  rw [accessOf, executedBy_idle h]
  rfl

theorem accessOf_other (hij : i ≠ j) : accessOf cfg i ⟨s, .fetch t j, s'⟩ = none := by
  simp [accessOf, executedBy, Ne.symm hij]

theorem fetch_of_executedBy {m : Move (Simulator S n) (Event n)} {entry : TraceEntry}
    (hentry : executedBy i m = some entry) : ∃ t, m.label = .fetch t i := by
  unfold executedBy at hentry
  split at hentry
  · rename_i t j hlabel
    split at hentry
    · rename_i hcore
      exact ⟨t, by rw [hlabel, hcore.1]⟩
    · simp at hentry
  · simp at hentry

/-- What concerns core `i` has not changed. -/
theorem Settled.keep (hA : Settled cfg h s i A) (haccesses : accesses cfg i h' = accesses cfg i h)
    (hqueue : ∀ req : BusRequest n, req.coreId = i → (req ∈ s'.busQueue ↔ req ∈ s.busQueue))
    (hlines : ∀ b, (s'.machine.line i b).isSome = (s.machine.line i b).isSome) :
    Settled cfg h' s' i A := by
  cases hA with
  | done present =>
    rw [← haccesses]
    apply Settled.done
    intro req hreq hcore
    rw [hlines, haccesses]
    exact present req ((hqueue req hcore).mp hreq) hcore
  | waiting queued core absent last =>
    refine .waiting ((hqueue _ core).mpr queued) core ?_ (haccesses.trans last)
    rw [← Option.not_isSome_iff_eq_none, hlines, absent]
    simp

/-- A core without a request has no access that waits. -/
theorem Settled.eq_accesses (hA : Settled cfg h s i A)
    (hidle : ∀ req ∈ s.busQueue, req.coreId ≠ i) : A = accesses cfg i h := by
  cases hA with
  | done => rfl
  | waiting queued core _ _ => exact absurd core (hidle _ queued)

/-- The access of a request that finds an entry has reached the cache. -/
theorem Settled.of_present {req : BusRequest n} (hA : Settled cfg h s req.coreId A)
    (htok : s.TokenInv) (hreq : req ∈ s.busQueue)
    (hsome : (s.machine.line req.coreId (cfg.geometry.block req.addr)).isSome) :
    A = accesses cfg req.coreId h ∧ A.head? = some (cfg.geometry.block req.addr) := by
  cases hA with
  | done present => exact ⟨rfl, (present req hreq rfl).2⟩
  | waiting queued core absent last =>
    obtain rfl := htok.request_eq hreq queued core
    rw [absent] at hsome
    simp at hsome

/-- That of a request without an entry is still to come. -/
theorem Settled.of_absent {req : BusRequest n} (hA : Settled cfg h s req.coreId A)
    (htok : s.TokenInv) (hreq : req ∈ s.busQueue)
    (habsent : s.machine.line req.coreId (cfg.geometry.block req.addr) = none) :
    accesses cfg req.coreId h = cfg.geometry.block req.addr :: A := by
  cases hA with
  | done present =>
    obtain ⟨hsome, -⟩ := present req hreq rfl
    rw [habsent] at hsome
    simp at hsome
  | waiting queued core absent last => rw [last, htok.request_eq hreq queued core]

/-- The access of a request that is granted a fill has reached the cache then. -/
theorem Settled.filled {req : BusRequest n} {cache : Cache S} (hA : Settled cfg h s req.coreId A)
    (htok : s.TokenInv) (hreq : req ∈ s.busQueue)
    (habsent : cfg.geometry.setIdx req.addr = k →
      s.machine.line req.coreId (cfg.geometry.block req.addr) = none)
    (hfollows : cache.Follows cfg.geometry k (cfg.geometry.block req.addr :: A)) :
    cache.Follows cfg.geometry k (accesses cfg req.coreId h) := by
  by_cases hk : cfg.geometry.setIdx req.addr = k
  · rw [hA.of_absent htok hreq (habsent hk)]
    exact hfollows
  · cases hA with
    | done present => exact (Cache.Follows.cons_iff_of_ne hk).mp hfollows
    | waiting queued core absent last =>
      rw [last, ← htok.request_eq hreq queued core]
      exact hfollows

theorem lruInv_start (cfg : Config) (traces : Fin n → List TraceEntry) (i : Fin n) (k : Nat) :
    LruInv cfg i k [] (start traces : Simulator S n) := by
  refine ⟨[], .done ?_, Cache.Follows.empty _ _⟩
  intro req hreq
  simp [start] at hreq

theorem LruInv.quiet (hinv : LruInv cfg i k h s) (hcaches : s'.machine.caches = s.machine.caches)
    (hqueue : s'.busQueue = s.busQueue) (hnone : ∀ i, accessOf cfg i ⟨s, e, s'⟩ = none) :
    LruInv cfg i k (⟨s, e, s'⟩ :: h) s' := by
  obtain ⟨A, hA, hfollows⟩ := hinv
  refine ⟨A, hA.keep (accesses_of_none (hnone i)) ?_ ?_, ?_⟩
  · intro req _
    rw [hqueue]
  · intro b
    rw [Machine.line, hcaches]
    rfl
  · rw [hcaches]
    exact hfollows

variable [LineState S] {R : ProtocolRules S}

theorem access_cache {entry : TraceEntry}
    (hfound : ((s.machine.caches i).getLine cfg.geometry entry.val).2.Follows cfg.geometry k A) :
    ((s.access cfg R i entry).2.caches i).Follows cfg.geometry k A :=
  request_cache _ _ _ _ _ _ hfound

theorem access_cache_other {entry : TraceEntry} (hij : i ≠ j) :
    (s.access cfg R j entry).2.caches i = s.machine.caches i := by
  obtain ⟨cache, hcaches, -⟩ := handleProcessorRequest_caches R cfg.geometry
    (s.machine.updStats j fun st => if entry.isWrite then { st with storeCount := st.storeCount + 1 }
      else { st with loadCount := st.loadCount + 1 }) j entry.val entry.isWrite
  rw [access, hcaches, Function.update_of_ne hij]
  rfl

theorem access_isSome {entry : TraceEntry}
    (hcaches : s'.machine.caches = (s.access cfg R j entry).2.caches) (i : Fin n) (b : Block) :
    (s'.machine.line i b).isSome = (s.machine.line i b).isSome := by
  have haccess := access_line cfg R s j entry i b
  rw [Machine.line] at haccess
  rw [Machine.line, hcaches, haccess]
  split <;> simp

section
variable {entry : TraceEntry} {new : List (BusRequest n)}
  (hcaches : s'.machine.caches = (s.access cfg R j entry).2.caches)
  (hqueue : s'.busQueue = s.busQueue ++ new)
  (hnew : ∀ req ∈ new, req.coreId = j ∧ req.addr = entry.val)
include hcaches hqueue hnew

/-- An access that hits, or that misses and queues a request for its block. -/
theorem access_settled (hidle : ∀ req ∈ s.busQueue, req.coreId ≠ j)
    (hnow : accesses cfg j h' = cfg.geometry.block entry.val :: accesses cfg j h)
    (hmiss : s.machine.line j (cfg.geometry.block entry.val) = none → ∃ req, req ∈ new)
    (hfollows : (s.machine.caches j).Follows cfg.geometry k (accesses cfg j h)) :
    ∃ A, Settled cfg h' s' j A ∧ (s'.machine.caches j).Follows cfg.geometry k A := by
  rw [hcaches]
  cases hline : s.machine.line j (cfg.geometry.block entry.val) with
  | none =>
    -- `find` returns nothing: the block enters the list with the fill
    obtain ⟨req, hreq⟩ := hmiss hline
    obtain ⟨hcore, haddr⟩ := hnew req hreq
    rw [← haddr] at hnow
    refine ⟨accesses cfg j h, .waiting ?_ hcore ?_ hnow, access_cache ?_⟩
    · rw [hqueue]
      exact List.mem_append_right _ hreq
    · rw [haddr, ← Option.not_isSome_iff_eq_none, access_isSome hcaches, hline]
      simp
    · rw [Cache.getLine_of_none hline]
      exact hfollows
  | some line =>
    have hsome : (s.machine.line j (cfg.geometry.block entry.val)).isSome := by
      rw [hline]
      rfl
    refine ⟨accesses cfg j h', .done ?_, ?_⟩
    · intro req hreq hcore
      rw [hqueue] at hreq
      rcases List.mem_append.mp hreq with hold | hreq
      · exact absurd hcore (hidle req hold)
      · rw [(hnew req hreq).2, access_isSome hcaches, hnow]
        exact ⟨hsome, rfl⟩
    · rw [hnow]
      exact access_cache (hfollows.access fun _ => hsome)

theorem LruInv.access (hinv : LruInv cfg i k h s) (htok : s.TokenInv)
    (he : .fetch t j ∈ s.eventQueue) {rest : List TraceEntry} (running : s.blocked j = false)
    (read : s.traces j = entry :: rest) (label : entry.label ≠ 2)
    (hmiss : s.machine.line j (cfg.geometry.block entry.val) = none → ∃ req, req ∈ new) :
    LruInv cfg i k (⟨s, .fetch t j, s'⟩ :: h) s' := by
  obtain ⟨A, hA, hfollows⟩ := hinv
  by_cases hij : i = j
  · subst hij
    have hidle : ∀ req ∈ s.busQueue, req.coreId ≠ i := fun req hreq =>
      Ne.symm (htok.fetch_not_waiting he hreq)
    obtain rfl := hA.eq_accesses hidle
    exact access_settled hcaches hqueue hnew hidle
      (accesses_of_some (accessOf_self running read label)) hmiss hfollows
  · refine ⟨A, hA.keep (accesses_of_none (accessOf_other hij)) ?_ (access_isSome hcaches i), ?_⟩
    · intro req hcore
      rw [hqueue, List.mem_append]
      constructor
      · intro hreq
        rcases hreq with hreq | hreq
        · exact hreq
        · exact absurd (hcore.symm.trans (hnew req hreq).1) hij
      · exact .inl
    · rw [hcaches, access_cache_other hij]
      exact hfollows

end

/-- A granted transaction completes the access of its core and leaves the others alone. -/
theorem LruInv.grant (hlru : R.replacement = LRUCacheSet.replacement) (hinv : LruInv cfg i k h s)
    (htok : s.TokenInv) {req : BusRequest n} (hreq : req ∈ s.busQueue) {latency : Nat}
    {machine : Machine S n} (hbus : handleBusTransaction R cfg.geometry s.machine req.coreId
      req.type req.addr = some (latency, machine))
    (habsent : req.coreId = i → req.type ≠ .busUpgr → cfg.geometry.setIdx req.addr = k →
      s.machine.line i (cfg.geometry.block req.addr) = none)
    (hquiet : req.coreId ≠ i → cfg.geometry.setIdx req.addr = k →
      (s.machine.caches i).AbsentOrFront cfg.geometry req.addr)
    (hmachine : s'.machine = machine) (hqueue : s'.busQueue = s.busQueue.erase req)
    (hnone : accessOf cfg i ⟨s, e, s'⟩ = none) : LruInv cfg i k (⟨s, e, s'⟩ :: h) s' := by
  subst hmachine
  obtain ⟨A, hA, hfollows⟩ := hinv
  by_cases hi : req.coreId = i
  · subst hi
    have hidle : ∀ req' ∈ s'.busQueue, req'.coreId ≠ req.coreId := by
      rw [hqueue]
      exact fun req' => htok.request_unique hreq
    have hdone : Settled cfg (⟨s, e, s'⟩ :: h) s' req.coreId (accesses cfg req.coreId h) := by
      rw [← accesses_of_none hnone]
      exact .done fun req' hreq' hcore => absurd hcore (hidle req' hreq')
    refine ⟨_, hdone, ?_⟩
    rcases bus_spec (htok.types req hreq) hbus with ⟨hu, hspec⟩ | ⟨hfill, -⟩
    · -- the entry was touched when the store was fetched, and is still at the front
      obtain ⟨rfl, hlast⟩ := hA.of_present htok hreq hspec.present
      rw [hu] at hbus
      exact upgrade_cache hbus hfollows hlast
    · have hu := BusTransactionType.ne_busUpgr_of_fill hfill
      exact hA.filled htok hreq (habsent rfl hu)
        (fill_cache hlru (htok.types req hreq).ne_writeback hu hbus hfollows (habsent rfl hu))
  · refine ⟨A, hA.keep (accesses_of_none hnone) ?_ ?_, ?_⟩
    · intro req' hcore
      rw [hqueue]
      have hne : req' ≠ req := fun heq => hi (by rw [← heq, hcore])
      exact List.mem_erase_of_ne hne
    · intro b
      have hstate := congrArg Option.isSome
        (lineState_of_bus (htok.types req hreq) hbus (Ne.symm hi) b)
      rw [Machine.lineState, Option.isSome_map] at hstate
      rw [hstate]
      split <;> simp [Machine.lineState]
    · exact bus_cache_other hbus (Ne.symm hi) hfollows (hquiet hi)

theorem lruInv_fired (hlru : R.replacement = LRUCacheSet.replacement) (htok : s.TokenInv)
    (he : e ∈ s.eventQueue) (hleaves : LeavesOrder cfg i k ⟨s, e, s'⟩) (hinv : LruInv cfg i k h s)
    (hf : Fired cfg R (s.pop e) e s') : LruInv cfg i k (⟨s, e, s'⟩ :: h) s' := by
  cases hf with
  | @grant t req latency machine free first bus =>
    have hgrant : grantOf cfg ⟨s, .busArbitration t,
        (s.pop (.busArbitration t)).granted t req latency machine⟩ = some req :=
      grantOf_grant _ free first
    have hset := hleaves req hgrant
    exact hinv.grant hlru htok (minElement_mem first) bus (fun hi hu hk => (hset hk).1 hi hu)
      (fun hi hk => (hset hk).2 hi) rfl rfl rfl
  | @hit t j entry rest running read label resp =>
    refine LruInv.access rfl (List.append_nil _).symm ?_ hinv htok he running read label ?_
    · simp
    · intro hnone
      rw [pop_machine, Machine.state_eq, hnone] at resp
      simp [respond] at resp
  | @miss t j entry rest running read label resp =>
    refine LruInv.access rfl rfl ?_ hinv htok he running read label ?_
    · intro req hreq
      obtain rfl := List.mem_singleton.mp hreq
      exact ⟨rfl, rfl⟩
    · intro _
      exact ⟨_, List.mem_singleton_self _⟩
  | compute running read label => exact hinv.quiet rfl rfl (accessOf_compute running read label)
  | stalled blocked => exact hinv.quiet rfl rfl (accessOf_idle (.inl blocked))
  | exhausted running done => exact hinv.quiet rfl rfl (accessOf_idle (.inr done))
  | _ => exact hinv.quiet rfl rfl fun _ => rfl

theorem lruInv_run (hR : R.MissFills) (hlru : R.replacement = LRUCacheSet.replacement)
    {traces : Fin n → List TraceEntry} (hr : (system cfg R traces).Run h s) {i : Fin n} {k : Nat}
    (hmoves : ∀ m ∈ h, LeavesOrder cfg i k m) : LruInv cfg i k h s := by
  revert hmoves
  refine hr.history (K := fun h s => (∀ m ∈ h, LeavesOrder cfg i k m) → LruInv cfg i k h s)
    (fun s => tokenInv_reached hR) ?_ ?_
  · intro s hs _
    subst hs
    exact lruInv_start cfg traces i k
  · intro h s e s' hstep htok ih hmoves
    obtain ⟨he, -, hf⟩ := fired_of_step hstep
    exact lruInv_fired hlru htok he (hmoves _ List.mem_cons_self)
      (ih fun m hm => hmoves m (List.mem_cons_of_mem _ hm)) hf

end Simulator

theorem ProtocolName.lru {p : ProtocolName} (hp : p ≠ .smart) :
    p.rules.replacement = LRUCacheSet.replacement := by
  cases p with
  | smart => exact absurd rfl hp
  | _ => rfl

/-- The block that LRU gives up is the last one of the recency list. -/
theorem victim_order [LineState S] {R : ProtocolRules S} (hlru : R.replacement = LRUCacheSet.replacement)
    {g : Geometry} {m : Machine S n} {r : Fin n} {addr : Addr} {v : Block}
    (hv : m.victim R g r addr = some v) :
    v.set = g.setIdx addr ∧ ((m.caches r).order (g.setIdx addr)).getLast? = some v := by
  obtain ⟨hset, -, hentry⟩ := Machine.victim_entry hv
  refine ⟨hset, ?_⟩
  rw [hlru] at hentry
  rw [Cache.order, List.getLast?_map, List.getLast?_eq_getElem?]
  refine (congrArg (Option.map _) hentry).trans ?_
  rw [Option.map_some, ← hset]

namespace Simulator

/-- If no snoop and no fill has disturbed the recency list of the set, the line that a fill
evicts from it is the one its core has not accessed for longest: every other entry of the set
has been accessed since. It is determined by the accesses of that core alone. -/
theorem victim_least_recent (p : ProtocolName) (hp : p ≠ .smart) (cfg : Config)
    (traces : Fin n → List TraceEntry) {earlier : List (Move (Simulator p.State n) (Event n))}
    {m : Move (Simulator p.State n) (Event n)} {s : Simulator p.State n}
    (hr : (system cfg p.rules traces).Run (m :: earlier) s) {req : BusRequest n}
    (hgrant : grantOf cfg m = some req) (hfill : req.type ≠ .busUpgr)
    (hmoves : ∀ m' ∈ m :: earlier,
      LeavesOrder cfg req.coreId (cfg.geometry.setIdx req.addr) m') {v : Block}
    (hv : m.before.machine.victim p.rules cfg.geometry req.coreId req.addr = some v) :
    (m.before.machine.line req.coreId v).isSome ∧ v ∈ accesses cfg req.coreId earlier ∧
      (∀ b, b.set = v.set → b ≠ v → (m.before.machine.line req.coreId b).isSome →
        b ∈ (accesses cfg req.coreId earlier).takeWhile (· ≠ v)) ∧
      (lruSet cfg.geometry.assoc (accesses cfg req.coreId earlier).tail v.set).getLast? = some v := by
  obtain ⟨hrun, -⟩ := hr.last
  obtain ⟨hset, hback⟩ := victim_order (ProtocolName.lru hp) hv
  rw [← hset] at hmoves hback
  obtain ⟨A, hA, hfollows⟩ := lruInv_run p.missFills (ProtocolName.lru hp) hrun
    fun m' hm' => hmoves m' (List.mem_cons_of_mem _ hm')
  have hreq := grantOf_mem hgrant
  have habsent : m.before.machine.line req.coreId (cfg.geometry.block req.addr) = none :=
    (hmoves m List.mem_cons_self req hgrant hset.symm).1 rfl hfill
  have hlast : accesses cfg req.coreId earlier = cfg.geometry.block req.addr :: A :=
    hA.of_absent (tokenInv_reached p.missFills hrun.reached) hreq habsent
  rw [hfollows.order] at hback
  have hmem : v ∈ lruSet cfg.geometry.assoc A v.set := List.mem_of_getLast? hback
  have hline : (m.before.machine.line req.coreId v).isSome := hfollows.mem_iff.mpr hmem
  have hne : cfg.geometry.block req.addr ≠ v := by
    intro heq
    rw [← heq, habsent] at hline
    simp at hline
  rw [hlast]
  refine ⟨hline, ?_, ?_, hback⟩
  · exact List.mem_cons_of_mem _ (mem_lruSet_iff.mp hmem).1
  · intro b hb hbv hline
    rw [List.takeWhile_cons_of_pos (by simpa using hne)]
    refine List.mem_cons_of_mem _ (lruSet_last hback ?_ hbv)
    rw [← hb] at hfollows ⊢
    exact hfollows.mem_iff.mp hline

/-- Core 0 loads the blocks 0, 1 and 2; core 1 loads one of them before the last. -/
def loadedMeanwhile (addr : Addr) (i : Fin 2) : List TraceEntry :=
  if i = 0 then [⟨0, 0⟩, ⟨0, 4⟩, ⟨2, 200⟩, ⟨0, 8⟩] else [⟨2, 250⟩, ⟨0, addr⟩]

def loadedMeanwhileEvents : List (Event 2) :=
  [.fetch 0 0, .busArbitration 0, .fetch 0 1, .busRelease 101, .coreUnblock 101 0, .fetch 101 0,
    .busArbitration 101, .busRelease 202, .coreUnblock 202 0, .fetch 202 0, .fetch 250 1,
    .busArbitration 250, .busRelease 253, .coreUnblock 253 1, .fetch 253 1, .fetch 402 0,
    .busArbitration 402]

/-- Core 1 loads block 1, which is at the front of core 0's set: block 0 is evicted. -/
theorem victim_least_recent_front :
    ∃ (earlier : List (Move (Simulator MESIState 2) (Event 2)))
      (m : Move (Simulator MESIState 2) (Event 2)),
      (system tinyConfig (ProtocolName.rules .mesi) (loadedMeanwhile 4)).Run (m :: earlier) m.after ∧
      grantOf tinyConfig m = some ⟨0, .busRd, 8, 402⟩ ∧
      m.before.machine.victim mesi tinyConfig.geometry 0 8 = some ⟨0, 0⟩ ∧
      ∀ b : Block, b.set = 0 → b ≠ ⟨0, 0⟩ → (m.before.machine.line 0 b).isSome →
        b ∈ (accesses tinyConfig 0 earlier).takeWhile (· ≠ ⟨0, 0⟩) := by
  obtain ⟨earlier, m, hr, ht⟩ := exists_last_move tinyConfig (ProtocolName.rules .mesi)
    (loadedMeanwhile 4) loadedMeanwhileEvents
    (fun earlier (m : Move (Simulator MESIState 2) (Event 2)) =>
      grantOf tinyConfig m == some ⟨0, .busRd, 8, 402⟩ &&
      m.before.machine.victim mesi tinyConfig.geometry 0 8 == some ⟨0, 0⟩ &&
      decide (∀ m' ∈ m :: earlier, LeavesOrder tinyConfig 0 0 m'))
    (by decide +kernel)
  simp only [Bool.and_eq_true, beq_iff_eq, decide_eq_true_eq] at ht
  obtain ⟨⟨hgrant, hv⟩, hmoves⟩ := ht
  obtain ⟨-, -, holder, -⟩ := victim_least_recent .mesi (by decide) tinyConfig (loadedMeanwhile 4)
    hr hgrant (by decide) hmoves hv
  exact ⟨earlier, m, hr, hgrant, hv, holder⟩

/-- Core 1 loads block 0 instead. The snoop moves it to the front of core 0's set, and block 1
is evicted although core 0 has accessed block 0 before block 1. -/
theorem snoop_changes_victim :
    ∃ (earlier : List (Move (Simulator MESIState 2) (Event 2)))
      (m : Move (Simulator MESIState 2) (Event 2)),
      (system tinyConfig (ProtocolName.rules .mesi) (loadedMeanwhile 0)).Run (m :: earlier) m.after ∧
      grantOf tinyConfig m = some ⟨0, .busRd, 8, 402⟩ ∧
      m.before.machine.victim mesi tinyConfig.geometry 0 8 = some ⟨0, 1⟩ ∧
      (m.before.machine.line 0 ⟨0, 0⟩).isSome ∧ (m.before.machine.line 0 ⟨0, 1⟩).isSome ∧
      accesses tinyConfig 0 earlier = [⟨0, 2⟩, ⟨0, 1⟩, ⟨0, 0⟩] ∧
      ⟨0, 0⟩ ∉ (accesses tinyConfig 0 earlier).takeWhile (· ≠ ⟨0, 1⟩) := by
  obtain ⟨earlier, m, hr, ht⟩ := exists_last_move tinyConfig (ProtocolName.rules .mesi)
    (loadedMeanwhile 0) loadedMeanwhileEvents
    (fun earlier (m : Move (Simulator MESIState 2) (Event 2)) =>
      grantOf tinyConfig m == some ⟨0, .busRd, 8, 402⟩ &&
      m.before.machine.victim mesi tinyConfig.geometry 0 8 == some ⟨0, 1⟩ &&
      (m.before.machine.line 0 ⟨0, 0⟩).isSome && (m.before.machine.line 0 ⟨0, 1⟩).isSome &&
      accesses tinyConfig 0 earlier == [⟨0, 2⟩, ⟨0, 1⟩, ⟨0, 0⟩]) (by decide +kernel)
  simp only [Bool.and_eq_true, beq_iff_eq] at ht
  obtain ⟨⟨⟨⟨hgrant, hv⟩, hzero⟩, hone⟩, haccesses⟩ := ht
  have holder : (⟨0, 0⟩ : Block) ∉ (accesses tinyConfig 0 earlier).takeWhile (· ≠ ⟨0, 1⟩) := by
    rw [haccesses]
    decide
  exact ⟨earlier, m, hr, hgrant, hv, hzero, hone, haccesses, holder⟩

end Simulator
end CoherenceFormal
