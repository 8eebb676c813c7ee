import CoherenceFormal.WaitingRequests

/-!
# The recency list covers the lines

`lru_order` may name a tag twice or name one that has no line, but it never misses
a tag that has a line. So a full set always has a back entry to evict, and the
only handler call left that could be undefined is an upgrade without a line.
-/

namespace CoherenceFormal
open LineState FiniteMap
set_option autoImplicit false

variable {S : Type}

/-- Every tag that has a line is in the recency list. -/
def CacheSet.Listed (set : CacheSet S) : Prop :=
  ∀ tag, (set.lines.lookup tag).isSome → tag ∈ set.lruOrder

namespace CacheSet.Listed

theorem find {set : CacheSet S} (h : set.Listed) (tag : Nat) : (set.find tag).2.Listed := by
  unfold CacheSet.find
  split
  · exact h
  · intro a ha
    by_cases hat : a = tag
    · simp [hat]
    · exact List.mem_cons_of_mem _ (List.mem_filter.mpr ⟨h a ha, by simpa using hat⟩)

theorem setState {set : CacheSet S} (h : set.Listed) (tag : Nat) (st : S) :
    (set.setState tag st).Listed := by
  intro a ha
  apply h a
  rw [CacheSet.setState, lookup_modify] at ha
  split at ha
  · simpa using ha
  · exact ha

theorem empty : (CacheSet.empty : CacheSet S).Listed := by
  intro a ha
  simp [CacheSet.empty] at ha

theorem mem_lruOrder {set : CacheSet S} (h : set.Listed) {key : Nat} (hkey : key ∈ set.lines.keys) :
    key ∈ set.lruOrder :=
  h key (Finmap.lookup_isSome.mpr (Finmap.mem_keys.mp hkey))

theorem size_le {set : CacheSet S} (h : set.Listed) : size set.lines ≤ set.lruOrder.length := by
  have hsub : set.lines.keys ⊆ set.lruOrder.toFinset := by
    intro key hkey
    exact List.mem_toFinset.mpr (h.mem_lruOrder hkey)
  exact (Finset.card_le_card hsub).trans (List.toFinset_card_le _)

/-- A full set has a back entry. -/
theorem ne_nil {set : CacheSet S} (h : set.Listed) {assoc : Nat} (hpos : 0 < assoc)
    (hfull : assoc ≤ size set.lines) : set.lruOrder ≠ [] := by
  have hlen := h.size_le
  apply List.ne_nil_of_length_pos
  omega

variable [LineState S]

theorem install {set : CacheSet S} (h : set.Listed) (tag : Nat) : (set.install tag).Listed := by
  intro a ha
  rw [CacheSet.install, lookup_insert_eq] at ha
  split at ha
  · rename_i hat
    simp [CacheSet.install, hat]
  · exact List.mem_cons_of_mem _ (h a ha)

/-- The eviction removes one occurrence of the victim and the victim's line. -/
theorem allocate {set set' : CacheSet S} (h : set.Listed) {r : Replacement S} {assoc tag : Nat}
    {evicted : Option (CacheLine S)} (ha : r.allocate assoc set tag = some (set', evicted)) :
    set'.Listed := by
  rw [r.allocate_eq] at ha
  split at ha
  · obtain ⟨victim, hv, heq⟩ := Option.map_eq_some_iff.mp ha
    obtain ⟨rfl, -⟩ := Prod.mk.inj heq
    apply install
    intro a ha
    rw [lookup_erase_eq] at ha
    split at ha
    · simp at ha
    · rename_i hne
      have hmem := h a ha
      rw [List.mem_eraseIdx_iff_getElem?]
      obtain ⟨k, hk⟩ := List.mem_iff_getElem?.mp hmem
      refine ⟨k, ?_, hk⟩
      intro hkv
      rw [hkv, hv] at hk
      exact hne (Option.some.inj hk).symm
  · obtain ⟨rfl, -⟩ := Prod.mk.inj (Option.some.inj ha)
    exact h.install tag

/-- `lru_order.back()` is never taken of an empty list. -/
theorem allocate_isSome {set : CacheSet S} (h : set.Listed) (r : Replacement S) {assoc : Nat}
    (hpos : 0 < assoc) (tag : Nat) : (r.allocate assoc set tag).isSome := by
  rw [r.allocate_eq]
  split
  · rename_i hfull
    have hlt := r.victimPos_lt set (h.ne_nil hpos hfull)
    rw [CacheSet.evictAt, List.getElem?_eq_getElem hlt]
    rfl
  · rfl

end CacheSet.Listed

/-- What the three operations of a cache keep. -/
structure CacheLaws [LineState S] (R : ProtocolRules S) (g : Geometry) (P : Cache S → Prop) :
    Prop where
  find : ∀ cache addr, P cache → P (cache.getLine g addr).2
  write : ∀ cache addr st, P cache → P (cache.setLineState g addr st)
  fill : ∀ cache addr cache' evicted, P cache →
    cache.allocate R.replacement g addr = some (cache', evicted) → P cache'

/-- The same for a property that `allocate` keeps only where it is `ready`. -/
structure CacheLawsWhen [LineState S] (R : ProtocolRules S) (g : Geometry) (P : Cache S → Prop)
    (ready : Cache S → Addr → Prop) : Prop where
  find : ∀ cache addr, P cache → P (cache.getLine g addr).2
  write : ∀ cache addr st, P cache → P (cache.setLineState g addr st)
  fill : ∀ cache addr cache' evicted, ready cache addr → P cache →
    cache.allocate R.replacement g addr = some (cache', evicted) → P cache'

theorem CacheLaws.when [LineState S] {R : ProtocolRules S} {g : Geometry} {P : Cache S → Prop}
    (laws : CacheLaws R g P) : CacheLawsWhen R g P fun _ _ => True :=
  ⟨laws.find, laws.write, fun _ _ _ _ _ => laws.fill _ _ _ _⟩

def Cache.Listed (cache : Cache S) : Prop := ∀ k, (cache.sets k).Listed

theorem Cache.Listed.setAt {cache : Cache S} (h : cache.Listed) {set : CacheSet S}
    (hset : set.Listed) (k : Nat) : (cache.setAt k set).Listed := by
  intro j
  change (Function.update cache.sets k set j).Listed
  rw [Function.update_apply]
  split
  · exact hset
  · exact h j

variable [LineState S] {n : Nat}

theorem listed_cacheLaws (R : ProtocolRules S) (g : Geometry) :
    CacheLaws R g (Cache.Listed (S := S)) where
  find := fun cache addr h => h.setAt ((h _).find _) _
  write := fun cache addr st h => h.setAt ((h _).setState _ _) _
  fill := by
    intro cache addr cache' evicted h ha
    obtain ⟨⟨set, ev⟩, hset, heq⟩ := Option.map_eq_some_iff.mp ha
    obtain ⟨rfl, -⟩ := Prod.mk.inj heq
    exact h.setAt ((h _).allocate hset) _

section
variable {R : ProtocolRules S} {g : Geometry} {P : Cache S → Prop} {ready : Cache S → Addr → Prop}
  (laws : CacheLawsWhen R g P ready)
include laws

/-- A property of one cache that the cache operations keep, the handlers keep. -/
theorem CacheLawsWhen.request {m : Machine S n} (h : ∀ i, P (m.caches i)) (id : Fin n) (addr : Addr)
    (isWrite : Bool) (i : Fin n) :
    P ((handleProcessorRequest R g m id addr isWrite).2.caches i) := by
  obtain ⟨cache, hcaches, hfound⟩ := handleProcessorRequest_found R g m id addr isWrite
  have hfind := laws.find _ addr (h id)
  rw [hcaches, Function.update_apply]
  split
  · rcases hfound with rfl | ⟨st, rfl⟩
    · exact hfind
    · exact laws.write _ _ _ hfind
  · exact h i

theorem CacheLawsWhen.snoop {cache : Cache S} (h : P cache) (type : BusTransactionType) (addr : Addr) :
    P (snoopCache R g type addr cache) := by
  have hfind := laws.find _ addr h
  rcases snoopCache_found R g type addr cache with heq | ⟨st, heq⟩
  · rw [heq]
    exact hfind
  · rw [heq]
    exact laws.write _ _ _ hfind

theorem CacheLawsWhen.bus {m m' : Machine S n} (h : ∀ i, P (m.caches i)) {r : Fin n}
    {type : BusTransactionType} {addr : Addr} {latency : Nat}
    (hready : type ≠ .busUpgr → ready (m.caches r) addr)
    (hbus : handleBusTransaction R g m r type addr = some (latency, m')) (i : Fin n) :
    P (m'.caches i) := by
  have snooped (j : Fin n) : P ((snoopAll R g m r type addr).machine.caches j) := by
    rw [snoopAll_caches]
    split
    · exact h j
    · exact laws.snoop (h j) type addr
  have updated {cache : Cache S} (hc : P cache) :
      P (Function.update (snoopAll R g m r type addr).machine.caches r cache i) := by
    rw [Function.update_apply]
    split
    · exact hc
    · exact snooped i
  cases busEffect_of_bus hbus with
  | writeback => exact snooped i
  | upgrade => exact updated (laws.write _ _ _ (laws.find _ _ (h r)))
  | fill _ hu allocated =>
    exact updated (laws.write _ _ _ (laws.fill _ _ _ _ (hready hu) (h r) allocated))

end

def Machine.Listed (m : Machine S n) : Prop := ∀ i, (m.caches i).Listed

omit [LineState S] in
theorem Machine.listed_init : (Machine.init : Machine S n).Listed := fun _ _ => .empty

/-- The handler is defined unless it upgrades a missing line. -/
theorem handleBusTransaction_isSome (R : ProtocolRules S) (g : Geometry) {m : Machine S n}
    (hl : m.Listed) (r : Fin n) (type : BusTransactionType) (addr : Addr)
    (hu : type = .busUpgr → (m.line r (g.block addr)).isSome) :
    (handleBusTransaction R g m r type addr).isSome := by
  simp only [handleBusTransaction, Machine.updGlobal_caches, snoopAll_caches, if_true,
    Cache.getLine_fst]
  split
  · rfl
  · split
    · rename_i htype
      obtain ⟨line, hline⟩ := Option.isSome_iff_exists.mp (hu htype)
      rw [Machine.line] at hline
      simp [hline]
    · have hsome : ((m.caches r).allocate R.replacement g addr).isSome := by
        rw [Cache.allocate, Option.isSome_map]
        exact (hl r _).allocate_isSome R.replacement g.assoc_pos _
      obtain ⟨⟨cache, evicted⟩, ha⟩ := Option.isSome_iff_exists.mp hsome
      simp only [ha]
      split <;> rfl

namespace Simulator
variable {cfg : Config} {R : ProtocolRules S} {traces : Fin n → List TraceEntry}
  {s s' : Simulator S n} {e : Event n}

theorem caches_fired {P : Cache S → Prop} {ready : Cache S → Addr → Prop}
    (laws : CacheLawsWhen R cfg.geometry P ready) (h : ∀ i, P (s.machine.caches i))
    (hready : ∀ req, grantOf cfg ⟨s, e, s'⟩ = some req → req.type ≠ .busUpgr →
      ready (s.machine.caches req.coreId) req.addr)
    (hf : Fired cfg R (s.pop e) e s') (i : Fin n) : P (s'.machine.caches i) := by
  have accessed (t : Nat) (j : Fin n) (entry : TraceEntry) :
      P (((s.pop (.fetch t j)).access cfg R j entry).2.caches i) :=
    laws.request (m := s.machine.updStats j _) h j entry.val entry.isWrite i
  cases hf with
  | grant free first bus => exact laws.bus h (hready _ (grantOf_grant _ free first)) bus i
  | hit => exact accessed _ _ _
  | miss => exact accessed _ _ _
  | _ => exact h i

theorem listed_reached (hr : (system cfg R traces).Reached s) : s.machine.Listed := by
  refine hr.invariant (I := fun s => s.machine.Listed) ?_ ?_
  · rintro s rfl
    exact Machine.listed_init
  · intro s e s' hstep hinv
    obtain ⟨-, -, hf⟩ := fired_of_step hstep
    exact caches_fired (listed_cacheLaws R cfg.geometry).when hinv (fun _ _ _ => trivial) hf

/-- Whatever request is granted, the handler returns. -/
theorem bus_isSome (hR : R.MissFills) (hr : (system cfg R traces).Reached s) {req : BusRequest n}
    (hreq : req ∈ s.busQueue) :
    (handleBusTransaction R cfg.geometry s.machine req.coreId req.type req.addr).isSome := by
  apply handleBusTransaction_isSome R cfg.geometry (listed_reached hr)
  intro htype
  have hknown := waitInv_reached hR (lineKnown_waitLaws hR) hr req hreq
  rw [htype] at hknown
  simpa [lineKnown, Machine.lineState] using hknown

end Simulator
end CoherenceFormal
