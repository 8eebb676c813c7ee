import CoherenceFormal.CacheSet

/-!
# Geometry and caches

`MESICache` and its four copies. A `Geometry` is one the constructors accept
without undefined behaviour: positive sizes in the range of `int` and at least one
set. The number of sets need not be a power of two, although the set mask and the
tag shift are only the textbook ones when it is.
-/

namespace CoherenceFormal
open FiniteMap LineState
set_option autoImplicit false

structure Geometry where
  csize : Nat
  assoc : Nat
  bsize : Nat
  assoc_pos : 0 < assoc
  bsize_pos : 0 < bsize
  fits : assoc * bsize ≤ csize
  csize_lt : csize < 2 ^ 31

def ctzFrom : Nat → Nat → Nat
  | 0, _ => 0
  | fuel + 1, x => if x % 2 = 1 then 0 else ctzFrom fuel (x / 2) + 1

/-- `__builtin_ctz` on a positive 32-bit value. -/
def builtinCtz (x : Nat) : Nat := ctzFrom 32 x

/-- The place of a block in a cache. -/
structure Block where
  set : Nat
  tag : Nat
  deriving Repr, DecidableEq

namespace Geometry
variable (g : Geometry)

def numSets : Nat := g.csize / (g.assoc * g.bsize)
def setBits : Nat := builtinCtz g.numSets
def offsetBits : Nat := builtinCtz g.bsize
def setIdx (addr : Addr) : Nat := (addr.toNat >>> g.offsetBits) &&& (g.numSets - 1)
def tag (addr : Addr) : Nat := addr.toNat >>> (g.offsetBits + g.setBits)
def block (addr : Addr) : Block := ⟨g.setIdx addr, g.tag addr⟩

theorem numSets_pos : 0 < g.numSets :=
  Nat.div_pos g.fits (Nat.mul_pos g.assoc_pos g.bsize_pos)

/-- The index never leaves `sets`, whatever the number of sets. -/
theorem setIdx_lt (addr : Addr) : g.setIdx addr < g.numSets := by
  have hle : g.setIdx addr ≤ g.numSets - 1 := Nat.and_le_right
  have hpos := g.numSets_pos
  omega

end Geometry

/-- Sets beyond `numSets` do not exist in the source; by `setIdx_lt` they are
never touched here. -/
structure Cache (S : Type) where
  sets : Nat → CacheSet S

variable {S : Type} [LineState S]

namespace Cache

def empty : Cache S := ⟨fun _ => CacheSet.empty⟩

def setAt (cache : Cache S) (i : Nat) (set : CacheSet S) : Cache S :=
  ⟨Function.update cache.sets i set⟩

def getLine (g : Geometry) (cache : Cache S) (addr : Addr) : Option (CacheLine S) × Cache S :=
  let (line, set) := (cache.sets (g.setIdx addr)).find (g.tag addr)
  (line, cache.setAt (g.setIdx addr) set)

/-- `line->state = state` for the pointer `getLine` returned. -/
def setLineState (g : Geometry) (cache : Cache S) (addr : Addr) (state : S) : Cache S :=
  cache.setAt (g.setIdx addr) ((cache.sets (g.setIdx addr)).setState (g.tag addr) state)

def allocate (r : Replacement S) (g : Geometry) (cache : Cache S) (addr : Addr) :
    Option (Cache S × Option (CacheLine S)) :=
  (r.allocate g.assoc (cache.sets (g.setIdx addr)) (g.tag addr)).map fun (set, evicted) =>
    (cache.setAt (g.setIdx addr) set, evicted)

/-! ### The lines of a cache, by block -/

def line (cache : Cache S) (b : Block) : Option (CacheLine S) :=
  (cache.sets b.set).lines.lookup b.tag

/-- A missing line and an INVALID one are both no copy. -/
def state (cache : Cache S) (b : Block) : S :=
  ((cache.line b).map CacheLine.state).getD invalid

/-- The block whose entry `allocate` takes out of a full set. -/
def victim (r : Replacement S) (g : Geometry) (cache : Cache S) (addr : Addr) : Option Block :=
  let set := cache.sets (g.setIdx addr)
  if g.assoc ≤ size set.lines then
    set.lruOrder[r.victimPos set]?.map (Block.mk (g.setIdx addr))
  else none

omit [LineState S] in
@[simp] theorem sets_setAt_self (cache : Cache S) (k : Nat) (set : CacheSet S) :
    (cache.setAt k set).sets k = set := by
  simp [setAt]

omit [LineState S] in
theorem sets_setAt_of_ne (cache : Cache S) {j k : Nat} (h : j ≠ k) (set : CacheSet S) :
    (cache.setAt k set).sets j = cache.sets j := by
  simp [setAt, h]

omit [LineState S] in
theorem line_setAt (cache : Cache S) (i : Nat) (set : CacheSet S) (b : Block) :
    (cache.setAt i set).line b = if b.set = i then set.lines.lookup b.tag else cache.line b := by
  simp only [line, setAt, Function.update_apply]
  split <;> rfl

omit [LineState S] in
@[simp] theorem getLine_fst (g : Geometry) (cache : Cache S) (addr : Addr) :
    (cache.getLine g addr).1 = cache.line (g.block addr) :=
  CacheSet.find_line _ _

omit [LineState S] in
@[simp] theorem line_getLine (g : Geometry) (cache : Cache S) (addr : Addr) (b : Block) :
    (cache.getLine g addr).2.line b = cache.line b := by
  simp only [getLine, line_setAt, CacheSet.find_lines]
  split
  · rename_i h
    rw [line, h]
  · rfl

omit [LineState S] in
theorem line_setLineState (g : Geometry) (cache : Cache S) (addr : Addr) (st : S) (b : Block) :
    (cache.setLineState g addr st).line b =
      if b = g.block addr then (cache.line b).map ({ · with state := st }) else cache.line b := by
  obtain ⟨i, t⟩ := b
  simp only [setLineState, line_setAt, CacheSet.setState, lookup_modify, Geometry.block,
    Block.mk.injEq]
  by_cases hi : i = g.setIdx addr
  · subst hi
    simp [line]
  · simp [hi]

/-- The lines after `allocate`: the new one, and the victim gone. -/
theorem line_allocate {r : Replacement S} {g : Geometry} {cache cache' : Cache S} {addr : Addr}
    {evicted : Option (CacheLine S)} (h : cache.allocate r g addr = some (cache', evicted)) :
    evicted = (cache.victim r g addr).map (fun v => (cache.line v).getD blankLine) ∧
      ∀ b, cache'.line b = if b = g.block addr then some ⟨g.tag addr, invalid⟩
        else if cache.victim r g addr = some b then none else cache.line b := by
  obtain ⟨⟨set, ev⟩, hset, heq⟩ := Option.map_eq_some_iff.mp h
  simp only [Prod.mk.injEq] at heq
  obtain ⟨rfl, rfl⟩ := heq
  rw [r.allocate_eq] at hset
  simp only [victim]
  split at hset
  · rename_i hfull
    simp only [if_pos hfull]
    obtain ⟨v, hv, heq⟩ := Option.map_eq_some_iff.mp hset
    simp only [Prod.mk.injEq] at heq
    obtain ⟨rfl, rfl⟩ := heq
    rw [hv]
    refine ⟨rfl, ?_⟩
    rintro ⟨i, t⟩
    simp only [line_setAt, CacheSet.install, lookup_insert_eq, lookup_erase_eq, Geometry.block,
      Block.mk.injEq, Option.map_some, Option.some.injEq]
    by_cases hi : i = g.setIdx addr
    · subst hi
      simp [line, eq_comm (a := t)]
    · simp [hi, Ne.symm hi]
  · rename_i hfree
    simp only [if_neg hfree]
    simp only [Option.some.injEq, Prod.mk.injEq] at hset
    obtain ⟨rfl, rfl⟩ := hset
    refine ⟨rfl, ?_⟩
    rintro ⟨i, t⟩
    simp only [line_setAt, CacheSet.install, lookup_insert_eq, Geometry.block, Block.mk.injEq]
    by_cases hi : i = g.setIdx addr
    · subst hi
      simp [line]
    · simp [hi]

/-- `allocate` without a victim has found room in the set. -/
theorem room_of_allocate {r : Replacement S} {g : Geometry} {cache : Cache S} {addr : Addr}
    {result : Cache S × Option (CacheLine S)} (h : cache.allocate r g addr = some result)
    (hv : cache.victim r g addr = none) :
    size (cache.sets (g.setIdx addr)).lines < g.assoc := by
  by_contra hfull
  have hfull := Nat.not_lt.mp hfull
  obtain ⟨set, hset, -⟩ := Option.map_eq_some_iff.mp h
  rw [r.allocate_eq, if_pos hfull, CacheSet.evictAt] at hset
  simp only [victim, if_pos hfull, Option.map_eq_none_iff] at hv
  simp [hv] at hset

end Cache
end CoherenceFormal
