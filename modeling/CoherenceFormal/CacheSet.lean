import CoherenceFormal.CoherenceDefs
import CoherenceFormal.Shared.FiniteMap

/-!
# Cache sets

`LRUCacheSet` is the same class in four of the five protocols and differs from
`SmartCacheSet` only in `allocate`. A set keeps two structures that the source
never reconciles: the recency list `lru_order`, front first, and the map `lines`.
The list may name a tag twice, and may name a tag that has no line.

`allocate` returns `none` where the source takes `lru_order.back()` of an empty
list.
-/

namespace CoherenceFormal
open FiniteMap LineState
set_option autoImplicit false

structure CacheLine (S : Type) where
  tag : Nat
  state : S
  deriving Repr, DecidableEq

structure CacheSet (S : Type) where
  lruOrder : List Nat
  lines : FMap Nat (CacheLine S)

variable {S : Type} [LineState S]

/-- What `lines[key]` creates for a missing key. -/
def blankLine : CacheLine S := ⟨0, invalid⟩

namespace CacheSet

def empty : CacheSet S := ⟨[], ∅⟩

def find (set : CacheSet S) (tag : Nat) : Option (CacheLine S) × CacheSet S :=
  match set.lines.lookup tag with
  | none => (none, set)
  | some line => (some line, { set with lruOrder := tag :: set.lruOrder.filter (· ≠ tag) })

/-- The assignment `line->state = state` through a pointer returned for `tag`. -/
def setState (set : CacheSet S) (tag : Nat) (state : S) : CacheSet S :=
  { set with lines := modify set.lines tag fun line => { line with state := state } }

/-- The common tail of both `allocate` functions. -/
def install (set : CacheSet S) (tag : Nat) : CacheSet S :=
  { lruOrder := tag :: set.lruOrder, lines := set.lines.insert tag ⟨tag, invalid⟩ }

end CacheSet

def LRUCacheSet.allocate (assoc : Nat) (set : CacheSet S) (tag : Nat) :
    Option (CacheSet S × Option (CacheLine S)) :=
  if assoc ≤ size set.lines then
    match set.lruOrder.getLast? with
    | none => none
    | some victimTag =>
      let (evicted, lines) := subscript blankLine set.lines victimTag
      let set := { lruOrder := set.lruOrder.dropLast, lines := lines.erase victimTag }
      some (CacheSet.install set tag, some evicted)
  else
    some (set.install tag, none)

namespace SmartCacheSet

/-- The reverse scan for a line that is not MODIFIED. The list runs from
`rbegin()`, the result is the number of steps taken, and `lines[*it]` may insert. -/
def scan (isModified : S → Bool) :
    List Nat → FMap Nat (CacheLine S) → Option Nat × FMap Nat (CacheLine S)
  | [], lines => (none, lines)
  | tag :: rest, lines =>
    let (line, lines) := subscript blankLine lines tag
    if isModified line.state then
      let (steps, lines) := scan isModified rest lines
      (steps.map (· + 1), lines)
    else
      (some 0, lines)

def allocate (isModified : S → Bool) (assoc : Nat) (set : CacheSet S) (tag : Nat) :
    Option (CacheSet S × Option (CacheLine S)) :=
  if assoc ≤ size set.lines then
    let (bestCandidate, lines) := scan isModified set.lruOrder.reverse set.lines
    match bestCandidate with
    | some steps =>
      -- std::next(it).base() of the reverse iterator after `steps` increments
      let pos := set.lruOrder.length - 1 - steps
      match set.lruOrder[pos]? with
      | none => none
      | some victim =>
        let (evicted, lines) := subscript blankLine lines victim
        let set := { lruOrder := set.lruOrder.eraseIdx pos, lines := lines.erase victim }
        some (CacheSet.install set tag, some evicted)
    | none =>
      match set.lruOrder.getLast? with
      | none => none
      | some victim =>
        let (evicted, lines) := subscript blankLine lines victim
        let set := { lruOrder := set.lruOrder.dropLast, lines := lines.erase victim }
        some (CacheSet.install set tag, some evicted)
  else
    some (set.install tag, none)

end SmartCacheSet

/-! ### What the two structures look like after each operation -/

namespace CacheSet

omit [LineState S] in
@[simp] theorem find_line (set : CacheSet S) (tag : Nat) :
    (set.find tag).1 = set.lines.lookup tag := by
  unfold find
  split <;> simp_all

omit [LineState S] in
@[simp] theorem find_lines (set : CacheSet S) (tag : Nat) :
    (set.find tag).2.lines = set.lines := by
  unfold find
  split <;> rfl

/-- The eviction of the entry at a position of the recency list. -/
def evictAt (set : CacheSet S) (tag pos : Nat) : Option (CacheSet S × Option (CacheLine S)) :=
  set.lruOrder[pos]?.map fun victim =>
    (install ⟨set.lruOrder.eraseIdx pos, set.lines.erase victim⟩ tag,
      some ((set.lines.lookup victim).getD blankLine))

end CacheSet

/-- A set class of the source, by its `allocate`: when the set is full the entry
at `victimPos` goes. Both fields of the code are determined by that position. -/
structure Replacement (S : Type) [LineState S] where
  allocate : Nat → CacheSet S → Nat → Option (CacheSet S × Option (CacheLine S))
  victimPos : CacheSet S → Nat
  allocate_eq : ∀ assoc set tag, allocate assoc set tag =
    if assoc ≤ size set.lines then set.evictAt tag (victimPos set) else some (set.install tag, none)
  victimPos_lt : ∀ set, set.lruOrder ≠ [] → victimPos set < set.lruOrder.length

namespace LRUCacheSet

theorem evictAt_last (set : CacheSet S) (tag : Nat) :
    set.evictAt tag (set.lruOrder.length - 1) =
      set.lruOrder.getLast?.map fun victim =>
        (CacheSet.install ⟨set.lruOrder.dropLast, set.lines.erase victim⟩ tag,
          some ((set.lines.lookup victim).getD blankLine)) := by
  rw [CacheSet.evictAt, List.getLast?_eq_getElem?]
  by_cases h : set.lruOrder = []
  · simp [h]
  · have hpos := List.length_pos_iff.mpr h
    rw [List.dropLast_eq_eraseIdx (i := set.lruOrder.length - 1) (by omega)]

theorem allocate_eq (assoc : Nat) (set : CacheSet S) (tag : Nat) :
    allocate assoc set tag = if assoc ≤ size set.lines
      then set.evictAt tag (set.lruOrder.length - 1) else some (set.install tag, none) := by
  rw [evictAt_last]
  unfold allocate
  cases set.lruOrder.getLast? with
  | none => rfl
  | some victim => simp only [subscript_value, erase_subscript, Option.map_some]

def replacement : Replacement S where
  allocate := allocate
  victimPos := fun set => set.lruOrder.length - 1
  allocate_eq := allocate_eq
  victimPos_lt := by
    intro set h
    have := List.length_pos_iff.mpr h
    omega

end LRUCacheSet

namespace SmartCacheSet

/-- The test of the scan, without the insertion it makes. -/
def clean (isModified : S → Bool) (lines : FMap Nat (CacheLine S)) (tag : Nat) : Bool :=
  !isModified ((lines.lookup tag).getD blankLine).state

def victimPos (isModified : S → Bool) (set : CacheSet S) : Nat :=
  match set.lruOrder.reverse.findIdx? (clean isModified set.lines) with
  | some steps => set.lruOrder.length - 1 - steps
  | none => set.lruOrder.length - 1

/-- A missing tag reads as INVALID and ends the scan, so only the entry found can
have been inserted. -/
theorem scan_eq (isModified : S → Bool) (hinv : isModified invalid = false)
    (l : List Nat) (lines : FMap Nat (CacheLine S)) :
    scan isModified l lines =
      match l.findIdx? (clean isModified lines) with
      | none => (none, lines)
      | some steps => (some steps, (subscript blankLine lines (l[steps]?.getD 0)).2) := by
  induction l with
  | nil => rfl
  | cons tag rest ih =>
    rw [List.findIdx?_cons, scan]
    simp only [subscript_value]
    cases hc : clean isModified lines tag with
    | true =>
      have hm : isModified ((lines.lookup tag).getD blankLine).state = false := by
        simpa [clean] using hc
      simp [hm]
    | false =>
      have hm : isModified ((lines.lookup tag).getD blankLine).state = true := by
        simpa [clean] using hc
      have hsame : (subscript blankLine lines tag).2 = lines := by
        cases hl : lines.lookup tag with
        | none => simp [hl, blankLine, hinv] at hm
        | some line => simp [subscript, hl]
      simp only [hm, if_true, hsame, ih]
      cases rest.findIdx? (clean isModified lines) <;> simp

theorem allocate_eq (isModified : S → Bool) (hinv : isModified invalid = false)
    (assoc : Nat) (set : CacheSet S) (tag : Nat) :
    allocate isModified assoc set tag = if assoc ≤ size set.lines
      then set.evictAt tag (victimPos isModified set) else some (set.install tag, none) := by
  unfold allocate victimPos
  rw [scan_eq isModified hinv]
  cases hf : set.lruOrder.reverse.findIdx? (clean isModified set.lines) with
  | none =>
    rw [LRUCacheSet.evictAt_last]
    cases set.lruOrder.getLast? with
    | none => rfl
    | some victim => simp only [subscript_value, erase_subscript, Option.map_some]
  | some steps =>
    have hlt : steps < set.lruOrder.length := by
      simpa using (List.findIdx?_eq_some_iff_getElem.mp hf).1
    have hrev : set.lruOrder.reverse[steps]? = set.lruOrder[set.lruOrder.length - 1 - steps]? :=
      List.getElem?_reverse hlt
    simp only [CacheSet.evictAt, hrev]
    cases set.lruOrder[set.lruOrder.length - 1 - steps]? with
    | none => rfl
    | some victim =>
      simp only [Option.getD_some, Option.map_some, subscript_value, erase_subscript,
        lookup_subscript]

def replacement (isModified : S → Bool) (hinv : isModified invalid = false) : Replacement S where
  allocate := allocate isModified
  victimPos := victimPos isModified
  allocate_eq := allocate_eq isModified hinv
  victimPos_lt := by
    intro set h
    have := List.length_pos_iff.mpr h
    unfold victimPos
    split <;> omega

end SmartCacheSet
end CoherenceFormal
