import Mathlib.Data.List.Basic
import Mathlib.Logic.Basic

/-!
# One memory that serves one access at a time

The accesses of several cores in one order, the last one first. The order is serial when each
access has seen the content that a single memory has for it, if it serves the accesses in this
order. An execution is sequentially consistent when such an order has the accesses of each
core in the order of its program.
-/

namespace CoherenceFormal
set_option autoImplicit false

universe u v

structure Access (C : Type u) (L : Type v) where
  core : C
  loc : L
  store : Bool
  deriving Repr, DecidableEq

/-- An access and the stores that have made the content it has seen, the last one first. -/
structure Served (C : Type u) (L : Type v) where
  access : Access C L
  seen : List C
  deriving Repr, DecidableEq

namespace SerialMemory
variable {C : Type u} {L : Type v}

/-- The stores to `l`: what a single memory has at `l` after the accesses. -/
def content [DecidableEq L] (l : L) (order : List (Access C L)) : List C :=
  (order.filter fun a => a.store && a.loc == l).map Access.core

def Serial [DecidableEq L] : List (Served C L) → Prop
  | [] => True
  | a :: earlier =>
    a.seen = content a.access.loc ((a :: earlier).map Served.access) ∧ Serial earlier

/-- The accesses of a core, the first one first. -/
def ofCore [DecidableEq C] (i : C) (order : List (Access C L)) : List (Access C L) :=
  (order.filter (·.core == i)).reverse

structure SequentiallyConsistent [DecidableEq C] [DecidableEq L] (program : C → List (Access C L))
    (order : List (Served C L)) : Prop where
  program : ∀ i, ofCore i (order.map Served.access) = program i
  serial : Serial order

theorem content_append [DecidableEq L] (l : L) (later earlier : List (Access C L)) :
    content l (later ++ earlier) = content l later ++ content l earlier := by
  rw [content, List.filter_append, List.map_append]
  rfl

theorem ofCore_append [DecidableEq C] (i : C) (later earlier : List (Access C L)) :
    ofCore i (later ++ earlier) = ofCore i earlier ++ ofCore i later := by
  rw [ofCore, List.filter_append, List.reverse_append]
  rfl

theorem ofCore_singleton [DecidableEq C] (i : C) (a : Access C L) :
    ofCore i [a] = if a.core = i then [a] else [] := by
  by_cases hi : a.core = i <;> simp [ofCore, hi]

theorem content_singleton [DecidableEq L] (l : L) (a : Access C L) :
    content l [a] = if a.store = true ∧ a.loc = l then [a.core] else [] := by
  by_cases hs : a.store = true ∧ a.loc = l
  · simp [content, hs.1, hs.2]
  · rw [if_neg hs]
    have hno : (a.store && a.loc == l) = false := by simpa using hs
    simp [content, hno]

end SerialMemory
end CoherenceFormal
