import Mathlib.Data.Finmap

/-!
# Size and subscript of a finite map

The size of a map, and the two operations of a hash map that Mathlib's `Finmap`
does not name: a lookup that inserts a default on a missing key, and an update of
the value under a present key.
-/

namespace CoherenceFormal.FiniteMap

universe u v
variable {κ : Type u} {V : Type v} [DecidableEq κ]

abbrev FMap (κ : Type u) (V : Type v) := Finmap fun _ : κ => V

def size (m : FMap κ V) : Nat := m.keys.card

/-- `m[key]` of a hash map: a missing key is first inserted with `default`. -/
def subscript (default : V) (m : FMap κ V) (key : κ) : V × FMap κ V :=
  match m.lookup key with
  | some value => (value, m)
  | none => (default, m.insert key default)

/-- An assignment through a pointer to the value under `key`. -/
def modify (m : FMap κ V) (key : κ) (f : V → V) : FMap κ V :=
  match m.lookup key with
  | some value => m.insert key (f value)
  | none => m

theorem lookup_insert_eq (m : FMap κ V) (key : κ) (value : V) (a : κ) :
    (m.insert key value).lookup a = if a = key then some value else m.lookup a := by
  split
  · rename_i h
    rw [h, Finmap.lookup_insert]
  · rename_i h
    rw [Finmap.lookup_insert_of_ne m h]

theorem lookup_erase_eq (m : FMap κ V) (key a : κ) :
    (m.erase key).lookup a = if a = key then none else m.lookup a := by
  split
  · rename_i h
    rw [h, Finmap.lookup_erase]
  · rename_i h
    rw [Finmap.lookup_erase_ne h]

theorem lookup_modify (m : FMap κ V) (key : κ) (f : V → V) (a : κ) :
    (modify m key f).lookup a = if a = key then (m.lookup a).map f else m.lookup a := by
  unfold modify
  split
  · rename_i value h
    rw [lookup_insert_eq]
    split
    · rename_i ha
      rw [ha, h, Option.map_some]
    · rfl
  · rename_i h
    split
    · rename_i ha
      rw [ha, h, Option.map_none]
    · rfl

theorem keys_modify (m : FMap κ V) (key : κ) (f : V → V) : (modify m key f).keys = m.keys := by
  ext a
  rw [Finmap.mem_keys, Finmap.mem_keys, ← Finmap.lookup_isSome, ← Finmap.lookup_isSome,
    lookup_modify]
  split <;> simp

theorem subscript_value (default : V) (m : FMap κ V) (key : κ) :
    (subscript default m key).1 = (m.lookup key).getD default := by
  unfold subscript
  split
  · rename_i value h
    rw [h, Option.getD_some]
  · rename_i h
    rw [h, Option.getD_none]

theorem lookup_subscript (default : V) (m : FMap κ V) (key : κ) :
    (subscript default m key).2.lookup key = some ((m.lookup key).getD default) := by
  unfold subscript
  split
  · rename_i value h
    rw [h, Option.getD_some]
  · rename_i h
    rw [h, Option.getD_none, Finmap.lookup_insert]

/-- Erasing a subscripted key undoes the insertion the subscript may have made. -/
theorem erase_subscript (default : V) (m : FMap κ V) (key : κ) :
    (subscript default m key).2.erase key = m.erase key := by
  unfold subscript
  split
  · rfl
  · apply Finmap.ext_lookup
    intro a
    simp only [lookup_erase_eq, lookup_insert_eq]
    split <;> rfl

end CoherenceFormal.FiniteMap
