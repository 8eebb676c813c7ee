import CoherenceFormal.Shared.Snooping

/-!
# What the copies of a datum contain

The states of a snooping protocol say who may read and write. Here every copy has contents as
well, and so has the memory behind the caches. A protocol keeps its data together when every
valid copy holds what all the stores so far have made of the datum, and the memory does when no
copy is dirty. The lemmas say what a store, a read and an eviction need for that.
-/

namespace CoherenceFormal.Snooping

universe u v w
variable {ι : Type u} {S : Type v} {D : Type w}

structure Contents (ι : Type u) (D : Type w) where
  copy : ι → D
  memory : D

/-- Every valid copy has the latest contents, and the memory unless there is a dirty copy. -/
structure UpToDate (valid dirty : S → Prop) (copies : ι → S) (contents : Contents ι D)
    (latest : D) : Prop where
  copy : ∀ i, valid (copies i) → contents.copy i = latest
  memory : (∀ i, ¬ dirty (copies i)) → contents.memory = latest

namespace UpToDate
variable {valid dirty : S → Prop} {copies copies' : ι → S} {contents contents' : Contents ι D}
  {latest : D}

/-- `r` stores to a copy with the latest contents, and the copies that stay valid follow. -/
theorem store (h : UpToDate valid dirty copies contents latest) (write : D → D) {r : ι}
    (own : contents'.copy r = write latest) (marked : dirty (copies' r))
    (others : ∀ j, j ≠ r → valid (copies' j) →
      valid (copies j) ∧ contents'.copy j = write (contents.copy j)) :
    UpToDate valid dirty copies' contents' (write latest) := by
  constructor
  · intro j hj
    by_cases hjr : j = r
    · rw [hjr]
      exact own
    · obtain ⟨hvalid, hcopy⟩ := others j hjr hj
      rw [hcopy, h.copy j hvalid]
  · intro hclean
    exact absurd marked (hclean r)

/-- `r` takes the latest contents for itself. -/
theorem read (h : UpToDate valid dirty copies contents latest) {r : ι}
    (own : contents'.copy r = latest)
    (others : ∀ j, j ≠ r → contents'.copy j = contents.copy j ∧
      (valid (copies' j) → valid (copies j)))
    (memory : (∀ i, ¬ dirty (copies' i)) → contents'.memory = latest) :
    UpToDate valid dirty copies' contents' latest := by
  refine ⟨?_, memory⟩
  intro j hj
  by_cases hjr : j = r
  · rw [hjr]
    exact own
  · obtain ⟨hcopy, hvalid⟩ := others j hjr
    rw [hcopy]
    exact h.copy j (hvalid hj)

/-- The memory, or any valid copy if there is one, can supply. -/
theorem supplied (h : UpToDate valid dirty copies contents latest) {supplier : Option ι}
    (copy : ∀ i, supplier = some i → valid (copies i))
    (memory : supplier = none → ∀ i, ¬ dirty (copies i)) :
    supplier.elim contents.memory contents.copy = latest := by
  cases supplier with
  | none => exact h.memory (memory rfl)
  | some i => exact h.copy i (copy i rfl)

variable [DecidableEq ι]

/-- `r` gives its copy up. A dirty one goes to the memory. -/
theorem drop (h : UpToDate valid dirty copies contents latest) {r : ι} {gone : S}
    (invalid : ¬ valid gone) (dirtyValid : ∀ st, dirty st → valid st)
    (copy : contents'.copy = contents.copy)
    (written : dirty (copies r) → contents'.memory = contents.copy r)
    (kept : ¬ dirty (copies r) → contents'.memory = contents.memory) :
    UpToDate valid dirty (Function.update copies r gone) contents' latest := by
  constructor
  · intro j hj
    rw [copy]
    by_cases hjr : j = r
    · rw [hjr, Function.update_self] at hj
      exact absurd hj invalid
    · rw [Function.update_of_ne hjr] at hj
      exact h.copy j hj
  · intro hclean
    by_cases hr : dirty (copies r)
    · rw [written hr]
      exact h.copy r (dirtyValid _ hr)
    · rw [kept hr]
      apply h.memory
      intro j
      by_cases hjr : j = r
      · rw [hjr]
        exact hr
      · have hj := hclean j
        rwa [Function.update_of_ne hjr] at hj

end UpToDate
end CoherenceFormal.Snooping
