import Mathlib.Logic.Function.Basic
import Mathlib.Logic.Pairwise

/-!
# Copies of one datum on a snooping bus

The abstract picture of any snooping protocol, for one datum: every agent of `ι`
holds a copy in some state, and a step either changes one agent's own copy or
broadcasts, which sets the sender's copy and lets every other agent react.
Invariants of such protocols are mostly of one kind, a relation between the copies
of any two agents.
-/

namespace CoherenceFormal.Snooping

universe u v
variable {ι : Type u} {S : Type v} [DecidableEq ι]

/-- `r` moves to `s`, every other copy reacts by `f`. -/
def broadcast (copies : ι → S) (r : ι) (s : S) (f : S → S) : ι → S :=
  fun j => if j = r then s else f (copies j)

def Coherent (compatible : S → S → Prop) (copies : ι → S) : Prop :=
  Pairwise fun i j => compatible (copies i) (copies j)

@[simp] theorem broadcast_self (copies : ι → S) (r : ι) (s : S) (f : S → S) :
    broadcast copies r s f r = s := if_pos rfl

theorem broadcast_of_ne (copies : ι → S) {r j : ι} (h : j ≠ r) (s : S) (f : S → S) :
    broadcast copies r s f j = f (copies j) := if_neg h

variable {compatible : S → S → Prop} {copies : ι → S}

theorem Coherent.broadcast (h : Coherent compatible copies)
    (symm : ∀ a b, compatible a b → compatible b a) {f : S → S}
    (react : ∀ a b, compatible a b → compatible (f a) (f b)) {r : ι} {s : S}
    (sender : ∀ j, j ≠ r → compatible s (f (copies j))) :
    Coherent compatible (broadcast copies r s f) := by
  intro i j hij
  by_cases hi : i = r
  · subst hi
    have hj : j ≠ i := Ne.symm hij
    simpa [broadcast_of_ne copies hj] using sender j hj
  · by_cases hj : j = r
    · subst hj
      simpa [broadcast_of_ne copies hi] using symm _ _ (sender i hi)
    · simpa [broadcast_of_ne copies hi, broadcast_of_ne copies hj] using react _ _ (h hij)

/-- A change of one's own copy is a broadcast that nobody reacts to. -/
theorem update_eq_broadcast (copies : ι → S) (r : ι) (s : S) :
    Function.update copies r s = Snooping.broadcast copies r s id := by
  funext j
  by_cases hj : j = r
  · subst hj
    simp
  · simp [hj, broadcast_of_ne copies hj]

theorem Coherent.update (h : Coherent compatible copies)
    (symm : ∀ a b, compatible a b → compatible b a) {r : ι} {s : S}
    (owner : ∀ j, j ≠ r → compatible s (copies j)) :
    Coherent compatible (Function.update copies r s) := by
  rw [update_eq_broadcast]
  exact h.broadcast symm (fun _ _ hab => hab) owner

end CoherenceFormal.Snooping
