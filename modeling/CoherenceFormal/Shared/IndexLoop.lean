import Mathlib.Data.List.Nodup
import Mathlib.Data.List.FinRange
import Mathlib.Algebra.BigOperators.Group.Finset.Basic

/-!
# Loops that visit each index once

A loop body `f : β → ι → β` that at index `i` changes only the component `i` of
the accumulator, seen through `get`, acts on all components independently. A sum over
all components changes by what the updated one changes.
-/

namespace CoherenceFormal.IndexLoop

universe u v w
variable {ι : Type u} {α : Type v} {β : Type w}
variable (f : β → ι → β) (get : β → ι → α)

/-- After the loop a visited component has had the body applied to it once. -/
theorem get_foldl [DecidableEq ι] (body : ι → α → α) (self : ∀ b i, get (f b i) i = body i (get b i))
    (other : ∀ b i j, j ≠ i → get (f b i) j = get b j)
    (l : List ι) (hl : l.Nodup) (b : β) (j : ι) :
    get (l.foldl f b) j = if j ∈ l then body j (get b j) else get b j := by
  induction l generalizing b with
  | nil => simp
  | cons i l ih =>
    obtain ⟨hi, hl⟩ := List.nodup_cons.mp hl
    rw [List.foldl_cons, ih hl]
    by_cases hj : j = i
    · subst j
      simp [hi, self]
    · simp [hj, other b i j hj]

/-- A flag that each iteration may raise, by a test on its own component. -/
theorem flag_foldl (flag : β → Bool) (test : ι → α → Bool)
    (other : ∀ b i j, j ≠ i → get (f b i) j = get b j)
    (raise : ∀ b i, flag (f b i) = (flag b || test i (get b i)))
    (l : List ι) (hl : l.Nodup) (b : β) :
    flag (l.foldl f b) = (flag b || l.any fun i => test i (get b i)) := by
  induction l generalizing b with
  | nil => simp
  | cons i l ih =>
    obtain ⟨hi, hl⟩ := List.nodup_cons.mp hl
    have hany : (l.any fun j => test j (get (f b i) j)) = l.any fun j => test j (get b j) := by
      rw [Bool.eq_iff_iff, List.any_eq_true, List.any_eq_true]
      refine exists_congr fun j => and_congr_right fun hj => ?_
      rw [other b i j fun h => hi (h ▸ hj)]
    rw [List.foldl_cons, ih hl, raise, hany, List.any_cons, Bool.or_assoc]

theorem sum_update [DecidableEq ι] [Fintype ι] (key : α → ℕ) (g : ι → α) (i : ι) (x : α) :
    ∑ j, key (Function.update g i x j) + key (g i) = ∑ j, key (g j) + key x := by
  have hothers : ∑ j ∈ Finset.univ.erase i, key (Function.update g i x j) =
      ∑ j ∈ Finset.univ.erase i, key (g j) := by
    apply Finset.sum_congr rfl
    intro j hj
    rw [Function.update_of_ne (Finset.ne_of_mem_erase hj)]
  rw [← Finset.add_sum_erase _ (fun j => key (g j)) (Finset.mem_univ i),
    ← Finset.add_sum_erase _ (fun j => key (Function.update g i x j)) (Finset.mem_univ i),
    Function.update_self, hothers]
  omega

end CoherenceFormal.IndexLoop
