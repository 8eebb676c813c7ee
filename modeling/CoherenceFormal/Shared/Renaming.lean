import Mathlib.Algebra.Order.BigOperators.Group.List
import Mathlib.Algebra.Order.Group.Nat
import Mathlib.Data.List.Forall2
import Mathlib.Logic.Function.Basic

/-!
# Renamings of numbers

A finite list of pairs that matches equal numbers with equal numbers, both ways, is part of
the graph of an injection (`exists_renaming`).

For lists related element by element, an element that is known by a key can be taken out of
both at once.
-/

namespace CoherenceFormal.Renaming
set_option autoImplicit false

universe u v w

/-- Both components of a pair say the same about which pairs agree. -/
def Matches {α : Type u} {β : Type v} (pairs : List (α × β)) : Prop :=
  ∀ p ∈ pairs, ∀ q ∈ pairs, p.1 = q.1 ↔ p.2 = q.2

instance {α : Type u} {β : Type v} [DecidableEq α] [DecidableEq β] (pairs : List (α × β)) :
    Decidable (Matches pairs) :=
  inferInstanceAs (Decidable (∀ p ∈ pairs, ∀ q ∈ pairs, p.1 = q.1 ↔ p.2 = q.2))

/-- A number that is not listed goes beyond all the numbers that are listed. -/
theorem exists_renaming {pairs : List (Nat × Nat)} (h : Matches pairs) :
    ∃ f : Nat → Nat, Function.Injective f ∧ ∀ p ∈ pairs, f p.1 = p.2 := by
  let bound := (pairs.map Prod.snd).sum
  let named (x : Nat) : Option (Nat × Nat) := pairs.find? fun p => p.1 == x
  have hnamed {x : Nat} {p : Nat × Nat} (hp : named x = some p) : p ∈ pairs ∧ p.1 = x := by
    exact ⟨List.mem_of_find?_eq_some hp, by simpa using List.find?_some hp⟩
  have hbound {p : Nat × Nat} (hp : p ∈ pairs) : p.2 ≤ bound :=
    List.le_sum_of_mem (List.mem_map_of_mem hp)
  refine ⟨fun x => ((named x).map Prod.snd).getD (bound + 1 + x), ?_, ?_⟩
  · intro x y hxy
    dsimp only at hxy
    cases hx : named x with
    | none =>
      cases hy : named y with
      | none =>
        rw [hx, hy] at hxy
        simp only [Option.map_none, Option.getD_none] at hxy
        omega
      | some q =>
        have hle := hbound (hnamed hy).1
        rw [hx, hy] at hxy
        simp only [Option.map_none, Option.getD_none, Option.map_some, Option.getD_some] at hxy
        omega
    | some p =>
      obtain ⟨hp, rfl⟩ := hnamed hx
      cases hy : named y with
      | none =>
        have hle := hbound hp
        rw [hx, hy] at hxy
        simp only [Option.map_none, Option.getD_none, Option.map_some, Option.getD_some] at hxy
        omega
      | some q =>
        obtain ⟨hq, rfl⟩ := hnamed hy
        rw [hx, hy] at hxy
        exact (h p hp q hq).mpr hxy
  · intro p hp
    cases hx : named p.1 with
    | none =>
      have hnot := List.find?_eq_none.mp hx p hp
      simp at hnot
    | some q =>
      obtain ⟨hq, hqp⟩ := hnamed hx
      have hsame : q.2 = p.2 := (h q hq p hp).mp hqp
      change ((named p.1).map Prod.snd).getD _ = p.2
      rw [hx, ← hsame]
      rfl

/-- `key` tells the element `a` from the others of a list. -/
theorem forall₂_erase {α : Type u} {β : Type v} {κ : Type w} [DecidableEq α] [DecidableEq β]
    {r : α → β → Prop} {key : α → κ} {key' : β → κ} (hkey : ∀ x y, r x y → key x = key' y)
    {l : List α} {l' : List β} (h : List.Forall₂ r l l') {a : α} {b : β} (hab : key a = key' b)
    (hl : ∀ x ∈ l, key x = key a → x = a) (hl' : ∀ y ∈ l', key' y = key' b → y = b) :
    List.Forall₂ r (l.erase a) (l'.erase b) := by
  induction h with
  | nil => exact .nil
  | @cons x y l l' hxy h ih =>
    have hrest := ih (fun z hz => hl z (List.mem_cons_of_mem x hz))
      (fun z hz => hl' z (List.mem_cons_of_mem y hz))
    by_cases hx : key x = key a
    · have hy : key' y = key' b := by rw [← hkey x y hxy, hx, hab]
      rw [hl x List.mem_cons_self hx, hl' y List.mem_cons_self hy, List.erase_cons_head,
        List.erase_cons_head]
      exact h
    · have hxa : x ≠ a := fun heq => hx (congrArg key heq)
      have hyb : y ≠ b := by
        intro heq
        apply hx
        rw [hkey x y hxy, heq, hab]
      rw [List.erase_cons_tail (by simpa using hxa), List.erase_cons_tail (by simpa using hyb)]
      exact .cons hxy hrest

end CoherenceFormal.Renaming
