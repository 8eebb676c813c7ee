import Mathlib.Data.List.Basic
import Mathlib.Data.Option.Basic

/-!
# Actions on separate parts of a state

Every action has a key that says which part of the state it works on. Two lists of actions
that have the same actions in the same order for every key lead to the same state if actions
with different keys commute, and the part of one key comes out as if only the actions of that
key had been made.
-/

namespace CoherenceFormal.Reordering

universe u v w x
variable {σ : Type u} {α : Type v} {κ : Type w} {ν : Type x}

/-- The state after a list of actions, undefined when one of them is. -/
def performAll (act : α → σ → Option σ) : List α → σ → Option σ
  | [], s => some s
  | a :: rest, s => (act a s).bind (performAll act rest)

def Commutes (act : α → σ → Option σ) (a b : α) : Prop :=
  ∀ s, (act a s).bind (act b) = (act b s).bind (act a)

variable {act : α → σ → Option σ}

/-- An action that commutes with those before it may be made first. -/
theorem performAll_front {a : α} {before rest : List α} (hcomm : ∀ b ∈ before, Commutes act b a)
    (s : σ) : performAll act (before ++ a :: rest) s =
      (act a s).bind (performAll act (before ++ rest)) := by
  induction before generalizing s with
  | nil => rfl
  | cons b before ih =>
    have hrest := fun s => ih (fun c hc => hcomm c (List.mem_cons_of_mem _ hc)) s
    have hb := hcomm b List.mem_cons_self s
    calc performAll act (b :: before ++ a :: rest) s
        = (act b s).bind fun s => (act a s).bind (performAll act (before ++ rest)) := by
          rw [List.cons_append, performAll]
          exact Option.bind_congr fun s _ => hrest s
      _ = ((act b s).bind (act a)).bind (performAll act (before ++ rest)) :=
          (Option.bind_assoc _ _ _).symm
      _ = (act a s).bind (performAll act (b :: before ++ rest)) := by
          rw [hb, Option.bind_assoc]
          rfl

variable [DecidableEq κ] {key : α → κ}

/-- The actions of one key. -/
def only (key : α → κ) (k : κ) (l : List α) : List α := l.filter fun a => key a = k

theorem eq_nil_of_only {l : List α} (h : ∀ k, only key k l = []) : l = [] := by
  apply List.eq_nil_iff_forall_not_mem.mpr
  intro a ha
  have hmem : a ∈ only key (key a) l := List.mem_filter.mpr ⟨ha, by simp⟩
  rw [h] at hmem
  simp at hmem

/-- Only the order of the actions with the same key counts. -/
theorem performAll_eq_of_only (hcomm : ∀ a b, key a ≠ key b → Commutes act a b) {l l' : List α}
    (h : ∀ k, only key k l = only key k l') (s : σ) :
    performAll act l s = performAll act l' s := by
  induction l generalizing l' s with
  | nil => rw [eq_nil_of_only fun k => (h k).symm]
  | cons a rest ih =>
    -- the first action of its key in the other list, with none of that key before it
    have hfirst : only key (key a) l' = a :: only key (key a) rest := by
      rw [← h (key a), only, List.filter_cons_of_pos (by simp)]
      rfl
    obtain ⟨before, after, rfl, hbefore, -, hafter⟩ := List.filter_eq_cons_iff.mp hfirst
    have hbefore : ∀ b ∈ before, key b ≠ key a := by simpa using hbefore
    have hsame (k : κ) : only key k rest = only key k (before ++ after) := by
      have hk := h k
      simp only [only, List.filter_append] at hk ⊢
      by_cases hak : key a = k
      · subst hak
        have hnone : before.filter (fun b => key b = key a) = [] := by
          simpa using hbefore
        rw [hnone, List.nil_append]
        exact hafter.symm
      · rwa [List.filter_cons_of_neg (by simpa using hak),
          List.filter_cons_of_neg (by simpa using hak)] at hk
    rw [performAll_front fun b hb => hcomm b a (hbefore b hb), performAll]
    exact Option.bind_congr fun s _ => ih hsame s

theorem performAll_append (l l' : List α) (s : σ) :
    performAll act (l ++ l') s = (performAll act l s).bind (performAll act l') := by
  induction l generalizing s with
  | nil => rfl
  | cons a rest ih =>
    rw [List.cons_append, performAll, performAll, Option.bind_assoc]
    exact Option.bind_congr fun s _ => ih s

/-! ### One key after the other -/

section
variable {position : α → Nat}

/-- The actions of key 0, then those of key 1, and so on. -/
def byKey (position : α → Nat) (l : List α) : Nat → List α
  | 0 => []
  | count + 1 => byKey position l count ++ only position count l

theorem only_only {j k : Nat} (l : List α) :
    only position j (only position k l) = if j = k then only position k l else [] := by
  unfold only
  rw [List.filter_filter]
  split
  · rename_i h
    simp [h]
  · rename_i h
    rw [List.filter_eq_nil_iff]
    intro a _
    simp only [Bool.and_eq_true, decide_eq_true_eq, not_and]
    omega

theorem only_byKey (l : List α) (count j : Nat) :
    only position j (byKey position l count) = if j < count then only position j l else [] := by
  induction count with
  | zero => rfl
  | succ count ih =>
    have hsplit : only position j (byKey position l (count + 1)) =
        only position j (byKey position l count) ++ only position j (only position count l) :=
      List.filter_append _ _
    rw [hsplit, ih, only_only]
    rcases Nat.lt_trichotomy j count with h | h | h
    · simp [h, Nat.ne_of_lt h, Nat.lt_succ_of_lt h]
    · simp [h]
    · simp [Nat.not_lt_of_gt h, Nat.ne_of_gt h, Nat.not_lt_of_ge (Nat.succ_le_of_lt h)]

theorem performAll_byKey
    (hcomm : ∀ a b, position a ≠ position b → Commutes act a b) {l : List α} {count : Nat}
    (hlt : ∀ a ∈ l, position a < count) (s : σ) :
    performAll act l s = performAll act (byKey position l count) s := by
  apply performAll_eq_of_only hcomm
  intro j
  rw [only_byKey]
  split
  · rfl
  · rename_i hj
    apply List.filter_eq_nil_iff.mpr
    intro a ha heq
    have hlt := hlt a ha
    have heq := of_decide_eq_true heq
    omega

end
end CoherenceFormal.Reordering
