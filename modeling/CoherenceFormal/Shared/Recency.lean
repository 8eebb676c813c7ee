import Mathlib.Data.List.Nodup
import Mathlib.Data.Finset.Card
import Mathlib.Data.List.TakeWhile

/-!
# Recency lists

`touch a l` moves `a` to the front of `l`, or puts it there. `recent h` is what
touching the elements of a history leaves, newest first: the distinct elements in the
order of their last occurrence.

A list of bounded length that drops its last element to make room is, at every time,
the beginning of `recent` (`take_recent_touch`, `take_recent_push`), so whether an
element is still in it is a question about distances in the history
(`mem_take_recent_iff`).
-/

namespace CoherenceFormal.Recency

universe u
variable {α : Type u} [DecidableEq α]

def touch (a : α) (l : List α) : List α := a :: l.filter (· ≠ a)

/-- The history is given newest first. -/
def recent : List α → List α
  | [] => []
  | a :: h => touch a (recent h)

theorem mem_touch {a b : α} {l : List α} : b ∈ touch a l ↔ b = a ∨ b ∈ l := by
  rw [touch, List.mem_cons, List.mem_filter]
  by_cases hb : b = a
  · simp [hb]
  · simp [hb]

theorem touch_map {β : Type*} [DecidableEq β] {f : α → β} (hf : f.Injective) (a : α) (l : List α) :
    touch (f a) (l.map f) = (touch a l).map f := by
  rw [touch, touch, List.map_cons, List.filter_map]
  congr 3
  funext b
  simp [hf.eq_iff]

theorem nodup_touch {a : α} {l : List α} (h : l.Nodup) : (touch a l).Nodup := by
  apply List.nodup_cons.mpr
  refine ⟨by simp, h.filter _⟩

/-- An element that is not there yet is pushed to the front. -/
theorem touch_of_notMem {a : α} {l : List α} (h : a ∉ l) : touch a l = a :: l := by
  rw [touch, List.filter_eq_self.mpr]
  intro b hb
  have hne : b ≠ a := by
    intro heq
    exact h (heq ▸ hb)
  simpa using hne

/-- Touching the first element changes nothing. -/
theorem touch_head {a : α} {l : List α} (h : (a :: l).Nodup) : touch a (a :: l) = a :: l := by
  have hnot := (List.nodup_cons.mp h).1
  have htail := touch_of_notMem hnot
  simp only [touch, List.filter_cons, ne_eq, not_true, decide_false, Bool.false_eq_true,
    if_false] at htail ⊢
  exact htail

theorem mem_recent {a : α} {h : List α} : a ∈ recent h ↔ a ∈ h := by
  induction h with
  | nil => simp [recent]
  | cons b h ih => rw [recent, mem_touch, ih, List.mem_cons]

theorem nodup_recent (h : List α) : (recent h).Nodup := by
  induction h with
  | nil => exact .nil
  | cons a h ih => exact nodup_touch ih

/-! ### A list of at most `k` elements -/

theorem take_filter_of_notMem {a : α} {l : List α} {k : Nat} (h : a ∉ l.take k) :
    (l.filter (· ≠ a)).take k = l.take k := by
  induction l generalizing k with
  | nil => rfl
  | cons b l ih =>
    cases k with
    | zero => rfl
    | succ k =>
      rw [List.take_succ_cons, List.mem_cons, not_or] at h
      have hb : b ≠ a := Ne.symm h.1
      rw [List.filter_cons_of_pos (by simpa using hb), List.take_succ_cons, List.take_succ_cons,
        ih h.2]

theorem take_filter_of_mem {a : α} {l : List α} {k : Nat} (hl : l.Nodup) (h : a ∈ l.take (k + 1)) :
    (l.filter (· ≠ a)).take k = (l.take (k + 1)).filter (· ≠ a) := by
  induction l generalizing k with
  | nil => simp at h
  | cons b l ih =>
    obtain ⟨hb, hl⟩ := List.nodup_cons.mp hl
    rw [List.take_succ_cons] at h ⊢
    by_cases hba : b = a
    · subst hba
      have hrest : (l.take k).filter (· ≠ b) = l.take k := by
        apply List.filter_eq_self.mpr
        intro c hc
        have hne : c ≠ b := by
          intro heq
          exact hb (heq ▸ List.mem_of_mem_take hc)
        simpa using hne
      rw [List.filter_cons_of_neg (by simp), List.filter_cons_of_neg (by simp), hrest]
      apply take_filter_of_notMem
      intro hmem
      exact hb (List.mem_of_mem_take hmem)
    · rw [List.filter_cons_of_pos (by simpa using hba), List.filter_cons_of_pos (by simpa using hba)]
      rw [List.mem_cons] at h
      have h := h.resolve_left (Ne.symm hba)
      cases k with
      | zero => simp at h
      | succ k => rw [List.take_succ_cons, ih hl h]

/-- Touching an element that is still in the list. -/
theorem take_recent_touch {a : α} {h : List α} {k : Nat} (ha : a ∈ (recent h).take k) :
    touch a ((recent h).take k) = (recent (a :: h)).take k := by
  cases k with
  | zero => simp at ha
  | succ k =>
    rw [recent, touch, touch, List.take_succ_cons, take_filter_of_mem (nodup_recent h) ha]

/-- Putting an element in front that is not in the list, which makes room at the back. -/
theorem take_recent_push {a : α} {h : List α} {k : Nat} (hk : 0 < k)
    (ha : a ∉ (recent h).take k) :
    a :: (if k ≤ ((recent h).take k).length then ((recent h).take k).dropLast
      else (recent h).take k) = (recent (a :: h)).take k := by
  obtain ⟨k, rfl⟩ := Nat.exists_eq_add_of_lt hk
  rw [Nat.zero_add] at ha ⊢
  have hnot : a ∉ (recent h).take k := by
    intro hmem
    exact ha ((List.take_sublist_take_left (Nat.le_succ k)).subset hmem)
  rw [recent, touch, List.take_succ_cons, take_filter_of_notMem hnot]
  congr 1
  split
  · rename_i hfull
    have hlen : ((recent h).take (k + 1)).length - 1 = k := by
      rw [List.length_take] at hfull ⊢
      omega
    rw [List.dropLast_eq_take, hlen, List.take_take, Nat.min_eq_left (Nat.le_succ k)]
  · rename_i hroom
    rw [List.length_take] at hroom
    rw [List.take_of_length_le (by omega), List.take_of_length_le (by omega)]

/-! ### Distances in the history -/

theorem takeWhile_filter_ne {a : α} {p : α → Bool} (hp : p a = true) (l : List α) :
    (l.filter p).takeWhile (· ≠ a) = (l.takeWhile (· ≠ a)).filter p := by
  induction l with
  | nil => rfl
  | cons b l ih =>
    by_cases hb : b = a
    · subst hb
      rw [List.filter_cons_of_pos hp, List.takeWhile_cons_of_neg (by simp),
        List.takeWhile_cons_of_neg (by simp)]
      rfl
    · rw [List.takeWhile_cons_of_pos (by simpa using hb)]
      by_cases hpb : p b = true
      · rw [List.filter_cons_of_pos hpb, List.filter_cons_of_pos hpb,
          List.takeWhile_cons_of_pos (by simpa using hb), ih]
      · rw [List.filter_cons_of_neg hpb, List.filter_cons_of_neg hpb, ih]

/-- What stands before `a` is what has occurred since `a`. -/
theorem mem_takeWhile_recent {a b : α} {h : List α} :
    b ∈ (recent h).takeWhile (· ≠ a) ↔ b ∈ h.takeWhile (· ≠ a) := by
  induction h with
  | nil => rfl
  | cons c h ih =>
    rw [recent, touch]
    by_cases hc : c = a
    · rw [List.takeWhile_cons_of_neg (by simpa using hc), List.takeWhile_cons_of_neg (by simpa using hc)]
    · rw [List.takeWhile_cons_of_pos (by simpa using hc), List.takeWhile_cons_of_pos (by simpa using hc),
        takeWhile_filter_ne (by simpa using Ne.symm hc), List.mem_cons, List.mem_cons, List.mem_filter,
        ih]
      by_cases hb : b = c
      · simp [hb]
      · simp [hb]

/-- What a bounded list would drop next is older than the rest of it. -/
theorem mem_takeWhile_of_last {a b : α} {h : List α} {k : Nat}
    (hlast : ((recent h).take k).getLast? = some a) (hb : b ∈ (recent h).take k) (hne : b ≠ a) :
    b ∈ h.takeWhile (· ≠ a) := by
  obtain ⟨init, hinit⟩ := List.getLast?_eq_some_iff.mp hlast
  have hnodup : (init ++ [a]).Nodup := by
    rw [← hinit]
    exact (nodup_recent h).sublist (List.take_sublist _ _)
  have hbefore : ∀ c ∈ init, decide (c ≠ a) = true := by
    intro c hc
    apply decide_eq_true
    intro heq
    exact (List.nodup_append.mp hnodup).2.2 c hc a (by simp) heq
  have hmem : b ∈ init := by
    rw [hinit, List.mem_append, List.mem_singleton] at hb
    exact hb.resolve_right hne
  rw [← mem_takeWhile_recent, ← List.take_append_drop k (recent h), hinit, List.append_assoc,
    List.takeWhile_append_of_pos hbefore]
  exact List.mem_append_left _ hmem

theorem length_takeWhile_of_mem {a : α} {l : List α} (h : a ∈ l) :
    (l.takeWhile (· ≠ a)).length = l.idxOf a := by
  induction l with
  | nil => simp at h
  | cons b l ih =>
    by_cases hb : b = a
    · subst hb
      rw [List.takeWhile_cons_of_neg (by simp), List.idxOf_cons_self, List.length_nil]
    · have hmem := (List.mem_cons.mp h).resolve_left (Ne.symm hb)
      have hbeq : (b == a) = false := by simpa using hb
      rw [List.takeWhile_cons_of_pos (by simpa using hb), List.length_cons, ih hmem, List.idxOf_cons,
        hbeq]
      rfl

/-- An element is still among the `k` most recent ones when fewer than `k` distinct others
have occurred since. -/
theorem mem_take_recent_iff {a : α} {h : List α} {k : Nat} :
    a ∈ (recent h).take k ↔ a ∈ h ∧ (h.takeWhile (· ≠ a)).toFinset.card < k := by
  have hcard : ((recent h).takeWhile (· ≠ a)).toFinset = (h.takeWhile (· ≠ a)).toFinset := by
    ext b
    rw [List.mem_toFinset, List.mem_toFinset, mem_takeWhile_recent]
  have hnodup : ((recent h).takeWhile (· ≠ a)).Nodup :=
    (nodup_recent h).sublist (List.takeWhile_sublist _)
  rw [← hcard, List.toFinset_card_of_nodup hnodup]
  constructor
  · intro hmem
    have ha := List.mem_of_mem_take hmem
    refine ⟨mem_recent.mp ha, ?_⟩
    rw [length_takeWhile_of_mem ha]
    exact (List.mem_take_iff_idxOf_lt ha).mp hmem
  · intro hmem
    have ha := mem_recent.mpr hmem.1
    rw [length_takeWhile_of_mem ha] at hmem
    exact (List.mem_take_iff_idxOf_lt ha).mpr hmem.2

end CoherenceFormal.Recency
