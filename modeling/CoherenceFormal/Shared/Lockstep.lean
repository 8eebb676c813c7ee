import CoherenceFormal.Shared.Runs
import Mathlib.Data.List.Forall2
import Mathlib.Data.Option.Basic

/-!
# Two computations in lockstep

`Option.Rel r` relates two partial results: both undefined, or both defined and
related by `r`. The rules here carry it through the ways in which larger
computations are put together.

For runs, a relation that both systems keep when they take the same label makes two
runs visit related states, provided their labels are picked in the same way from
what can be seen of the states.
-/

namespace CoherenceFormal.Lockstep

universe u v w
variable {α α' β β' : Type u}

theorem rel_map {r : α → α' → Prop} {q : β → β' → Prop} {f : α → β} {f' : α' → β'}
    {x : Option α} {x' : Option α'} (h : Option.Rel r x x')
    (hf : ∀ a a', r a a' → q (f a) (f' a')) : Option.Rel q (x.map f) (x'.map f') := by
  cases h with
  | none => exact .none
  | some hr => exact .some (hf _ _ hr)

theorem rel_bind {r : α → α' → Prop} {q : β → β' → Prop} {f : α → Option β} {f' : α' → Option β'}
    {x : Option α} {x' : Option α'} (h : Option.Rel r x x')
    (hf : ∀ a a', x = some a → r a a' → Option.Rel q (f a) (f' a')) :
    Option.Rel q (x.bind f) (x'.bind f') := by
  cases h with
  | none => exact .none
  | some hr => exact hf _ _ rfl hr

theorem exists_of_rel {r : α → α' → Prop} {x : Option α} {x' : Option α'} (h : Option.Rel r x x')
    (hx' : x'.isSome) : ∃ a a', x = some a ∧ x' = some a' ∧ r a a' := by
  cases h with
  | none => simp at hx'
  | some hr => exact ⟨_, _, rfl, rfl, hr⟩

/-- Two loops over the same list whose bodies keep a relation. -/
theorem rel_foldl {ι : Type v} {r : α → α' → Prop} {f : α → ι → α} {f' : α' → ι → α'}
    (body : ∀ a a' i, r a a' → r (f a i) (f' a' i)) (l : List ι) {a : α} {a' : α'} (h : r a a') :
    r (l.foldl f a) (l.foldl f' a') := by
  induction l generalizing a a' with
  | nil => exact h
  | cons i l ih => exact ih (body a a' i h)

/-- Related lists have related elements at every position. -/
theorem rel_at {r : α → α' → Prop} {l : List α} {l' : List α'} (h : List.Forall₂ r l l')
    {k : Nat} {a : α} {a' : α'} (ha : l[k]? = some a) (ha' : l'[k]? = some a') : r a a' := by
  induction h generalizing k with
  | nil => simp at ha
  | cons hrel _ ih =>
    cases k with
    | zero =>
      obtain rfl := Option.some.inj ha
      obtain rfl := Option.some.inj ha'
      exact hrel
    | succ k => exact ih ha ha'

end CoherenceFormal.Lockstep

namespace CoherenceFormal.System

universe u v w x
variable {σ : Type u} {τ : Type v} {ε : Type w} {ω : Type x}

/-- The states of a run, the last one first. -/
def visited (h : List (Move σ ε)) (s : σ) : List σ := s :: h.map Move.before

/-- Every label of the run is picked from what is seen of the states visited so far. -/
def Follows (view : σ → ω) (pick : List ω → ε) : List (Move σ ε) → Prop
  | [] => True
  | m :: h => m.label = pick ((visited h m.before).map view) ∧ Follows view pick h

instance instDecidableFollows [DecidableEq ε] (view : σ → ω) (pick : List ω → ε) (h : List (Move σ ε)) :
    Decidable (Follows view pick h) :=
  match h with
  | [] => isTrue trivial
  | _ :: h => @instDecidableAnd _ _ _ (instDecidableFollows view pick h)

theorem Run.visited_reached {sys : System σ ε} {h : List (Move σ ε)} {s x : σ}
    (hr : sys.Run h s) (hx : x ∈ visited h s) : sys.Reached x := by
  rcases List.mem_cons.mp hx with rfl | hx
  · exact hr.reached
  · obtain ⟨m, hm, rfl⟩ := List.mem_map.mp hx
    exact (hr.move hm).1

theorem Follows.earlier {view : σ → ω} {pick : List ω → ε} {later h : List (Move σ ε)}
    (hf : Follows view pick (later ++ h)) : Follows view pick h := by
  induction later with
  | nil => exact hf
  | cons m later ih => exact ih hf.2

/-- `r` relates the starts, shows in nothing that is seen, and is kept by two steps with
the same label. -/
structure InLockstep (sys : System σ ε) (sys' : System τ ε) (view : σ → ω) (view' : τ → ω)
    (r : σ → τ → Prop) : Prop where
  start : ∀ s s', sys.start s → sys'.start s' → r s s'
  view : ∀ s s', r s s' → view s = view' s'
  step : ∀ s s' e t t', sys.Reached s → sys'.Reached s' → r s s' → sys.step s e t →
    sys'.step s' e t' → r t t'

namespace InLockstep
variable {sys : System σ ε} {sys' : System τ ε} {view : σ → ω} {view' : τ → ω} {r : σ → τ → Prop}
  {pick : List ω → ε} {h : List (Move σ ε)} {h' : List (Move τ ε)} {s : σ} {s' : τ}

theorem symm (laws : InLockstep sys sys' view view' r) :
    InLockstep sys' sys view' view (flip r) where
  start := fun s' s hs' hs => laws.start s s' hs hs'
  view := fun s' s hrel => (laws.view s s' hrel).symm
  step := fun s' s e t' t hr' hr hrel hs' hs => laws.step s s' e t t' hr hr' hrel hs hs'

/-- Two runs of the same length take the same labels through related states. -/
theorem runs (laws : InLockstep sys sys' view view' r) (hr : sys.Run h s) (hr' : sys'.Run h' s')
    (hf : Follows view pick h) (hf' : Follows view' pick h') (hlen : h.length = h'.length) :
    h.map Move.label = h'.map Move.label ∧ List.Forall₂ r (visited h s) (visited h' s') := by
  induction hr generalizing h' s' with
  | @start s hs =>
    obtain rfl := List.length_eq_zero_iff.mp hlen.symm
    cases hr' with
    | start hs' => exact ⟨rfl, .cons (laws.start s s' hs hs') .nil⟩
  | @next h s t e hr hs ih =>
    cases hr' with
    | start => simp at hlen
    | @next h' s' _ e' hr' hs' =>
      obtain ⟨he, hf⟩ := hf
      obtain ⟨he', hf'⟩ := hf'
      obtain ⟨hlabels, hvisited⟩ := ih hr' hf hf' (Nat.succ.inj hlen)
      have hseen : (visited h s).map view = (visited h' s').map view' := by
        rw [← List.forall₂_eq_eq_eq, List.forall₂_map_left_iff, List.forall₂_map_right_iff]
        exact hvisited.imp laws.view
      have hsame : e = e' := by
        change e = pick ((visited h s).map view) at he
        change e' = pick ((visited h' s').map view') at he'
        rw [he, he', hseen]
      subst hsame
      have hrel : r s s' := (List.forall₂_cons.mp hvisited).1
      refine ⟨congrArg (e :: ·) hlabels, .cons ?_ hvisited⟩
      exact laws.step s s' e t _ hr.reached hr'.reached hrel hs hs'

/-- A run is no longer than a run to a state from whose counterparts no step leads on. -/
theorem length_le (laws : InLockstep sys sys' view view' r) (hr : sys.Run h s)
    (hr' : sys'.Run h' s') (hf : Follows view pick h) (hf' : Follows view' pick h')
    (stop : ∀ t e t', r s t → ¬ sys'.step t e t') : h'.length ≤ h.length := by
  by_contra hlt
  have hpos : h'.length - h.length - 1 < h'.length := by omega
  obtain ⟨later, m, earlier, rfl, hlen⟩ : ∃ later m earlier,
      h' = later ++ m :: earlier ∧ h.length = earlier.length := by
    refine ⟨h'.take (h'.length - h.length - 1), h'.get ⟨_, hpos⟩,
      h'.drop (h'.length - h.length), ?_, ?_⟩
    · have hdrop := List.drop_eq_getElem_cons hpos
      rw [Nat.sub_add_cancel (by omega)] at hdrop
      rw [List.get_eq_getElem, ← hdrop, List.take_append_drop]
    · rw [List.length_drop]
      omega
  obtain ⟨hearlier, hstep⟩ := hr'.before_move
  obtain ⟨-, hvisited⟩ := laws.runs hr hearlier hf hf'.earlier.2 hlen
  exact stop m.before m.label m.after (List.forall₂_cons.mp hvisited).1 hstep

end InLockstep
end CoherenceFormal.System
