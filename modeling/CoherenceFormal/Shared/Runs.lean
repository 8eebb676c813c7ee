import Mathlib.Data.List.Basic
import Mathlib.Order.Basic

/-!
# Runs of a labelled transition system

`System.Run sys h s` is a finite run that ends in `s`; `h` lists its moves, the
most recent one first. Keeping the moves, and not only the states, lets a
statement speak about the history of a run ("the last grant of this block") and
about what every step of the run did.

Nothing here depends on a particular system.
-/

namespace CoherenceFormal

universe u v
variable {σ : Type u} {ε : Type v}

structure System (σ : Type u) (ε : Type v) where
  start : σ → Prop
  step : σ → ε → σ → Prop

/-- One step of a run: the state before it, its label, the state after it. -/
structure Move (σ : Type u) (ε : Type v) where
  before : σ
  label : ε
  after : σ

namespace System

inductive Run (sys : System σ ε) : List (Move σ ε) → σ → Prop where
  | start {s : σ} : sys.start s → Run sys [] s
  | next {h : List (Move σ ε)} {s s' : σ} {e : ε} :
      Run sys h s → sys.step s e s' → Run sys (⟨s, e, s'⟩ :: h) s'

def Reached (sys : System σ ε) (s : σ) : Prop := ∃ h, sys.Run h s

variable {sys : System σ ε} {h : List (Move σ ε)} {s s' : σ} {e : ε}

theorem Run.reached (hr : sys.Run h s) : sys.Reached s := ⟨h, hr⟩

theorem Reached.start (hs : sys.start s) : sys.Reached s := (Run.start hs).reached

theorem Reached.next (hr : sys.Reached s) (hs : sys.step s e s') : sys.Reached s' := by
  obtain ⟨h, hr⟩ := hr
  exact (hr.next hs).reached

/-- What the start establishes and every step keeps holds in every reached state. -/
theorem Reached.invariant {I : σ → Prop} (base : ∀ s, sys.start s → I s)
    (keep : ∀ {s e s'}, sys.step s e s' → I s → I s') (hr : sys.Reached s) : I s := by
  obtain ⟨h, hr⟩ := hr
  induction hr with
  | start hs => exact base _ hs
  | next _ hs ih => exact keep hs ih

/-- The same rule for an invariant that needs another one already proved. -/
theorem Reached.invariant_of {J I : σ → Prop} (given : ∀ s, sys.Reached s → J s)
    (base : ∀ s, sys.start s → I s)
    (keep : ∀ {s e s'}, sys.step s e s' → J s → I s → I s') (hr : sys.Reached s) : I s := by
  obtain ⟨h, hr⟩ := hr
  induction hr with
  | start hs => exact base _ hs
  | next hr hs ih => exact keep hs (given _ hr.reached) ih

/-- Every move of a run is a step from a state the run had reached before it. -/
theorem Run.move (hr : sys.Run h s) {m : Move σ ε} (hm : m ∈ h) :
    sys.Reached m.before ∧ sys.step m.before m.label m.after := by
  induction hr with
  | start => simp at hm
  | next hr hs ih =>
    rcases List.mem_cons.mp hm with rfl | hm
    · exact ⟨hr.reached, hs⟩
    · exact ih hm

/-- What precedes a move of a run is itself a run, up to the state before the move. -/
theorem Run.before_move {later earlier : List (Move σ ε)} {m : Move σ ε}
    (hr : sys.Run (later ++ m :: earlier) s) : sys.Run earlier m.before ∧
      sys.step m.before m.label m.after := by
  induction later generalizing s with
  | nil =>
    cases hr with
    | next hr hs => exact ⟨hr, hs⟩
  | cons m' later ih =>
    cases hr with
    | next hr _ => exact ih hr

theorem Run.earlier {later : List (Move σ ε)} (hr : sys.Run (later ++ h) s) :
    ∃ s₀, sys.Run h s₀ := by
  induction later generalizing s with
  | nil => exact ⟨s, hr⟩
  | cons m later ih =>
    cases hr with
    | next hr _ => exact ih hr

theorem Run.last {m : Move σ ε} (hr : sys.Run (m :: h) s) :
    sys.Run h m.before ∧ sys.step m.before m.label m.after ∧ s = m.after := by
  cases hr with
  | next hr hs => exact ⟨hr, hs, rfl⟩

/-- An invariant of a state together with the moves made since a given point. -/
theorem Run.since {K : List (Move σ ε) → σ → Prop} {later : List (Move σ ε)}
    (base : ∀ s₀, sys.Run h s₀ → K [] s₀)
    (keep : ∀ {l s e s'}, sys.Run (l ++ h) s → sys.step s e s' → K l s → K (⟨s, e, s'⟩ :: l) s')
    (hr : sys.Run (later ++ h) s) : K later s := by
  induction later generalizing s with
  | nil => exact base s hr
  | cons m later ih =>
    cases hr with
    | next hr hs => exact keep hr hs (ih hr)

/-- A quantity that no step lowers is, before a move, at least what it was after any
earlier move. -/
theorem Run.monotone {α : Type*} [Preorder α] (f : σ → α)
    (mono : ∀ {s e s'}, sys.Reached s → sys.step s e s' → f s ≤ f s')
    {later : List (Move σ ε)} {m : Move σ ε} (hr : sys.Run (later ++ m :: h) s) :
    f m.after ≤ f s := by
  refine hr.since (K := fun _ s => f m.after ≤ f s) ?_ ?_
  · intro s₀ hr₀
    rw [hr₀.last.2.2]
  · intro l s e s' hr hs hle
    exact hle.trans (mono hr.reached hs)

/-- In a run whose moves all meet `C`, an invariant kept by the steps that meet
`C` holds before and after every move, and at the end. -/
theorem Run.invariant_under {C : Move σ ε → Prop} {J I : σ → Prop}
    (given : ∀ s, sys.Reached s → J s) (base : ∀ s, sys.start s → I s)
    (keep : ∀ {m : Move σ ε}, sys.step m.before m.label m.after → C m →
      J m.before → I m.before → I m.after)
    (hr : sys.Run h s) (hC : ∀ m ∈ h, C m) : I s ∧ ∀ m ∈ h, I m.before ∧ I m.after := by
  induction hr with
  | start hs => exact ⟨base _ hs, by simp⟩
  | @next h s s' e hr hs ih =>
    obtain ⟨hI, hall⟩ := ih fun m hm => hC m (List.mem_cons_of_mem _ hm)
    have hI' : I s' := keep (m := ⟨s, e, s'⟩) hs (hC _ List.mem_cons_self) (given _ hr.reached) hI
    refine ⟨hI', ?_⟩
    intro m hm
    rcases List.mem_cons.mp hm with rfl | hm
    · exact ⟨hI, hI'⟩
    · exact hall m hm

/-- An invariant over the history together with the state. -/
theorem Run.history {J : σ → Prop} {K : List (Move σ ε) → σ → Prop}
    (given : ∀ s, sys.Reached s → J s) (base : ∀ s, sys.start s → K [] s)
    (keep : ∀ {h s e s'}, sys.step s e s' → J s → K h s → K (⟨s, e, s'⟩ :: h) s')
    (hr : sys.Run h s) : K h s := by
  induction hr with
  | start hs => exact base _ hs
  | next hr hs ih => exact keep hs (given _ hr.reached) ih

/-- A measure that every step lowers bounds the length of every run. -/
theorem Run.length_add_le {f : σ → Nat} {b : Nat} (base : ∀ s, sys.start s → f s ≤ b)
    (lower : ∀ {s e s'}, sys.step s e s' → f s' < f s) (hr : sys.Run h s) :
    h.length + f s ≤ b := by
  induction hr with
  | start hs =>
    have hle := base _ hs
    simpa using hle
  | @next h s s' e hr hs ih =>
    have hlt := lower hs
    rw [List.length_cons]
    omega

/-- With such a measure, and a step from every reached state that is not an end, every
run can be carried on to an end. -/
theorem Run.exists_end {f : σ → Nat} {D : σ → Prop}
    (lower : ∀ {s e s'}, sys.step s e s' → f s' < f s)
    (progress : ∀ s, sys.Reached s → D s ∨ ∃ e s', sys.step s e s') (hr : sys.Run h s) :
    ∃ later s', sys.Run (later ++ h) s' ∧ D s' := by
  induction hf : f s using Nat.strongRecOn generalizing h s with
  | ind k ih =>
    rcases progress s hr.reached with hend | ⟨e, s₁, hs⟩
    · exact ⟨[], s, hr, hend⟩
    · have hlt := lower hs
      rw [hf] at hlt
      obtain ⟨later, s', hr', hend⟩ := ih _ hlt (hr.next hs) rfl
      refine ⟨later ++ [⟨s, e, s₁⟩], s', ?_, hend⟩
      rw [List.append_assoc]
      exact hr'

end System

end CoherenceFormal
