import CoherenceFormal.Shared.Lockstep

/-!
# Simulation, label by label

`Simulates sys sys' r` says that `sys'` can answer each step of `sys` with one of the same
label, through states related by `r`. A run of `sys` then has a counterpart in `sys'`.
-/

namespace CoherenceFormal.System
set_option autoImplicit false

universe u v w
variable {σ : Type u} {τ : Type v} {ε : Type w}

structure Simulates (sys : System σ ε) (sys' : System τ ε) (r : σ → τ → Prop) : Prop where
  start : ∀ s, sys.start s → ∃ s', sys'.start s' ∧ r s s'
  step : ∀ s s' e t, sys.Reached s → sys'.Reached s' → r s s' → sys.step s e t →
    ∃ t', sys'.step s' e t' ∧ r t t'

/-- A step of `sys'` for the step to `t`, where both come out of partial functions. -/
theorem answer {σ τ : Type u} {r : σ → τ → Prop} {t : σ} {x' : Option τ}
    (h : Option.Rel r (some t) x') : ∃ t', x' = some t' ∧ r t t' := by
  cases h with
  | some hrel => exact ⟨_, rfl, hrel⟩

theorem answer_back {σ τ : Type u} {r : σ → τ → Prop} {x : Option σ} {t' : τ}
    (h : Option.Rel r x (some t')) : ∃ t, x = some t ∧ r t t' := by
  cases h with
  | some hrel => exact ⟨_, rfl, hrel⟩

namespace Simulates
variable {sys : System σ ε} {sys' : System τ ε} {r : σ → τ → Prop} {h : List (Move σ ε)} {s : σ}

theorem run (laws : Simulates sys sys' r) (hr : sys.Run h s) : ∃ h' s', sys'.Run h' s' ∧
    h'.map Move.label = h.map Move.label ∧ List.Forall₂ r (visited h s) (visited h' s') := by
  induction hr with
  | @start s hs =>
    obtain ⟨s', hs', hrel⟩ := laws.start s hs
    exact ⟨[], s', .start hs', rfl, .cons hrel .nil⟩
  | @next h s t e hr hs ih =>
    obtain ⟨h', s', hr', hlabels, hvisited⟩ := ih
    have hrel : r s s' := (List.forall₂_cons.mp hvisited).1
    obtain ⟨t', hs', hrel'⟩ := laws.step s s' e t hr.reached hr'.reached hrel hs
    exact ⟨⟨s', e, t'⟩ :: h', t', hr'.next hs', congrArg (e :: ·) hlabels, .cons hrel' hvisited⟩

end Simulates
end CoherenceFormal.System
