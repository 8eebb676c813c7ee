import CoherenceFormal.Shared.Runs

/-!
# A system seen through a function

`Projects sys sys' f` says that `f` is a functional bisimulation: the steps from a state and
those from its image are the same, label by label, and so are the runs of the two systems.
-/

namespace CoherenceFormal

universe u v w
variable {σ : Type u} {τ : Type v} {ε : Type w}

def Move.map (f : σ → τ) (m : Move σ ε) : Move τ ε := ⟨f m.before, m.label, f m.after⟩

namespace System

structure Projects (sys : System σ ε) (sys' : System τ ε) (f : σ → τ) : Prop where
  start : ∀ s, sys.start s → sys'.start (f s)
  start_lift : ∀ t, sys'.start t → ∃ s, sys.start s ∧ f s = t
  step : ∀ s e s', sys.step s e s' → sys'.step (f s) e (f s')
  lift : ∀ s e t, sys'.step (f s) e t → ∃ s', sys.step s e s' ∧ f s' = t

namespace Projects
variable {sys : System σ ε} {sys' : System τ ε} {f : σ → τ} {h : List (Move σ ε)} {s : σ}

theorem run (laws : Projects sys sys' f) (hr : sys.Run h s) :
    sys'.Run (h.map (Move.map f)) (f s) := by
  induction hr with
  | start hs => exact .start (laws.start _ hs)
  | next _ hs ih => exact ih.next (laws.step _ _ _ hs)

/-- Every run of the image is the image of a run. -/
theorem run_lift (laws : Projects sys sys' f) {h' : List (Move τ ε)} {t : τ}
    (hr' : sys'.Run h' t) : ∃ h s, sys.Run h s ∧ h.map (Move.map f) = h' ∧ f s = t := by
  induction hr' with
  | @start t ht =>
    obtain ⟨s, hs, rfl⟩ := laws.start_lift t ht
    exact ⟨[], s, .start hs, rfl, rfl⟩
  | @next h' t t' e _ ht ih =>
    obtain ⟨h, s, hr, rfl, rfl⟩ := ih
    obtain ⟨s', hs, rfl⟩ := laws.lift s e t' ht
    exact ⟨⟨s, e, s'⟩ :: h, s', hr.next hs, rfl, rfl⟩

theorem reached (laws : Projects sys sys' f) (hr : sys.Reached s) : sys'.Reached (f s) := by
  obtain ⟨h, hr⟩ := hr
  exact (laws.run hr).reached

/-- Two systems with the same image have the same runs, as far as the image shows them. -/
theorem run_common {υ : Type*} {sys'' : System υ ε} {g : υ → τ} (laws : Projects sys sys' f)
    (laws' : Projects sys'' sys' g) (hr : sys.Run h s) : ∃ h' s', sys''.Run h' s' ∧
      g s' = f s ∧ h'.map (Move.map g) = h.map (Move.map f) := by
  obtain ⟨h', s', hr', hmoves, hs'⟩ := laws'.run_lift (laws.run hr)
  exact ⟨h', s', hr', hs', hmoves⟩

theorem trans {υ : Type*} {sys'' : System υ ε} {g : τ → υ} (laws : Projects sys sys' f)
    (laws' : Projects sys' sys'' g) : Projects sys sys'' (g ∘ f) where
  start := fun s hs => laws'.start _ (laws.start s hs)
  start_lift := by
    intro u hu
    obtain ⟨t, ht, rfl⟩ := laws'.start_lift u hu
    obtain ⟨s, hs, rfl⟩ := laws.start_lift t ht
    exact ⟨s, hs, rfl⟩
  step := fun s e s' hs => laws'.step _ _ _ (laws.step s e s' hs)
  lift := by
    intro s e u hu
    obtain ⟨t, ht, rfl⟩ := laws'.lift (f s) e u hu
    obtain ⟨s', hs', rfl⟩ := laws.lift s e t ht
    exact ⟨s', hs', rfl⟩

end Projects

theorem map_moves_map {υ : Type*} (f : σ → τ) (g : τ → υ) (h : List (Move σ ε)) :
    (h.map (Move.map f)).map (Move.map g) = h.map (Move.map (g ∘ f)) := by
  rw [List.map_map]
  rfl

end System
end CoherenceFormal
