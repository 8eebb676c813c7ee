import Mathlib.Data.Fintype.Option
import CoherenceFormal.SingleWriter

/-!
# Dragon

Dragon never invalidates, so a line is either valid or absent, and its update
handler leaves EXCLUSIVE and MODIFIED snoopers alone. It relies on the requester of
a waiting update still holding a shared copy when the bus is granted: the core is
blocked, nothing invalidates its line, and nothing makes a shared copy exclusive.
-/

namespace CoherenceFormal
open LineState Snooping
set_option autoImplicit false

variable {n : Nat}

namespace DragonProtocol

/-- What a waiting request knows about its line. A BUS_RDX is never requested. -/
def known : BusTransactionType → Option DragonState → Bool
  | .busUpgr, o => o == some .sharedClean || o == some .sharedModified
  | .busRd, o => o == none || o == some .invalid
  | _, _ => false

/-- The same about the copy, where a missing line counts as INVALID. -/
def ready (type : BusTransactionType) (st : DragonState) : Prop := known type (some st) = true

instance (type : BusTransactionType) (st : DragonState) : Decidable (ready type st) :=
  inferInstanceAs (Decidable (_ = _))

theorem waitLaws : WaitLaws dragon (fun type o => known type o = true) where
  upgrade := by decide
  miss := by decide
  snoop := by decide

def tolerates : DragonState → DragonState → Bool
  | .modified, other => other == .invalid
  | .exclusive, other => other == .invalid
  | .sharedModified, other => other == .sharedClean || other == .invalid
  | _, _ => true

theorem compatLaws : CompatLaws dragon ready (Mutual tolerates) where
  symm := by decide
  invalid := by decide
  store := by decide
  snoop := by decide
  fill := by decide
  upgrade := by decide

end DragonProtocol

namespace Simulator

variable {cfg : Config} {traces : Fin n → List TraceEntry} {s s' : Simulator DragonState n}
  {e : Event n}

theorem dragon_ready_reached (hr : (system cfg dragon traces).Reached s) :
    s.RequestsReady cfg DragonProtocol.ready := by
  intro req hreq
  have hknown := waitInv_reached dragon_missFills DragonProtocol.waitLaws hr req hreq
  have weaken : ∀ type (o : Option DragonState), DragonProtocol.known type o = true →
      DragonProtocol.ready type (o.getD .invalid) := by decide
  exact weaken _ _ hknown

theorem dragon_coherent (hr : (system cfg dragon traces).Reached s) (b : Block) :
    Coherent (Mutual DragonProtocol.tolerates) (s.machine.copies b) :=
  coherent_reached dragon_missFills DragonProtocol.compatLaws
    (fun _ hs => dragon_ready_reached hs) hr b

/-- Every line in a cache is valid. -/
def NoInvalidLine (s : Simulator DragonState n) : Prop :=
  ∀ i b, s.machine.lineState i b ≠ some .invalid

theorem noInvalidLine_fired (htok : s.TokenInv) (hinv : s.NoInvalidLine)
    (hf : Fired cfg dragon (s.pop e) e s') : s'.NoInvalidLine := by
  have accessed : ∀ isWrite (o : Option DragonState), o ≠ some .invalid →
      o.map (afterRequest dragon isWrite) ≠ some .invalid := by decide
  have snooped : ∀ type (o : Option DragonState), o ≠ some .invalid →
      o.map (snoopState dragon type) ≠ some .invalid := by decide
  have upgraded : ∀ shared, dragon.upgrState shared ≠ .invalid := by decide
  have filled : ∀ type shared, dragon.fillState type shared ≠ .invalid := by decide
  have access (t : Nat) (i : Fin n) (entry : TraceEntry) (j : Fin n) (b : Block) :
      (access cfg dragon (s.pop (.fetch t i)) i entry).2.lineState j b ≠ some .invalid := by
    rw [access_lineState]
    split
    · exact accessed _ _ (hinv j b)
    · exact hinv j b
  cases hf with
  | @grant t req latency machine free first bus =>
    intro j b
    change machine.lineState j b ≠ some .invalid
    by_cases hj : j = req.coreId
    · rcases bus_spec (htok.types req (minElement_mem first)) bus with ⟨-, hspec⟩ | ⟨-, hspec⟩
      · rw [hspec.lineState]
        split
        · cases (s.pop (.busArbitration t)).machine.lineState j b with
          | none => simp
          | some st => simp [upgraded]
        · exact hinv j b
      · rw [hspec.lineState]
        split
        · simp [filled]
        · split
          · simp
          · exact hinv j b
    · rw [lineState_of_bus (htok.types req (minElement_mem first)) bus hj]
      split
      · exact snooped _ _ (hinv j b)
      · exact hinv j b
  | @hit t i entry rest running read label resp => exact access t i entry
  | @miss t i entry rest running read label resp => exact access t i entry
  | _ => exact hinv

theorem noInvalidLine_reached (hr : (system cfg dragon traces).Reached s) : s.NoInvalidLine := by
  refine hr.invariant_of (fun s => tokenInv_reached dragon_missFills) ?_ ?_
  · rintro s rfl i b h
    cases (h : (none : Option DragonState) = some .invalid)
  · intro s e s' hstep htok hinv
    obtain ⟨-, -, hf⟩ := fired_of_step hstep
    exact noInvalidLine_fired htok hinv hf

theorem dragon_exclusive_or_shared (cfg : Config) (traces : Fin n → List TraceEntry)
    {s : Simulator DragonState n} (hr : (system cfg dragon traces).Reached s) (b : Block) :
    (∀ i j, i ≠ j →
      s.machine.lineState i b = some .exclusive ∨ s.machine.lineState i b = some .modified →
      s.machine.lineState j b = none) ∧
    (∀ i j, s.machine.lineState i b = some .sharedModified →
      s.machine.lineState j b = some .sharedModified → i = j) := by
  have alone : ∀ a c : Option DragonState, a = some .exclusive ∨ a = some .modified →
      c ≠ some .invalid → DragonProtocol.tolerates (a.getD .invalid) (c.getD .invalid) = true →
      c = none := by decide
  have unique : ∀ a c : Option DragonState, a = some .sharedModified → c = some .sharedModified →
      DragonProtocol.tolerates (a.getD .invalid) (c.getD .invalid) = true → False := by decide
  have htol {i j : Fin n} (hij : i ≠ j) := (dragon_coherent hr b hij).1
  constructor
  · intro i j hij hi
    exact alone _ _ hi (noInvalidLine_reached hr j b) (htol hij)
  · intro i j hi hj
    by_contra hij
    exact unique _ _ hi hj (htol hij)

theorem dragon_exclusive_or_shared_load : ∃ s : Simulator DragonState 2,
    (system tinyConfig dragon storeAndLoad).Reached s ∧
      s.machine.lineState 0 ⟨0, 0⟩ = some .exclusive ∧ s.machine.lineState 1 ⟨0, 0⟩ = none := by
  obtain ⟨h, s, hr, ht⟩ := exists_run tinyConfig dragon storeAndLoad
    [.fetch 0 0, .busArbitration 0, .fetch 0 1]
    (fun _ s => s.machine.lineState 0 ⟨0, 0⟩ == some .exclusive) (by decide +kernel)
  have he : s.machine.lineState 0 ⟨0, 0⟩ = some .exclusive := beq_iff_eq.mp ht
  exact ⟨s, hr.reached, he,
    (dragon_exclusive_or_shared _ _ hr.reached ⟨0, 0⟩).1 0 1 (by decide) (.inl he)⟩

end Simulator
end CoherenceFormal
