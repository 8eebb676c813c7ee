import CoherenceFormal.BlockView

/-!
# Single writer: MESI, SMART, MOESI and MESIF

A protocol's table of which copies a copy tolerates elsewhere. The handlers never
re-test a waiting request, so an upgrade may be granted to a core whose copy has
died in the meantime. The tables survive this: an upgrade, stale or not, leaves
INVALID everywhere else.
-/

namespace CoherenceFormal
open LineState Snooping
set_option autoImplicit false

variable {n : Nat}

/-- Two copies each of which tolerates the other. -/
def Mutual {S : Type} (tolerates : S → S → Bool) (a b : S) : Prop :=
  tolerates a b = true ∧ tolerates b a = true

instance {S : Type} (tolerates : S → S → Bool) (a b : S) : Decidable (Mutual tolerates a b) :=
  inferInstanceAs (Decidable (_ ∧ _))

namespace Simulator

theorem mutual_reached {S : Type} [LineState S] {cfg : Config} {R : ProtocolRules S}
    {tolerates : S → S → Bool} {traces : Fin n → List TraceEntry} (hR : R.MissFills)
    (laws : CompatLaws R fillReady (Mutual tolerates)) {s : Simulator S n}
    (hr : (system cfg R traces).Reached s) (b : Block) {i j : Fin n} (hij : i ≠ j) :
    tolerates (s.machine.state i b) (s.machine.state j b) = true := by
  have hc := coherent_reached hR laws (fun s hs => fillReady_reached hR hs) hr b
  exact (hc hij).1

end Simulator

/-! ### MESI and SMART -/

def MESIProtocol.tolerates : MESIState → MESIState → Bool
  | .modified, other => other == .invalid
  | .exclusive, other => other == .invalid
  | _, _ => true

theorem MESIProtocol.alone : ∀ a c, tolerates a c = true →
    a = .modified ∨ a = .exclusive → c = .invalid := by decide

theorem mesi_compatLaws : CompatLaws mesi fillReady (Mutual MESIProtocol.tolerates) where
  symm := by decide
  invalid := by decide
  store := by decide
  snoop := by decide
  fill := by decide
  upgrade := by decide

/-- SMART differs from MESI in its set class only, which no law mentions. -/
theorem smart_compatLaws : CompatLaws smart fillReady (Mutual MESIProtocol.tolerates) :=
  ⟨mesi_compatLaws.symm, mesi_compatLaws.invalid, mesi_compatLaws.store, mesi_compatLaws.snoop,
    mesi_compatLaws.fill, mesi_compatLaws.upgrade⟩

namespace Simulator

/-- A block that one cache holds MODIFIED or EXCLUSIVE is valid in no other. -/
theorem mesi_single_writer (R : ProtocolRules MESIState) (hR : R = mesi ∨ R = smart)
    (cfg : Config) (traces : Fin n → List TraceEntry) {s : Simulator MESIState n}
    (hr : (system cfg R traces).Reached s) (b : Block) (i j : Fin n) (hij : i ≠ j)
    (hi : s.machine.lineState i b = some .modified ∨ s.machine.lineState i b = some .exclusive) :
    s.machine.lineState j b = none ∨ s.machine.lineState j b = some .invalid := by
  have htol : MESIProtocol.tolerates (s.machine.state i b) (s.machine.state j b) = true := by
    rcases hR with rfl | rfl
    · exact mutual_reached mesi_missFills mesi_compatLaws hr b hij
    · exact mutual_reached smart_missFills smart_compatLaws hr b hij
  apply Machine.lineState_of_invalid
  apply MESIProtocol.alone _ _ htol
  rw [Machine.state_eq_lineState]
  rcases hi with hi | hi
  · exact .inl (by rw [hi, Option.getD_some])
  · exact .inr (by rw [hi, Option.getD_some])

theorem mesi_single_writer_store : ∃ s : Simulator MESIState 2,
    (system tinyConfig mesi storeAndLoad).Reached s ∧
      s.machine.lineState 0 ⟨0, 0⟩ = some .modified ∧
      (s.machine.lineState 1 ⟨0, 0⟩ = none ∨ s.machine.lineState 1 ⟨0, 0⟩ = some .invalid) := by
  obtain ⟨h, s, hr, ht⟩ := exists_run tinyConfig mesi storeAndLoad
    [.fetch 0 0, .busArbitration 0]
    (fun _ s => s.machine.lineState 0 ⟨0, 0⟩ == some .modified) (by decide +kernel)
  have hm : s.machine.lineState 0 ⟨0, 0⟩ = some .modified := beq_iff_eq.mp ht
  exact ⟨s, hr.reached, hm,
    mesi_single_writer mesi (.inl rfl) _ _ hr.reached ⟨0, 0⟩ 0 1 (by decide) (.inl hm)⟩

end Simulator

/-! ### MOESI -/

def MOESIProtocol.tolerates : MOESIState → MOESIState → Bool
  | .modified, other => other == .invalid
  | .exclusive, other => other == .invalid
  | .owned, other => other == .shared || other == .invalid
  | _, _ => true

theorem moesi_compatLaws : CompatLaws moesi fillReady (Mutual MOESIProtocol.tolerates) where
  symm := by decide
  invalid := by decide
  store := by decide
  snoop := by decide
  fill := by decide
  upgrade := by decide

/-- The states in which a cache answers for the block. -/
def MOESIState.owns (st : MOESIState) : Prop := st = .modified ∨ st = .exclusive ∨ st = .owned

instance (st : MOESIState) : Decidable st.owns := inferInstanceAs (Decidable (_ ∨ _ ∨ _))

theorem MOESIProtocol.owner_unique : ∀ a c, tolerates a c = true → a.owns → ¬ c.owns := by decide

theorem MOESIProtocol.alone : ∀ a c, tolerates a c = true →
    a = .modified ∨ a = .exclusive → c = .invalid := by decide

theorem MOESIProtocol.owned_sharers : ∀ a c, tolerates a c = true →
    a = .owned → c = .shared ∨ c = .invalid := by decide

namespace Simulator

/-- A block has at most one owner, which excludes every other copy when it is
MODIFIED or EXCLUSIVE and every copy but SHARED ones when it is OWNED. -/
theorem moesi_single_owner (cfg : Config) (traces : Fin n → List TraceEntry)
    {s : Simulator MOESIState n} (hr : (system cfg moesi traces).Reached s) (b : Block) :
    (∀ i j, (s.machine.state i b).owns → (s.machine.state j b).owns → i = j) ∧
    (∀ i j, i ≠ j → s.machine.state i b = .modified ∨ s.machine.state i b = .exclusive →
      s.machine.state j b = .invalid) ∧
    (∀ i j, i ≠ j → s.machine.state i b = .owned →
      s.machine.state j b = .shared ∨ s.machine.state j b = .invalid) := by
  have htol (i j : Fin n) (hij : i ≠ j) :
      MOESIProtocol.tolerates (s.machine.state i b) (s.machine.state j b) = true :=
    mutual_reached moesi_missFills moesi_compatLaws hr b hij
  refine ⟨?_, ?_, ?_⟩
  · intro i j hi hj
    by_contra hij
    exact MOESIProtocol.owner_unique _ _ (htol i j hij) hi hj
  · intro i j hij hi
    exact MOESIProtocol.alone _ _ (htol i j hij) hi
  · intro i j hij hi
    exact MOESIProtocol.owned_sharers _ _ (htol i j hij) hi

theorem moesi_single_owner_load : ∃ s : Simulator MOESIState 2,
    (system tinyConfig moesi storeAndLoad).Reached s ∧ s.machine.state 0 ⟨0, 0⟩ = .owned ∧
      (s.machine.state 1 ⟨0, 0⟩ = .shared ∨ s.machine.state 1 ⟨0, 0⟩ = .invalid) := by
  obtain ⟨h, s, hr, ht⟩ := exists_run tinyConfig moesi storeAndLoad
    [.fetch 0 0, .busArbitration 0, .fetch 0 1, .busRelease 101, .busArbitration 101]
    (fun _ s => s.machine.state 0 ⟨0, 0⟩ == .owned) (by decide +kernel)
  have ho : s.machine.state 0 ⟨0, 0⟩ = .owned := beq_iff_eq.mp ht
  exact ⟨s, hr.reached, ho,
    (moesi_single_owner _ _ hr.reached ⟨0, 0⟩).2.2 0 1 (by decide) ho⟩

end Simulator

/-! ### MESIF -/

def MESIFProtocol.tolerates : MESIFState → MESIFState → Bool
  | .modified, other => other == .invalid
  | .exclusive, other => other == .invalid
  | .forward, other => other == .shared || other == .invalid
  | _, _ => true

theorem mesif_compatLaws : CompatLaws mesif fillReady (Mutual MESIFProtocol.tolerates) where
  symm := by decide
  invalid := by decide
  store := by decide
  snoop := by decide
  fill := by decide
  upgrade := by decide

theorem MESIFProtocol.alone : ∀ a c, tolerates a c = true →
    a = .modified ∨ a = .exclusive → c = .invalid := by decide

theorem MESIFProtocol.forward_sharers : ∀ a c, tolerates a c = true →
    a = .forward → c = .shared ∨ c = .invalid := by decide

/-- Only a BUS_RD makes a forwarder, its requester, and it unmakes any other. -/
theorem mesif_forward_step {copies copies' : Fin n → MESIFState} {a : BlockAction n}
    {ready : BusTransactionType → MESIFState → Prop} (h : BlockStep mesif ready copies a copies')
    {i : Fin n} (hi : copies' i = .forward) :
    a = .fill i .busRd ∨ (copies i = .forward ∧ ∀ r, a ≠ .fill r .busRd) := by
  have upgraded : ∀ st, snoopState mesif .busUpgr st ≠ .forward := by decide
  have filled : ∀ type st, type = .busRd ∨ type = .busRdx →
      snoopState mesif type st ≠ .forward := by decide
  cases h with
  | silent => exact .inr ⟨hi, by simp⟩
  | store j valid unshared =>
    right
    by_cases hij : i = j
    · subst hij
      simp [mesif] at hi
    · rw [Function.update_of_ne hij] at hi
      exact ⟨hi, by simp⟩
  | evict j =>
    right
    by_cases hij : i = j
    · subst hij
      rw [Function.update_self] at hi
      exact absurd hi (by decide)
    · rw [Function.update_of_ne hij] at hi
      exact ⟨hi, by simp⟩
  | upgrade r own =>
    by_cases hij : i = r
    · subst hij
      simp [mesif] at hi
    · rw [broadcast_of_ne _ hij] at hi
      exact absurd hi (upgraded _)
  | fill r type fills own =>
    by_cases hij : i = r
    · subst hij
      rcases fills with rfl | rfl
      · exact .inl rfl
      · simp [mesif] at hi
    · rw [broadcast_of_ne _ hij] at hi
      exact absurd hi (filled _ _ fills)

namespace Simulator

def readOf {S : Type} (cfg : Config) (b : Block) (m : Move (Simulator S n) (Event n)) :
    Option (Fin n) :=
  match grantFor cfg m b with
  | some (i, .busRd) => some i
  | _ => none

/-- The requester of the most recent BUS_RD granted for `b`. -/
def lastRead {S : Type} (cfg : Config) (h : List (Move (Simulator S n) (Event n))) (b : Block) :
    Option (Fin n) := h.findSome? (readOf cfg b)

theorem forward_is_lastRead {cfg : Config} {traces : Fin n → List TraceEntry}
    {h : List (Move (Simulator MESIFState n) (Event n))} {s : Simulator MESIFState n}
    (hr : (system cfg mesif traces).Run h s) (b : Block) (i : Fin n)
    (hi : s.machine.state i b = .forward) : lastRead cfg h b = some i := by
  have hfills := mesif_missFills
  refine System.Run.history (J := fun s => s.TokenInv ∧ s.RequestsReady cfg fillReady)
    (K := fun h s => s.machine.state i b = .forward → lastRead cfg h b = some i) ?_ ?_ ?_ hr hi
  · intro s hs
    exact ⟨tokenInv_reached hfills hs, fillReady_reached hfills hs⟩
  · rintro s rfl hi
    cases (hi : MESIFState.invalid = .forward)
  · rintro h s e s' hstep ⟨htok, hown⟩ hk hi
    obtain ⟨-, -, hf⟩ := fired_of_step hstep
    obtain ⟨a, ha⟩ := actsOn_fired htok hown hf b
    have hread : readOf cfg b ⟨s, e, s'⟩ = match a.granted with
        | some (i, .busRd) => some i
        | _ => none := by
      rw [ha.granted]
      rfl
    rcases mesif_forward_step ha.step hi with rfl | ⟨hold, hnot⟩
    · simp only [BlockAction.granted] at hread
      simp [lastRead, hread]
    · have hnone : readOf cfg b ⟨s, e, s'⟩ = none := by
        rw [hread]
        cases a with
        | fill r type =>
          cases type with
          | busRd => exact absurd rfl (hnot r)
          | _ => rfl
        | _ => rfl
      have hlast : lastRead cfg (⟨s, e, s'⟩ :: h) b = lastRead cfg h b := by
        simp [lastRead, hnone]
      rw [hlast]
      exact hk hold

/-- The forwarder of a block is unique, is the last reader that was granted the
bus, and lives with SHARED copies only; a MODIFIED or EXCLUSIVE copy is alone. -/
theorem mesif_forwarder (cfg : Config) (traces : Fin n → List TraceEntry)
    {h : List (Move (Simulator MESIFState n) (Event n))} {s : Simulator MESIFState n}
    (hr : (system cfg mesif traces).Run h s) (b : Block) :
    (∀ i j, s.machine.state i b = .forward → s.machine.state j b = .forward → i = j) ∧
    (∀ i, s.machine.state i b = .forward → lastRead cfg h b = some i ∧
      ∀ j, j ≠ i → s.machine.state j b = .shared ∨ s.machine.state j b = .invalid) ∧
    (∀ i j, i ≠ j → s.machine.state i b = .modified ∨ s.machine.state i b = .exclusive →
      s.machine.state j b = .invalid) := by
  have htol (i j : Fin n) (hij : i ≠ j) :
      MESIFProtocol.tolerates (s.machine.state i b) (s.machine.state j b) = true :=
    mutual_reached mesif_missFills mesif_compatLaws hr.reached b hij
  refine ⟨?_, ?_, ?_⟩
  · intro i j hi hj
    have hlast := forward_is_lastRead hr b i hi
    rw [forward_is_lastRead hr b j hj] at hlast
    exact (Option.some.inj hlast).symm
  · intro i hi
    refine ⟨forward_is_lastRead hr b i hi, ?_⟩
    intro j hj
    exact MESIFProtocol.forward_sharers _ _ (htol i j (Ne.symm hj)) hi
  · intro i j hij hi
    exact MESIFProtocol.alone _ _ (htol i j hij) hi

theorem mesif_forwarder_load : ∃ (h : List (Move (Simulator MESIFState 2) (Event 2)))
    (s : Simulator MESIFState 2), (system tinyConfig mesif storeAndLoad).Run h s ∧
      s.machine.state 1 ⟨0, 0⟩ = .forward ∧ lastRead tinyConfig h ⟨0, 0⟩ = some 1 := by
  obtain ⟨h, s, hr, ht⟩ := exists_run tinyConfig mesif storeAndLoad
    [.fetch 0 0, .busArbitration 0, .fetch 0 1, .busRelease 101, .busArbitration 101]
    (fun _ s => s.machine.state 1 ⟨0, 0⟩ == .forward) (by decide +kernel)
  have hf : s.machine.state 1 ⟨0, 0⟩ = .forward := beq_iff_eq.mp ht
  exact ⟨h, s, hr, hf, ((mesif_forwarder _ _ hr ⟨0, 0⟩).2.1 1 hf).1⟩

end Simulator
end CoherenceFormal
