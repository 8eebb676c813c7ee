import CoherenceFormal.WaitingRequests

/-!
# Set capacity

An invalidated line keeps its place in `lines` and `lru_order`. When its block is
filled again `allocate` pushes the tag a second time, and the older duplicate stays
behind in the list. Once the line is evicted through one of the two, the other
names a tag without a line, and a later `allocate` that picks it as the victim
erases nothing: the set grows beyond its associativity.

A step takes a set beyond its associativity in exactly this way. `ExactSets.lean` has the
cause: without a fill of a block whose entry is still there it does not come to that.
-/

namespace CoherenceFormal
open LineState FiniteMap
set_option autoImplicit false

variable {S : Type} [LineState S] {n : Nat}

namespace Machine

/-- The tags that have an entry in the lines map of set `k` of core `j`. -/
def entries (m : Machine S n) (j : Fin n) (k : Nat) : Finset Nat :=
  ((m.caches j).sets k).lines.keys

omit [LineState S] in
theorem mem_entries {m : Machine S n} {j : Fin n} {k a : Nat} :
    a ∈ m.entries j k ↔ (m.line j ⟨k, a⟩).isSome = true := by
  rw [entries, Finmap.mem_keys, ← Finmap.lookup_isSome]
  rfl

omit [LineState S] in
theorem entries_congr {m m' : Machine S n} {j : Fin n} {k : Nat}
    (h : ∀ a, (m'.line j ⟨k, a⟩).isSome = (m.line j ⟨k, a⟩).isSome) :
    m'.entries j k = m.entries j k := by
  ext a
  rw [mem_entries, mem_entries, h]

end Machine

theorem UpgradeSpec.entries {R : ProtocolRules S} {g : Geometry} {m m' : Machine S n} {r : Fin n}
    {addr : Addr} {latency : Nat} (h : UpgradeSpec R g m r addr latency m') (j : Fin n) (k : Nat) :
    m'.entries j k = m.entries j k := by
  apply Machine.entries_congr
  intro a
  rw [h.lines]
  split <;> simp

/-- A fill adds the requested tag to one set and takes the victim out of it. -/
theorem FillSpec.entries {R : ProtocolRules S} {g : Geometry} {m m' : Machine S n} {r : Fin n}
    {type : BusTransactionType} {addr : Addr} (h : FillSpec R g m r type addr m') (j : Fin n)
    (k : Nat) : m'.entries j k = if j = r ∧ k = g.setIdx addr
      then insert (g.tag addr) (match m.victim R g r addr with
        | none => m.entries j k
        | some v => (m.entries j k).erase v.tag)
      else m.entries j k := by
  by_cases hset : j = r ∧ k = g.setIdx addr
  · obtain ⟨rfl, rfl⟩ := hset
    rw [if_pos ⟨rfl, rfl⟩]
    ext a
    rw [Machine.mem_entries, h.lines, Finset.mem_insert]
    by_cases ha : a = g.tag addr
    · simp [ha, Geometry.block]
    · have hb : (⟨g.setIdx addr, a⟩ : Block) ≠ g.block addr := by simp [Geometry.block, ha]
      simp only [if_neg hb, true_and, ha, false_or]
      cases hv : m.victim R g j addr with
      | none => simp [Machine.mem_entries]
      | some v =>
        have hiff : v = ⟨g.setIdx addr, a⟩ ↔ a = v.tag := by
          obtain ⟨hi, -⟩ := Machine.victim_entry hv
          constructor
          · rintro rfl
            rfl
          · rintro rfl
            rw [← hi]
        simp only [Option.some.injEq, hiff, Finset.mem_erase, Machine.mem_entries]
        by_cases hav : a = v.tag <;> simp [hav]
  · rw [if_neg hset]
    apply Machine.entries_congr
    intro a
    rw [h.lines]
    by_cases hj : j = r
    · have hk : k ≠ g.setIdx addr := fun hk => hset ⟨hj, hk⟩
      have hb : (⟨k, a⟩ : Block) ≠ g.block addr := by simp [Geometry.block, hk]
      have hv : m.victim R g r addr ≠ some ⟨k, a⟩ := fun hv => hk (Machine.victim_entry hv).1
      simp [hb, hv]
    · simp only [hj, if_false, false_and]
      split <;> simp

/-- An allocation in a full set outgrows it exactly when it finds neither its victim
nor its own tag there. -/
theorem card_insert_erase_le_iff {entries : Finset Nat} {assoc tag v : Nat}
    (hle : entries.card ≤ assoc) (hfull : assoc ≤ entries.card) :
    (insert tag (entries.erase v)).card ≤ assoc ↔ v ∈ entries ∨ tag ∈ entries := by
  have heq : entries.card = assoc := Nat.le_antisymm hle hfull
  by_cases hv : v ∈ entries
  · have hpos : 0 < entries.card := Finset.card_pos.mpr ⟨v, hv⟩
    have hcard := Finset.card_insert_le tag (entries.erase v)
    rw [Finset.card_erase_of_mem hv] at hcard
    exact iff_of_true (by omega) (.inl hv)
  · rw [Finset.erase_eq_of_notMem hv]
    by_cases ht : tag ∈ entries
    · rw [Finset.insert_eq_of_mem ht]
      exact iff_of_true hle (.inr ht)
    · rw [Finset.card_insert_of_notMem ht]
      exact iff_of_false (by omega) (by simp [hv, ht])

namespace Simulator

def WithinCapacity (cfg : Config) (s : Simulator S n) : Prop :=
  ∀ j k, size ((s.machine.caches j).sets k).lines ≤ cfg.geometry.assoc

/-- The move grants a fill whose `allocate` finds the set full and picks a victim
that has no line, while the requested tag has none either. -/
def evictsAbsent (cfg : Config) (R : ProtocolRules S) (m : Move (Simulator S n) (Event n)) :
    Bool :=
  (grantOf cfg m).any fun req => req.type != .busUpgr &&
    (m.before.machine.line req.coreId (cfg.geometry.block req.addr)).isNone &&
    (m.before.machine.victim R cfg.geometry req.coreId req.addr).any fun v =>
      (m.before.machine.line req.coreId v).isNone

variable {cfg : Config} {R : ProtocolRules S} {s s' : Simulator S n} {e : Event n}

omit [LineState S] in
theorem WithinCapacity.of_entries (hold : s.WithinCapacity cfg)
    (h : ∀ j k, s'.machine.entries j k = s.machine.entries j k) : s'.WithinCapacity cfg := by
  intro j k
  have hk := hold j k
  change (s.machine.entries j k).card ≤ _ at hk
  change (s'.machine.entries j k).card ≤ _
  rwa [h]

theorem access_entries (i : Fin n) (entry : TraceEntry) (j : Fin n) (k : Nat) :
    (s.access cfg R i entry).2.entries j k = s.machine.entries j k := by
  apply Machine.entries_congr
  intro a
  rw [access_line]
  split <;> simp

theorem withinCapacity_fill_iff {m m' : Machine S n} {r : Fin n} {type : BusTransactionType}
    {addr : Addr} {g : Geometry} (hspec : FillSpec R g m r type addr m')
    (hold : ∀ j k, (m.entries j k).card ≤ g.assoc) :
    (∀ j k, (m'.entries j k).card ≤ g.assoc) ↔
      ((m.line r (g.block addr)).isNone && (m.victim R g r addr).any fun v =>
        (m.line r v).isNone) = false := by
  have hother (j : Fin n) (k : Nat) (h : ¬ (j = r ∧ k = g.setIdx addr)) :
      (m'.entries j k).card ≤ g.assoc := by
    rw [hspec.entries, if_neg h]
    exact hold j k
  have hown : (∀ j k, (m'.entries j k).card ≤ g.assoc) ↔
      (m'.entries r (g.setIdx addr)).card ≤ g.assoc := by
    constructor
    · intro h
      exact h r _
    · intro h j k
      by_cases hjk : j = r ∧ k = g.setIdx addr
      · rw [hjk.1, hjk.2]
        exact h
      · exact hother j k hjk
  rw [hown, hspec.entries, if_pos ⟨rfl, rfl⟩]
  have htag : (m.line r (g.block addr)).isNone = true ↔
      g.tag addr ∉ m.entries r (g.setIdx addr) := by
    rw [Machine.mem_entries]
    cases hl : m.line r ⟨g.setIdx addr, g.tag addr⟩ <;> simp [Geometry.block, hl]
  cases hv : m.victim R g r addr with
  | none =>
    have hroom : (m.entries r (g.setIdx addr)).card < g.assoc := hspec.room hv
    have hcard := Finset.card_insert_le (g.tag addr) (m.entries r (g.setIdx addr))
    exact iff_of_true (by simp only; omega) (by simp)
  | some v =>
    obtain ⟨hset, hfull, -⟩ := Machine.victim_entry hv
    have hvict : (m.line r v).isNone = true ↔ v.tag ∉ m.entries r (g.setIdx addr) := by
      rw [Machine.mem_entries, ← hset]
      cases m.line r v <;> simp
    rw [card_insert_erase_le_iff (hold r _) hfull, ← not_iff_not, Bool.not_eq_false,
      Option.any_some, Bool.and_eq_true, htag, hvict]
    tauto

theorem withinCapacity_fired_iff (htok : s.TokenInv) (hf : Fired cfg R (s.pop e) e s')
    (hold : s.WithinCapacity cfg) :
    s'.WithinCapacity cfg ↔ evictsAbsent cfg R ⟨s, e, s'⟩ = false := by
  have quiet (h : ∀ j k, s'.machine.entries j k = s.machine.entries j k)
      (hg : grantOf cfg ⟨s, e, s'⟩ = none) :
      s'.WithinCapacity cfg ↔ evictsAbsent cfg R ⟨s, e, s'⟩ = false :=
    iff_of_true (hold.of_entries h) (by rw [evictsAbsent, hg]; rfl)
  cases hf with
  | idle h => exact quiet (fun _ _ => rfl) (grantOf_idle h)
  | @grant t req latency machine free first bus =>
    have hg := grantOf_grant ((s.pop (.busArbitration t)).granted t req latency machine) free first
    rw [evictsAbsent, hg, Option.any_some]
    rcases bus_spec (htok.types req (minElement_mem first)) bus with ⟨hu, hspec⟩ | ⟨hfill, hspec⟩
    · exact iff_of_true (hold.of_entries hspec.entries) (by simp [hu])
    · have hu := bne_iff_ne.mpr (BusTransactionType.ne_busUpgr_of_fill hfill)
      rw [hu, Bool.true_and]
      exact withinCapacity_fill_iff hspec hold
  | @hit t i entry rest running read label resp =>
    exact quiet (access_entries (s := s.pop (.fetch t i)) i entry) rfl
  | @miss t i entry rest running read label resp =>
    exact quiet (access_entries (s := s.pop (.fetch t i)) i entry) rfl
  | _ => exact quiet (fun _ _ => rfl) rfl

/-- Along a run every set stays within its associativity exactly as long as no fill
of a full set picks a victim that has no line. -/
theorem set_capacity_iff (p : ProtocolName) (cfg : Config) (traces : Fin n → List TraceEntry)
    {h : List (Move (Simulator p.State n) (Event n))} {s : Simulator p.State n}
    (hr : (system cfg p.rules traces).Run h s) :
    (s.WithinCapacity cfg ∧ ∀ m ∈ h, m.before.WithinCapacity cfg) ↔
      ∀ m ∈ h, evictsAbsent cfg p.rules m = false := by
  induction hr with
  | start hs =>
    obtain rfl := hs
    refine iff_of_true ⟨?_, by simp⟩ (by simp)
    intro j k
    exact Nat.zero_le _
  | @next h s s' e hr hstep ih =>
    obtain ⟨-, -, hf⟩ := fired_of_step hstep
    have hstep := withinCapacity_fired_iff (tokenInv_reached p.missFills hr.reached) hf
    simp only [List.mem_cons, forall_eq_or_imp]
    rw [← ih]
    constructor
    · rintro ⟨hafter, hbefore, hall⟩
      exact ⟨(hstep hbefore).mp hafter, hbefore, hall⟩
    · rintro ⟨hno, hbefore, hall⟩
      exact ⟨(hstep hbefore).mpr hno, hbefore, hall⟩

/-- Core 1 stores to block 0 after core 0 has loaded it; core 0 loads it again and
goes on to three other blocks of the set. -/
def refilledBlock (i : Fin 2) : List TraceEntry :=
  if i = 0 then [⟨0, 0⟩, ⟨0, 0⟩, ⟨0, 4⟩, ⟨0, 8⟩, ⟨0, 12⟩] else [⟨1, 0⟩]

def refilledEvents : List (Event 2) :=
  [.fetch 0 0, .busArbitration 0, .fetch 0 1, .busRelease 101, .busArbitration 101,
    .coreUnblock 101 0, .fetch 101 0, .busRelease 104, .busArbitration 104, .coreUnblock 104 1,
    .fetch 104 1, .busRelease 107, .coreUnblock 107 0, .fetch 107 0, .busArbitration 107,
    .busRelease 208, .coreUnblock 208 0, .fetch 208 0, .busArbitration 208, .busRelease 309,
    .coreUnblock 309 0, .fetch 309 0, .busArbitration 309]

/-- The last load finds the two-way set full, evicts the stale second entry of block
0, which has no line, and leaves three lines. -/
theorem set_capacity_exceeded :
    ∃ (h : List (Move (Simulator MESIState 2) (Event 2))) (s : Simulator MESIState 2),
      (system tinyConfig (ProtocolName.rules .mesi) refilledBlock).Run h s ∧
      size ((s.machine.caches 0).sets 0).lines = 3 ∧ ¬ s.WithinCapacity tinyConfig := by
  obtain ⟨h, s, hr, ht⟩ := exists_run tinyConfig (ProtocolName.rules .mesi) refilledBlock
    refilledEvents (fun _ s => size ((s.machine.caches 0).sets 0).lines == 3) (by decide +kernel)
  have hsize : size ((s.machine.caches 0).sets 0).lines = 3 := beq_iff_eq.mp ht
  refine ⟨h, s, hr, hsize, ?_⟩
  intro hcap
  have hle : size ((s.machine.caches 0).sets 0).lines ≤ 2 := hcap 0 0
  omega

end Simulator
end CoherenceFormal
