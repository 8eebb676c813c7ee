import CoherenceFormal.Arbitration

/-!
# Reads first

With READ_PRIORITY the arbiter grants a BUS_RD before any other request, and goes by arrival
time and core id only within the reads and within the rest. A read is bypassed no more than
without the option. A store's request has to wait for all the reads that come in the meantime.
-/

namespace CoherenceFormal
open LineState
set_option autoImplicit false

variable {S : Type} {n : Nat}

/-- The class of a request: reads come before the rest. -/
def BusRequest.priority (a : BusRequest n) : ℕ := if a.type = .busRd then 0 else 1

/-- The place of a request in the order of an arbiter that prefers reads. -/
def BusRequest.readRank (a : BusRequest n) : ℕ ×ₗ ℕ ×ₗ Fin n := toLex (a.priority, a.rank)

theorem BusRequest.precedes_reads_iff (a b : BusRequest n) :
    a.precedes true b = true ↔ a.readRank < b.readRank := by
  rw [readRank, readRank, Prod.Lex.toLex_lt_toLex, ← precedes_iff]
  by_cases ha : a.type = .busRd
  · by_cases hb : b.type = .busRd <;> simp [precedes, priority, ha, hb]
  · by_cases hb : b.type = .busRd <;> simp [precedes, priority, ha, hb]

theorem BusRequest.rank_le_of_readRank {a b : BusRequest n} (h : a.readRank ≤ b.readRank)
    (hclass : b.priority ≤ a.priority) : a.priority = b.priority ∧ a.rank ≤ b.rank := by
  rcases Prod.Lex.toLex_le_toLex.mp h with hlt | ⟨heq, hle⟩
  · omega
  · exact ⟨heq, hle⟩

namespace Simulator

theorem grant_first_read {cfg : Config} (hcfg : cfg.readPriority = true)
    {m : Move (Simulator S n) (Event n)} {req : BusRequest n} (hg : grantOf cfg m = some req)
    {b : BusRequest n} (hb : b ∈ m.before.busQueue) : req.readRank ≤ b.readRank := by
  unfold grantOf at hg
  rw [hcfg] at hg
  split at hg
  · split at hg
    · simp at hg
    · exact minElement_le BusRequest.readRank BusRequest.precedes_reads_iff hg hb
  · simp at hg

/-- The request granted is a read if any read waits. -/
theorem grant_read {cfg : Config} (hcfg : cfg.readPriority = true)
    {m : Move (Simulator S n) (Event n)} {req : BusRequest n} (hg : grantOf cfg m = some req)
    {b : BusRequest n} (hb : b ∈ m.before.busQueue) (hread : b.type = .busRd) :
    req.type = .busRd ∧ req.rank ≤ b.rank := by
  have hfirst := grant_first_read hcfg hg hb
  have hzero : b.priority = 0 := if_pos hread
  obtain ⟨hclass, hle⟩ := BusRequest.rank_le_of_readRank hfirst (by omega)
  refine ⟨?_, hle⟩
  by_contra hother
  have hone : req.priority = 1 := if_neg hother
  omega

variable [LineState S] {cfg : Config} {R : ProtocolRules S} {traces : Fin n → List TraceEntry}
  {s s' : Simulator S n} {e : Event n} {h : List (Move (Simulator S n) (Event n))}

/-- Of two requests of one class the one that has arrived first is granted first. -/
theorem granted_in_class (hcfg : cfg.readPriority = true)
    {later mid : List (Move (Simulator S n) (Event n))} {m g : Move (Simulator S n) (Event n)}
    {req req' : BusRequest n} (hr : (system cfg R traces).Run (later ++ g :: (mid ++ m :: h)) s)
    (hq : queuedBy m = some req) (hg : grantOf cfg g = some req')
    (hclass : req.priority ≤ req'.priority) (hlt : req.arrivalTime < req'.arrivalTime) :
    ∃ g' ∈ mid, grantOf cfg g' = some req := by
  obtain ⟨hrun, -⟩ := hr.before_move
  rcases queued_waits hrun hq with hmem | hgranted
  · have hle := (BusRequest.rank_le_of_readRank (grant_first_read hcfg hg hmem) hclass).2
    rcases BusRequest.rank_le hle with hle | ⟨heq, -⟩ <;> omega
  · exact hgranted

/-- What is in the queue after a step was there before it, or arrives with it. -/
theorem BusStep.arrivals (hb : BusStep cfg R s e s') {b : BusRequest n} (hmem : b ∈ s'.busQueue) :
    b ∈ s.busQueue ∨ b.arrivalTime = e.timestamp := by
  cases hb with
  | release busy pending free queue wake =>
    rw [queue] at hmem
    exact .inl hmem
  | grant free first bus busy queue release =>
    rw [queue] at hmem
    exact .inl (List.mem_of_mem_erase hmem)
  | enqueue arrival same queue alone keeps =>
    rw [queue] at hmem
    rcases List.mem_append.mp hmem with hmem | hmem
    · exact .inl hmem
    · obtain rfl := List.mem_singleton.mp hmem
      exact .inr arrival
  | quiet none same queue alone keeps =>
    rw [queue] at hmem
    exact .inl hmem

omit [LineState S] in
theorem free_of_grant {m : Move (Simulator S n) (Event n)} {req : BusRequest n}
    (hg : grantOf cfg m = some req) : m.before.busBusy = false := by
  unfold grantOf at hg
  split at hg
  · split at hg
    · simp at hg
    · rename_i hfree
      simpa using hfree
  · simp at hg

/-- While a read waits: a core that has been granted once cannot come before it again. -/
theorem read_bypass_once (hcfg : cfg.readPriority = true) (hR : R.MissFills)
    {wait : List (Move (Simulator S n) (Event n))} {req : BusRequest n}
    (hread : req.type = .busRd) {j : Fin n} (hj : j ≠ req.coreId)
    (hr : (system cfg R traces).Run (wait ++ h) s)
    (hwait : ∀ m ∈ wait, req ∈ m.before.busQueue) : Bypassed cfg req j wait s := by
  revert hwait
  refine hr.since (K := fun l s => (∀ m ∈ l, req ∈ m.before.busQueue) →
    Bypassed cfg req j l s) ?_ ?_
  · intro s₀ _ _
    exact ⟨by simp, by simp, by simp⟩
  · intro l s e s' hrun hstep hK hwait
    have hb := hK fun m hm => hwait m (List.mem_cons_of_mem _ hm)
    have hreq : req ∈ s.busQueue := hwait _ List.mem_cons_self
    obtain ⟨htime, hle⟩ := step_time (busInv_reached hrun.reached) hstep
    cases hgj : grantsTo cfg j ⟨s, e, s'⟩ with
    | false =>
      apply hb.ungranted hgj hle
      intro b hmem
      rw [htime]
      exact (busStep_of_step hrun.reached hstep).arrivals hmem
    | true =>
      obtain ⟨y, hg, hyj⟩ := (Option.any_eq_true _ _).mp hgj
      have hyj : y.coreId = j := by simpa using hyj
      have hy : y ∈ s.busQueue := grantOf_mem hg
      have hne : y.coreId ≠ req.coreId := by
        rw [hyj]
        exact hj
      -- what is granted before a read is a read that has not arrived later
      apply hb.granted hg hy hyj (grant_read hcfg hg hreq hread).2
      · exact Nat.lt_of_lt_of_le (arrival_lt_grant hrun (free_of_grant hg) hreq hy hne) hle
      · intro b hmem hbj
        obtain ⟨-, -, hf⟩ := fired_of_step hstep
        obtain ⟨t, latency, machine, -, -, rfl⟩ := granted_of_fired hf hg
        exact (tokenInv_reached hR hrun.reached).request_unique hy hmem (hbj.trans hyj.symm)

/-- With READ_PRIORITY no other request is granted while a read waits. Within the reads, and
within the rest, the one that arrived first is granted first, and no request that is queued
after a grant arrived before the one granted. While a read waits each other core is granted the
bus at most once. -/
theorem reads_first_bounded_bypass (p : ProtocolName) (cfg : Config)
    (hcfg : cfg.readPriority = true) (traces : Fin n → List TraceEntry)
    {h : List (Move (Simulator p.State n) (Event n))} {s : Simulator p.State n}
    (hr : (system cfg p.rules traces).Run h s) :
    (∀ g ∈ h, ∀ x ∈ g.before.busQueue, ∀ y, x.type = .busRd → grantOf cfg g = some y →
      y.type = .busRd) ∧
    (∀ later g mid m earlier x y, h = later ++ g :: (mid ++ m :: earlier) →
      queuedBy m = some x → grantOf cfg g = some y → (x.type = .busRd ↔ y.type = .busRd) →
      x.arrivalTime < y.arrivalTime → ∃ g' ∈ mid, grantOf cfg g' = some x) ∧
    (∀ later m mid g earlier x y, h = later ++ m :: (mid ++ g :: earlier) →
      grantOf cfg g = some y → queuedBy m = some x → y.arrivalTime ≤ x.arrivalTime) ∧
    (∀ later wait earlier req, h = later ++ (wait ++ earlier) → req.type = .busRd →
      (∀ m ∈ wait, req ∈ m.before.busQueue) →
      ∀ j, j ≠ req.coreId → wait.countP (grantsTo cfg j) ≤ 1) := by
  refine ⟨?_, ?_, ?_, ?_⟩
  · intro g _ x hx y hread hg
    exact (grant_read hcfg hg hx hread).1
  · intro later g mid m earlier x y hh hq hg hclass hlt
    subst hh
    have hsame : x.priority ≤ y.priority := by
      simp [BusRequest.priority, hclass]
    exact granted_in_class hcfg hr hq hg hsame hlt
  · intro later m mid g earlier x y hh hg hq
    subst hh
    exact arrival_after_grant hr hg hq
  · intro later wait earlier req hh hread hwait j hj
    subst hh
    obtain ⟨s₀, hr₀⟩ := hr.earlier
    exact (read_bypass_once hcfg p.missFills hread hj hr₀ hwait).once

/-- Core 1 stores to its own block, the others load theirs. -/
def storeOfOne (i : Fin n) : List TraceEntry :=
  [⟨if i.val = 1 then 1 else 0, 4 * BitVec.ofNat 32 i⟩]

theorem reads_first_bounded_bypass_overtaken :
    ∃ (h : List (Move (Simulator MESIState 3) (Event 3))) (s : Simulator MESIState 3)
      (g : Move (Simulator MESIState 3) (Event 3)),
      (system ⟨true, tinyConfig.geometry⟩ (ProtocolName.rules .mesi) storeOfOne).Run h s ∧
      g ∈ h ∧ ⟨1, .busRdx, 4, 0⟩ ∈ g.before.busQueue ∧ ⟨2, .busRd, 8, 0⟩ ∈ g.before.busQueue ∧
      ∃ y, grantOf ⟨true, tinyConfig.geometry⟩ g = some y ∧ y.type = .busRd := by
  obtain ⟨h, s, hr, ht⟩ := exists_run ⟨true, tinyConfig.geometry⟩ (ProtocolName.rules .mesi)
    (storeOfOne (n := 3))
    [.fetch 0 0, .busArbitration 0, .fetch 0 1, .fetch 0 2, .busRelease 101, .busArbitration 101]
    (fun h _ => h.any fun g => decide (⟨1, .busRdx, 4, 0⟩ ∈ g.before.busQueue) &&
      decide (⟨2, .busRd, 8, 0⟩ ∈ g.before.busQueue) &&
      (grantOf ⟨true, tinyConfig.geometry⟩ g).isSome) (by decide +kernel)
  obtain ⟨g, hg, ht⟩ := List.any_eq_true.mp ht
  simp only [Bool.and_eq_true, decide_eq_true_eq] at ht
  obtain ⟨⟨hstore, hread⟩, hgrant⟩ := ht
  obtain ⟨y, hy⟩ := Option.isSome_iff_exists.mp hgrant
  refine ⟨h, s, g, hr, hg, hstore, hread, y, hy, ?_⟩
  exact (reads_first_bounded_bypass .mesi ⟨true, tinyConfig.geometry⟩ rfl storeOfOne hr).1
    g hg ⟨2, .busRd, 8, 0⟩ hread y rfl hy

end Simulator
end CoherenceFormal
