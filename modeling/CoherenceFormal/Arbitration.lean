import CoherenceFormal.BusTiming
import Mathlib.Data.Prod.Lex

/-!
# First come, first served

Without READ_PRIORITY the arbiter grants the request of least arrival time, and of
least core id among those. It chooses among the requests that are in the queue
when the arbitration executes: an arbitration outranks the fetches of the same
cycle, so a request of that cycle may not have been queued yet.
-/

namespace CoherenceFormal
open LineState
set_option autoImplicit false

variable {S : Type} {n : Nat}

theorem minElement_le {α κ : Type} [LinearOrder κ] {precedes : α → α → Bool} (key : α → κ)
    (hkey : ∀ a b, precedes a b = true ↔ key a < key b) {l : List α} {a b : α}
    (h : minElement precedes l = some a) (hb : b ∈ l) : key a ≤ key b := by
  cases l with
  | nil => simp at hb
  | cons c rest =>
    have select (l : List α) (c : α) : ∀ b ∈ c :: l,
        key (l.foldl (fun smallest d => if precedes d smallest then d else smallest) c) ≤
          key b := by
      induction l generalizing c with
      | nil =>
        intro b hb
        obtain rfl := List.mem_singleton.mp hb
        exact le_refl _
      | cons d l ih =>
        intro b hb
        rw [List.foldl_cons]
        have hhead := ih (if precedes d c then d else c) _ List.mem_cons_self
        have hsel : key (if precedes d c then d else c) ≤ key c ∧
            key (if precedes d c then d else c) ≤ key d := by
          split
          · rename_i hlt
            exact ⟨le_of_lt ((hkey d c).mp hlt), le_refl _⟩
          · rename_i hle
            exact ⟨le_refl _, le_of_not_gt fun hlt => hle ((hkey d c).mpr hlt)⟩
        rcases List.mem_cons.mp hb with rfl | hb
        · exact hhead.trans hsel.1
        · rcases List.mem_cons.mp hb with rfl | hb
          · exact hhead.trans hsel.2
          · exact ih _ b (List.mem_cons_of_mem _ hb)
    obtain rfl := Option.some.inj h
    exact select rest c b hb

/-- The place of a request in the arbiter's order. -/
def BusRequest.rank (a : BusRequest n) : ℕ ×ₗ Fin n := toLex (a.arrivalTime, a.coreId)

theorem BusRequest.precedes_iff (a b : BusRequest n) :
    a.precedes false b = true ↔ a.rank < b.rank := by
  rw [rank, rank, Prod.Lex.toLex_lt_toLex]
  by_cases h : a.arrivalTime = b.arrivalTime
  · simp [precedes, h]
  · simp [precedes, h]

theorem BusRequest.rank_le {a b : BusRequest n} (h : a.rank ≤ b.rank) :
    a.arrivalTime < b.arrivalTime ∨ a.arrivalTime = b.arrivalTime ∧ a.coreId ≤ b.coreId :=
  Prod.Lex.toLex_le_toLex.mp h

namespace Simulator

def grantsTo (cfg : Config) (i : Fin n) (m : Move (Simulator S n) (Event n)) : Bool :=
  (grantOf cfg m).any (·.coreId = i)

theorem grant_first {cfg : Config} (hcfg : cfg.readPriority = false)
    {m : Move (Simulator S n) (Event n)} {req : BusRequest n} (hg : grantOf cfg m = some req)
    {b : BusRequest n} (hb : b ∈ m.before.busQueue) : req.rank ≤ b.rank := by
  unfold grantOf at hg
  rw [hcfg] at hg
  split at hg
  · split at hg
    · simp at hg
    · exact minElement_le BusRequest.rank BusRequest.precedes_iff hg hb
  · simp at hg

variable [LineState S] {cfg : Config} {R : ProtocolRules S} {traces : Fin n → List TraceEntry}
  {s s' : Simulator S n} {e : Event n} {h : List (Move (Simulator S n) (Event n))}

theorem BusStep.of_queuedBy (hb : BusStep cfg R s e s') {req : BusRequest n}
    (hq : queuedBy ⟨s, e, s'⟩ = some req) : e = .fetch req.arrivalTime req.coreId ∧
      s'.busQueue = s.busQueue ++ [req] ∧ s'.busBusy = s.busBusy ∧
      (s.busBusy = false → s.busQueue = []) ∧
      ∀ r, .busRelease r ∈ s.eventQueue → req.arrivalTime < r := by
  have unpushed (hlen : s'.busQueue.length ≤ s.busQueue.length) : False := by
    have hnone : s'.busQueue[s.busQueue.length]? = none := List.getElem?_eq_none hlen
    have hsome : s'.busQueue[s.busQueue.length]? = some req := hq
    simp [hnone] at hsome
  cases hb with
  | release busy pending free queue wake => exact (unpushed (by rw [queue])).elim
  | grant free first bus busy queue release =>
    apply (unpushed _).elim
    rw [queue]
    exact List.length_erase_le
  | @enqueue t req' s' arrival same queue alone keeps =>
    have hreq : req' = req := by
      have hpush : s'.busQueue[s.busQueue.length]? = some req := hq
      rw [queue] at hpush
      simpa using hpush
    subst hreq
    rw [arrival]
    exact ⟨rfl, queue, same, fun free => (alone free).1, fun r hr => (keeps r hr).1⟩
  | quiet none same queue alone keeps => exact (unpushed (by rw [queue])).elim

/-- What one step does to a queued request: it stays, or the step grants it. -/
theorem BusStep.mem_queue (hb : BusStep cfg R s e s') {req : BusRequest n}
    (hreq : req ∈ s.busQueue) : req ∈ s'.busQueue ∨ grantOf cfg ⟨s, e, s'⟩ = some req := by
  cases hb with
  | release busy pending free queue wake =>
    left
    rw [queue]
    exact hreq
  | @grant req' latency s' free first bus busy queue release =>
    by_cases heq : req = req'
    · right
      rw [heq]
      exact grantOf_grant s' free first
    · left
      rw [queue]
      exact (List.mem_erase_of_ne heq).mpr hreq
  | enqueue arrival same queue alone keeps =>
    left
    rw [queue]
    exact List.mem_append_left _ hreq
  | quiet none same queue alone keeps =>
    left
    rw [queue]
    exact hreq

/-- What has been queued waits still or has been granted since. -/
theorem queued_waits {later : List (Move (Simulator S n) (Event n))}
    {m : Move (Simulator S n) (Event n)} {req : BusRequest n}
    (hr : (system cfg R traces).Run (later ++ m :: h) s) (hq : queuedBy m = some req) :
    req ∈ s.busQueue ∨ ∃ g ∈ later, grantOf cfg g = some req := by
  refine hr.since (K := fun l s => req ∈ s.busQueue ∨ ∃ g ∈ l, grantOf cfg g = some req) ?_ ?_
  · intro s₀ hr₀
    left
    obtain ⟨hrun, hstep, rfl⟩ := hr₀.last
    obtain ⟨-, hqueue, -⟩ := (busStep_of_step hrun.reached hstep).of_queuedBy hq
    rw [hqueue]
    exact List.mem_append_right _ (List.mem_singleton_self req)
  · intro l s e s' hrun hstep hK
    rcases hK with hmem | ⟨g, hg, hgrant⟩
    · rcases (busStep_of_step hrun.reached hstep).mem_queue hmem with hmem | hgrant
      · exact .inl hmem
      · exact .inr ⟨_, List.mem_cons_self, hgrant⟩
    · exact .inr ⟨g, List.mem_cons_of_mem _ hg, hgrant⟩

/-- A request queued after a grant arrives no earlier than the granted one did. -/
theorem arrival_after_grant {later mid : List (Move (Simulator S n) (Event n))}
    {m g : Move (Simulator S n) (Event n)} {req req' : BusRequest n}
    (hr : (system cfg R traces).Run (later ++ m :: (mid ++ g :: h)) s)
    (hg : grantOf cfg g = some req) (hq : queuedBy m = some req') :
    req.arrivalTime ≤ req'.arrivalTime := by
  obtain ⟨hrun, hstep⟩ := hr.before_move
  obtain ⟨hrun₀, hstep₀⟩ := hrun.before_move
  obtain ⟨hlabel, -⟩ := (busStep_of_step hrun.reached hstep).of_queuedBy hq
  have harrived := (timingInv_run hrun₀).arrived req (grantOf_mem hg)
  have hmono : g.after.currentTime ≤ m.before.currentTime :=
    hrun.monotone currentTime fun hreach hs => (step_time (busInv_reached hreach) hs).2
  have hgrant := (step_time (busInv_reached hrun₀.reached) hstep₀).2
  obtain ⟨htime, hle⟩ := step_time (busInv_reached hrun.reached) hstep
  rw [hlabel] at htime
  change m.after.currentTime = req'.arrivalTime at htime
  omega

/-- Of two requests, the one granted first among those in the queue has arrived first. -/
theorem granted_in_between (hcfg : cfg.readPriority = false)
    {later mid : List (Move (Simulator S n) (Event n))} {m g : Move (Simulator S n) (Event n)}
    {req req' : BusRequest n} (hr : (system cfg R traces).Run (later ++ g :: (mid ++ m :: h)) s)
    (hq : queuedBy m = some req) (hg : grantOf cfg g = some req')
    (hlt : req.arrivalTime < req'.arrivalTime) : ∃ g' ∈ mid, grantOf cfg g' = some req := by
  obtain ⟨hrun, -⟩ := hr.before_move
  rcases queued_waits hrun hq with hmem | hgranted
  · rcases BusRequest.rank_le (grant_first hcfg hg hmem) with hle | ⟨heq, -⟩ <;> omega
  · exact hgranted

/-- Of the moves `wait` at most one grants to `j`, and after that one the requests of `j` are
behind `req`. -/
structure Bypassed (cfg : Config) (req : BusRequest n) (j : Fin n)
    (wait : List (Move (Simulator S n) (Event n))) (s : Simulator S n) : Prop where
  once : wait.countP (grantsTo cfg j) ≤ 1
  past : 0 < wait.countP (grantsTo cfg j) → req.arrivalTime < s.currentTime
  behind : 0 < wait.countP (grantsTo cfg j) →
    ∀ b ∈ s.busQueue, b.coreId = j → req.arrivalTime < b.arrivalTime

section
variable {wait : List (Move (Simulator S n) (Event n))} {req y : BusRequest n} {j : Fin n}

omit [LineState S] in
/-- A step that grants nothing to `j` leaves the count, and what it queues comes now. -/
theorem Bypassed.ungranted (hb : Bypassed cfg req j wait s)
    (hg : grantsTo cfg j ⟨s, e, s'⟩ = false) (hle : s.currentTime ≤ s'.currentTime)
    (hqueue : ∀ b ∈ s'.busQueue, b ∈ s.busQueue ∨ b.arrivalTime = s'.currentTime) :
    Bypassed cfg req j (⟨s, e, s'⟩ :: wait) s' := by
  have hcount : (⟨s, e, s'⟩ :: wait).countP (grantsTo cfg j) = wait.countP (grantsTo cfg j) :=
    List.countP_cons_of_neg (by simp [hg])
  constructor
  · rw [hcount]
    exact hb.once
  · intro hpos
    rw [hcount] at hpos
    exact Nat.lt_of_lt_of_le (hb.past hpos) hle
  · intro hpos b hmem hbj
    rw [hcount] at hpos
    rcases hqueue b hmem with hold | hnew
    · exact hb.behind hpos b hold hbj
    · have hlt := hb.past hpos
      omega

omit [LineState S] in
/-- The request of `j` that is granted is not behind `req`, so it is the first. -/
theorem Bypassed.granted (hb : Bypassed cfg req j wait s) (hg : grantOf cfg ⟨s, e, s'⟩ = some y)
    (hy : y ∈ s.busQueue) (hyj : y.coreId = j) (hrank : y.rank ≤ req.rank)
    (hpast : req.arrivalTime < s'.currentTime) (hgone : ∀ b ∈ s'.busQueue, b.coreId ≠ j) :
    Bypassed cfg req j (⟨s, e, s'⟩ :: wait) s' := by
  have hzero : wait.countP (grantsTo cfg j) = 0 := by
    apply Nat.eq_zero_of_not_pos
    intro hpos
    have hlt := hb.behind hpos y hy hyj
    have hle := BusRequest.rank_le hrank
    omega
  have hgj : grantsTo cfg j ⟨s, e, s'⟩ = true := by
    simp [grantsTo, hg, hyj]
  refine ⟨?_, fun _ => hpast, ?_⟩
  · rw [List.countP_cons_of_pos hgj, hzero]
  · intro _ b hmem hbj
    exact absurd hbj (hgone b hmem)

/-- A request waits beyond its own cycle if another one is granted. -/
theorem arrival_lt_grant (hr : (system cfg R traces).Run h s) (free : s.busBusy = false)
    (hreq : req ∈ s.busQueue) (hy : y ∈ s.busQueue) (hne : y.coreId ≠ req.coreId) :
    req.arrivalTime < s.currentTime := by
  rcases (timingInv_run hr).beyond req hreq with ⟨-, honly⟩ | hlt | ⟨hbusy, -⟩
  · rw [honly] at hy
    obtain rfl := List.mem_singleton.mp hy
    exact absurd rfl hne
  · exact hlt
  · simp [free] at hbusy

/-- While `req` waits: a core that has been granted once cannot come before it again. -/
theorem bypass_once (hcfg : cfg.readPriority = false) (hR : R.MissFills) (hj : j ≠ req.coreId)
    (hr : (system cfg R traces).Run (wait ++ h) s)
    (hwait : ∀ m ∈ wait, req ∈ m.before.busQueue) : Bypassed cfg req j wait s := by
  revert hwait
  refine hr.since (K := fun l s => (∀ m ∈ l, req ∈ m.before.busQueue) →
    Bypassed cfg req j l s) ?_ ?_
  · intro s₀ _ _
    exact ⟨by simp, by simp, by simp⟩
  · intro l s e s' hrun hstep hK hwait
    have hb := hK fun m hm => hwait m (List.mem_cons_of_mem _ hm)
    have hreq : req ∈ s.busQueue := hwait _ List.mem_cons_self
    obtain ⟨htime, hle⟩ := step_time (busInv_reached hrun.reached) hstep
    cases busStep_of_step hrun.reached hstep with
    | release busy pending free queue wake =>
      apply hb.ungranted rfl hle
      intro b hb
      rw [queue] at hb
      exact .inl hb
    | enqueue arrival same queue alone keeps =>
      apply hb.ungranted rfl hle
      intro b hb
      rw [queue] at hb
      rcases List.mem_append.mp hb with hb | hb
      · exact .inl hb
      · obtain rfl := List.mem_singleton.mp hb
        exact .inr (arrival.trans htime.symm)
    | quiet none same queue alone keeps =>
      apply hb.ungranted (by simp [grantsTo, none]) hle
      intro b hb
      rw [queue] at hb
      exact .inl hb
    | @grant y latency _ free first bus busy queue release =>
      have hg : grantOf cfg ⟨s, .busArbitration s.currentTime, s'⟩ = some y :=
        grantOf_grant s' free first
      have hy : y ∈ s.busQueue := minElement_mem first
      by_cases hyj : y.coreId = j
      · have hne : y.coreId ≠ req.coreId := by
          rw [hyj]
          exact hj
        apply hb.granted hg hy hyj (grant_first hcfg hg hreq)
        · exact Nat.lt_of_lt_of_le (arrival_lt_grant hrun free hreq hy hne) hle
        · intro b hmem hbj
          rw [queue] at hmem
          exact (tokenInv_reached hR hrun.reached).request_unique hy hmem (hbj.trans hyj.symm)
      · apply hb.ungranted (by simp [grantsTo, hg, hyj]) hle
        intro b hb
        rw [queue] at hb
        exact .inl (List.mem_of_mem_erase hb)

end

/-- Without READ_PRIORITY a request of smaller arrival time is granted before one of
larger arrival time, and while a request waits each other core is granted the bus at
most once. -/
theorem fcfs_bounded_bypass (p : ProtocolName) (cfg : Config) (hcfg : cfg.readPriority = false)
    (traces : Fin n → List TraceEntry) {h : List (Move (Simulator p.State n) (Event n))}
    {s : Simulator p.State n} (hr : (system cfg p.rules traces).Run h s) :
    (∀ later g mid m earlier x y, h = later ++ g :: (mid ++ m :: earlier) →
      queuedBy m = some x → grantOf cfg g = some y → x.arrivalTime < y.arrivalTime →
      ∃ g' ∈ mid, grantOf cfg g' = some x) ∧
    (∀ later m mid g earlier x y, h = later ++ m :: (mid ++ g :: earlier) →
      grantOf cfg g = some y → queuedBy m = some x → y.arrivalTime ≤ x.arrivalTime) ∧
    (∀ later wait earlier req, h = later ++ (wait ++ earlier) →
      (∀ m ∈ wait, req ∈ m.before.busQueue) →
      ∀ j, j ≠ req.coreId → wait.countP (grantsTo cfg j) ≤ 1) := by
  refine ⟨?_, ?_, ?_⟩
  · intro later g mid m earlier x y hh hq hg hlt
    subst hh
    exact granted_in_between hcfg hr hq hg hlt
  · intro later m mid g earlier x y hh hg hq
    subst hh
    exact arrival_after_grant hr hg hq
  · intro later wait earlier req hh hwait j hj
    subst hh
    obtain ⟨s₀, hr₀⟩ := hr.earlier
    exact (bypass_once hcfg p.missFills hj hr₀ hwait).once

/-- Core `i` loads its own block. -/
def ownLoads (i : Fin n) : List TraceEntry := [⟨0, 4 * BitVec.ofNat 32 i⟩]

theorem fcfs_bounded_bypass_waited :
    ∃ (h : List (Move (Simulator MESIState 3) (Event 3))) (s : Simulator MESIState 3),
      (system tinyConfig (ProtocolName.rules .mesi) ownLoads).Run h s ∧
      (∀ m ∈ h.take 2, ⟨2, .busRd, 8, 0⟩ ∈ m.before.busQueue) ∧
      1 ≤ (h.take 2).countP (grantsTo tinyConfig 1) ∧
      (h.take 2).countP (grantsTo tinyConfig 1) ≤ 1 := by
  obtain ⟨h, s, hr, ht⟩ := exists_run tinyConfig (ProtocolName.rules .mesi) (ownLoads (n := 3))
    [.fetch 0 0, .busArbitration 0, .fetch 0 1, .fetch 0 2, .busRelease 101, .busArbitration 101]
    (fun h _ => (h.take 2).all (fun m => decide (⟨2, .busRd, 8, 0⟩ ∈ m.before.busQueue)) &&
      decide (1 ≤ (h.take 2).countP (grantsTo tinyConfig 1))) (by decide +kernel)
  simp only [Bool.and_eq_true, List.all_eq_true, decide_eq_true_eq] at ht
  refine ⟨h, s, hr, ht.1, ht.2, ?_⟩
  exact (fcfs_bounded_bypass .mesi tinyConfig rfl ownLoads hr).2.2 [] (h.take 2) (h.drop 2)
    ⟨2, .busRd, 8, 0⟩ (by simp) ht.1 1 (by decide)

/-! ### Two requests of one cycle -/

section
variable {recent mid earlier : List (Move (Simulator S n) (Event n))}
  {m₁ m₂ : Move (Simulator S n) (Event n)} {a b : BusRequest n}

/-- A request that finds the bus free is granted before anything else happens. -/
theorem granted_alone (hr : (system cfg R traces).Run (mid ++ m₁ :: earlier) s)
    (ha : queuedBy m₁ = some a) (free : m₁.before.busBusy = false) :
    mid.any (grantsTo cfg a.coreId) = true ∨ (s.busBusy = false ∧ s.busQueue = [a]) := by
  refine hr.since (K := fun l s => l.any (grantsTo cfg a.coreId) = true ∨
    (s.busBusy = false ∧ s.busQueue = [a])) ?_ ?_
  · intro s₀ hr₀
    right
    obtain ⟨hrun, hstep, rfl⟩ := hr₀.last
    obtain ⟨-, hqueue, hsame, halone, -⟩ := (busStep_of_step hrun.reached hstep).of_queuedBy ha
    rw [hqueue, halone free, hsame]
    exact ⟨free, rfl⟩
  · intro l s e s' hrun hstep hK
    rcases hK with hserved | ⟨hfree, honly⟩
    · left
      rw [List.any_cons, hserved, Bool.or_true]
    · cases busStep_of_step hrun.reached hstep with
      | release busy pending free' queue wake => simp [hfree] at busy
      | @grant y latency _ free' first bus busy queue release =>
        left
        have hmem : y ∈ s.busQueue := minElement_mem first
        rw [honly] at hmem
        obtain rfl := List.mem_singleton.mp hmem
        simp [grantsTo, grantOf_grant s' free' first]
      | enqueue arrival same queue alone keeps =>
        have hempty := (alone hfree).1
        simp [honly] at hempty
      | quiet none same queue alone keeps =>
        have hempty := alone hfree
        simp [honly] at hempty

open Transaction (lastFinish) in
/-- After a request that finds the bus busy nothing is granted within its cycle. -/
theorem ungranted_cycle (hr : (system cfg R traces).Run (mid ++ m₁ :: earlier) s)
    (ha : queuedBy m₁ = some a) (busy : m₁.before.busBusy = true) :
    a.arrivalTime < s.currentTime ∨ ∀ m ∈ mid, grantOf cfg m = none := by
  have hK : a.arrivalTime < s.currentTime ∨ (s.busBusy = true ∧
      a.arrivalTime < lastFinish (transactions cfg R (mid ++ m₁ :: earlier)) ∧
      ∀ m ∈ mid, grantOf cfg m = none) := by
    refine hr.since (K := fun l s => a.arrivalTime < s.currentTime ∨ (s.busBusy = true ∧
      a.arrivalTime < lastFinish (transactions cfg R (l ++ m₁ :: earlier)) ∧
      ∀ m ∈ l, grantOf cfg m = none)) ?_ ?_
    · intro s₀ hr₀
      right
      obtain ⟨hrun, hstep, rfl⟩ := hr₀.last
      obtain ⟨hlabel, -, hsame, -, hheld⟩ :=
        (busStep_of_step hrun.reached hstep).of_queuedBy ha
      have hnone : grantOf cfg m₁ = none := by simp [grantOf, hlabel]
      refine ⟨hsame.trans busy, ?_, by simp⟩
      rw [List.nil_append, transactions_cons_of_none hnone]
      exact hheld _ ((timingInv_run hrun).release busy)
    · intro l s e s' hrun hstep hK
      obtain ⟨htime, hle⟩ := step_time (busInv_reached hrun.reached) hstep
      rcases hK with hlt | ⟨hbusy, hlt, hnone⟩
      · exact .inl (Nat.lt_of_lt_of_le hlt hle)
      -- a step that grants nothing and keeps the bus
      have held (hg : grantOf cfg ⟨s, e, s'⟩ = none) (hsame : s'.busBusy = s.busBusy) :
          s'.busBusy = true ∧ a.arrivalTime <
            lastFinish (transactions cfg R (⟨s, e, s'⟩ :: l ++ m₁ :: earlier)) ∧
            ∀ m ∈ ⟨s, e, s'⟩ :: l, grantOf cfg m = none := by
        refine ⟨hsame.trans hbusy, ?_, ?_⟩
        · rw [List.cons_append, transactions_cons_of_none hg]
          exact hlt
        · intro m hm
          rcases List.mem_cons.mp hm with rfl | hm
          · exact hg
          · exact hnone m hm
      cases busStep_of_step hrun.reached hstep with
      | @release t _ busy' pending free queue wake =>
        left
        have hunique : t = _ := (busInv_reached hrun.reached).release_unique pending
          ((timingInv_run hrun).release hbusy)
        change s'.currentTime = t at htime
        omega
      | grant free first bus busy' queue release => simp [hbusy] at free
      | enqueue arrival same queue alone keeps => exact .inr (held rfl same)
      | quiet none same queue alone keeps => exact .inr (held none same)
  rcases hK with hlt | ⟨-, -, hnone⟩
  · exact .inl hlt
  · exact .inr hnone

/-- Two requests of one cycle, the first of which finds the bus busy, are both in the queue
once the second one is. -/
theorem both_queued (hr : (system cfg R traces).Run (m₂ :: (mid ++ m₁ :: earlier)) s)
    (ha : queuedBy m₁ = some a) (hb : queuedBy m₂ = some b)
    (heq : a.arrivalTime = b.arrivalTime) (busy : m₁.before.busBusy = true) :
    (∀ m ∈ m₂ :: mid, grantOf cfg m = none) ∧ a ∈ s.busQueue ∧ b ∈ s.busQueue := by
  obtain ⟨hmid, hstep, rfl⟩ := hr.last
  obtain ⟨hlabel, hqueue, -⟩ := (busStep_of_step hmid.reached hstep).of_queuedBy hb
  have hnone : ∀ m ∈ mid, grantOf cfg m = none := by
    rcases ungranted_cycle hmid ha busy with hlt | hnone
    · -- `m₂` executes in the cycle of `a`
      have htime := step_time (busInv_reached hmid.reached) hstep
      rw [hlabel] at htime
      change m₂.after.currentTime = b.arrivalTime ∧ _ at htime
      omega
    · exact hnone
  rw [hqueue]
  refine ⟨?_, List.mem_append_left _ ?_, by simp⟩
  · intro m hm
    rcases List.mem_cons.mp hm with rfl | hm
    · simp [grantOf, hlabel]
    · exact hnone m hm
  · rcases queued_waits hmid ha with hmem | ⟨g, hg, hgrant⟩
    · exact hmem
    · simp [hnone g hg] at hgrant

/-- Two waiting requests of one arrival time are granted in the order of their cores. -/
theorem lower_granted_first (hcfg : cfg.readPriority = false) (hR : R.MissFills)
    (heq : a.arrivalTime = b.arrivalTime) (hlt : a.coreId < b.coreId)
    (hboth : ∀ s₀, (system cfg R traces).Run h s₀ → a ∈ s₀.busQueue ∧ b ∈ s₀.busQueue)
    (hr : (system cfg R traces).Run (recent ++ h) s)
    (hserved : recent.any (grantsTo cfg b.coreId) = true) :
    recent.any (grantsTo cfg a.coreId) = true := by
  have hK : recent.any (grantsTo cfg a.coreId) = true ∨
      (a ∈ s.busQueue ∧ b ∈ s.busQueue ∧ recent.any (grantsTo cfg b.coreId) = false) := by
    refine hr.since (K := fun l s => l.any (grantsTo cfg a.coreId) = true ∨
      (a ∈ s.busQueue ∧ b ∈ s.busQueue ∧ l.any (grantsTo cfg b.coreId) = false)) ?_ ?_
    · intro s₀ hr₀
      obtain ⟨ha, hb⟩ := hboth s₀ hr₀
      exact .inr ⟨ha, hb, rfl⟩
    · intro l s e s' hrun hstep hK
      rcases hK with hdone | ⟨ha, hb, hnot⟩
      · left
        rw [List.any_cons, hdone, Bool.or_true]
      -- the arbiter prefers `a` to `b`
      have hbnot : grantOf cfg ⟨s, e, s'⟩ ≠ some b := by
        intro hg
        rcases BusRequest.rank_le (grant_first hcfg hg ha) with hle | ⟨-, hle⟩ <;> omega
      have hstays := busStep_of_step hrun.reached hstep
      rcases hstays.mem_queue ha with ha' | hga
      · right
        have hb' := (hstays.mem_queue hb).resolve_right hbnot
        refine ⟨ha', hb', ?_⟩
        rw [List.any_cons, hnot, Bool.or_false]
        by_contra hto
        obtain ⟨y, hg, hy⟩ := (Option.any_eq_true _ _).mp (Bool.not_eq_false _ ▸ hto)
        have hyb : y.coreId = b.coreId := by simpa using hy
        have hne : b ≠ y := by
          rintro rfl
          exact hbnot hg
        have hmem : b ∈ s.busQueue.erase y := (List.mem_erase_of_ne hne).mpr hb
        exact (tokenInv_reached hR hrun.reached).request_unique (grantOf_mem hg) hmem hyb.symm
      · left
        simp [grantsTo, hga]
  rcases hK with hdone | ⟨-, -, hnot⟩
  · exact hdone
  · simp [hnot] at hserved

end

/-- `a` was queued just before the moves `mid`, and `b` by the move `m₂` after them.
At every later point of the run, if the core of the higher id has been granted the
bus since its request was queued, so has the other one. A core has one request at a
time, so its first grant since then is the grant of that request. -/
def LowerFirst (cfg : Config) (recent mid : List (Move (Simulator S n) (Event n)))
    (m₂ : Move (Simulator S n) (Event n)) (a b : BusRequest n) : Prop :=
  ∀ r, r <:+ recent →
    if a.coreId < b.coreId
    then r.any (grantsTo cfg b.coreId) = true →
      (r ++ m₂ :: mid).any (grantsTo cfg a.coreId) = true
    else (r ++ m₂ :: mid).any (grantsTo cfg a.coreId) = true →
      r.any (grantsTo cfg b.coreId) = true

/-- Two requests of one cycle are granted in the order of their cores exactly when
they are queued in that order or the first of them finds the bus busy. -/
theorem same_cycle_core_order (p : ProtocolName) (cfg : Config)
    (hcfg : cfg.readPriority = false) (traces : Fin n → List TraceEntry)
    {recent mid earlier : List (Move (Simulator p.State n) (Event n))}
    {m₁ m₂ : Move (Simulator p.State n) (Event n)} {s : Simulator p.State n} {a b : BusRequest n}
    (hr : (system cfg p.rules traces).Run (recent ++ m₂ :: (mid ++ m₁ :: earlier)) s)
    (ha : queuedBy m₁ = some a) (hb : queuedBy m₂ = some b) (hne : a.coreId ≠ b.coreId)
    (heq : a.arrivalTime = b.arrivalTime) :
    LowerFirst cfg recent mid m₂ a b ↔ (a.coreId < b.coreId ∨ m₁.before.busBusy = true) := by
  obtain ⟨hmid, hstep⟩ := hr.before_move
  obtain ⟨-, -, -, halone, -⟩ := (busStep_of_step hmid.reached hstep).of_queuedBy hb
  have alone (free : m₁.before.busBusy = false) : mid.any (grantsTo cfg a.coreId) = true := by
    rcases granted_alone hmid ha free with hserved | ⟨hfree, honly⟩
    · exact hserved
    · have hempty := halone hfree
      simp [honly] at hempty
  constructor
  · intro hfirst
    by_contra hcond
    obtain ⟨hnlt, hnbusy⟩ := not_or.mp hcond
    have hserved := alone (by simpa using hnbusy)
    have hzero := hfirst [] (List.nil_suffix)
    rw [if_neg hnlt] at hzero
    have hgranted := hzero (by simp [hserved])
    simp at hgranted
  · intro hcond r hsuffix
    obtain ⟨newer, hrecent⟩ := hsuffix
    subst hrecent
    rw [List.append_assoc] at hr
    obtain ⟨s₀, hr₀⟩ := hr.earlier
    cases hbusy : m₁.before.busBusy with
    | false =>
      have hlt : a.coreId < b.coreId := by simpa [hbusy] using hcond
      rw [if_pos hlt]
      intro _
      simp [alone hbusy]
    | true =>
      have both (s₁ : Simulator p.State n)
          (hr₁ : (system cfg p.rules traces).Run (m₂ :: (mid ++ m₁ :: earlier)) s₁) :=
        both_queued hr₁ ha hb heq hbusy
      have hmiss : (m₂ :: mid).any (grantsTo cfg a.coreId) = false := by
        apply List.any_eq_false.mpr
        intro m hm
        simp [grantsTo, (both _ (hmid.next hstep)).1 m hm]
      have hsplit : (r ++ m₂ :: mid).any (grantsTo cfg a.coreId) =
          r.any (grantsTo cfg a.coreId) := by
        rw [List.any_append, hmiss, Bool.or_false]
      rw [hsplit]
      split
      · rename_i hlt
        exact lower_granted_first hcfg p.missFills heq hlt (fun s₁ hr₁ => (both s₁ hr₁).2) hr₀
      · rename_i hnlt
        have hlt : b.coreId < a.coreId := by omega
        exact lower_granted_first hcfg p.missFills heq.symm hlt
          (fun s₁ hr₁ => (both s₁ hr₁).2.symm) hr₀

theorem same_cycle_core_order_busy :
    ∃ (recent earlier : List (Move (Simulator MESIState 3) (Event 3)))
      (m₁ m₂ : Move (Simulator MESIState 3) (Event 3)) (s : Simulator MESIState 3)
      (a b : BusRequest 3),
      (system tinyConfig (ProtocolName.rules .mesi) ownLoads).Run
        (recent ++ m₂ :: ([] ++ m₁ :: earlier)) s ∧
      queuedBy m₁ = some a ∧ queuedBy m₂ = some b ∧ b.coreId < a.coreId ∧
      recent.any (grantsTo tinyConfig b.coreId) = true ∧
      LowerFirst tinyConfig recent [] m₂ a b := by
  obtain ⟨h, s, hr, ht⟩ := exists_run tinyConfig (ProtocolName.rules .mesi) (ownLoads (n := 3))
    [.fetch 0 0, .busArbitration 0, .fetch 0 2, .fetch 0 1, .busRelease 101, .busArbitration 101]
    (fun h _ => match h with
      | g :: r :: m₂ :: m₁ :: _ =>
        queuedBy m₁ == some ⟨2, .busRd, 8, 0⟩ && queuedBy m₂ == some ⟨1, .busRd, 4, 0⟩ &&
          m₁.before.busBusy && [g, r].any (grantsTo tinyConfig 1)
      | _ => false) (by decide +kernel)
  split at ht
  · rename_i g r m₂ m₁ earlier
    simp only [Bool.and_eq_true, beq_iff_eq] at ht
    obtain ⟨⟨⟨ha, hb⟩, hbusy⟩, hserved⟩ := ht
    have hr : (system tinyConfig (ProtocolName.rules .mesi) ownLoads).Run
        ([g, r] ++ m₂ :: ([] ++ m₁ :: earlier)) s := hr
    exact ⟨[g, r], earlier, m₁, m₂, s, _, _, hr, ha, hb, by decide, hserved,
      (same_cycle_core_order .mesi tinyConfig rfl ownLoads hr ha hb (by decide) rfl).mpr
        (.inr hbusy)⟩
  · simp at ht

/-- Of four cores, the two in the middle load one block. -/
def innerLoads (i : Fin 4) : List TraceEntry :=
  if i.val = 1 ∨ i.val = 2 then [⟨0, 0⟩] else []

/-- All four Fetches are due at 0. A binary heap that is filled in the order of the cores and
takes the right child when two are equal pops those of cores 0, 2, 3 and 1. The bus is then free
when core 2 misses, and core 2 is granted it before the request of core 1 is even queued. If the
heap popped the Fetch of core 1 before that of core 2, core 1 would be first. -/
theorem same_cycle_core_order_lost :
    (∃ (f₀ m₁ g f₃ m₂ : Move (Simulator MESIState 4) (Event 4)) (s : Simulator MESIState 4)
        (a b : BusRequest 4),
      (system tinyConfig mesi innerLoads).Run [m₂, f₃, g, m₁, f₀] s ∧
      [f₀, m₁, g, f₃, m₂].map (·.label) =
        [.fetch 0 0, .fetch 0 2, .busArbitration 0, .fetch 0 3, .fetch 0 1] ∧
      queuedBy m₁ = some a ∧ queuedBy m₂ = some b ∧ a.arrivalTime = b.arrivalTime ∧
      b.coreId < a.coreId ∧ ¬ LowerFirst tinyConfig [] [f₃, g] m₂ a b ∧
      ([m₂, f₃, g, m₁, f₀].filterMap (grantOf tinyConfig)).map (·.coreId) = [2]) ∧
    ∃ (h : List (Move (Simulator MESIState 4) (Event 4))) (s : Simulator MESIState 4),
      (system tinyConfig mesi innerLoads).Run h s ∧
      (h.filterMap (grantOf tinyConfig)).map (·.coreId) = [1] := by
  constructor
  · obtain ⟨h, s, hr, ht⟩ := exists_run tinyConfig mesi innerLoads
      [.fetch 0 0, .fetch 0 2, .busArbitration 0, .fetch 0 3, .fetch 0 1]
      (fun h _ => match h with
        | [m₂, f₃, g, m₁, f₀] =>
          [f₀, m₁, g, f₃, m₂].map (·.label) ==
              [.fetch 0 0, .fetch 0 2, .busArbitration 0, .fetch 0 3, .fetch 0 1] &&
            queuedBy m₁ == some ⟨2, .busRd, 0, 0⟩ && queuedBy m₂ == some ⟨1, .busRd, 0, 0⟩ &&
            grantsTo tinyConfig 2 g &&
            ([m₂, f₃, g, m₁, f₀].filterMap (grantOf tinyConfig)).map (·.coreId) == [2]
        | _ => false) (by decide)
    split at ht
    · rename_i m₂ f₃ g m₁ f₀
      simp only [Bool.and_eq_true, beq_iff_eq] at ht
      obtain ⟨⟨⟨⟨hlabels, ha⟩, hb⟩, hserved⟩, hgrants⟩ := ht
      refine ⟨f₀, m₁, g, f₃, m₂, s, _, _, hr, hlabels, ha, hb, rfl, by decide, ?_, hgrants⟩
      intro hfirst
      have hzero := hfirst [] List.nil_suffix
      rw [if_neg (by decide)] at hzero
      have hgranted := hzero (by simp [hserved])
      simp at hgranted
    · simp at ht
  · obtain ⟨h, s, hr, ht⟩ := exists_run tinyConfig mesi innerLoads
      [.fetch 0 0, .fetch 0 1, .busArbitration 0, .fetch 0 2, .fetch 0 3]
      (fun h _ => (h.filterMap (grantOf tinyConfig)).map (·.coreId) == [1]) (by decide)
    exact ⟨h, s, hr, beq_iff_eq.mp ht⟩

end Simulator
end CoherenceFormal
