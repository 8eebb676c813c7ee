import CoherenceFormal.BusInvariant

/-!
# Blocking cores

The token invariant with the history of grants: who is on the bus, and whose
transaction has just left it.
-/

namespace CoherenceFormal
open LineState
set_option autoImplicit false

variable {S : Type} {n : Nat}

namespace Simulator

def lastGrant (cfg : Config) (h : List (Move (Simulator S n) (Event n))) :
    Option (BusRequest n) := h.findSome? (grantOf cfg)

/-- The transaction of `i`, which ends at `t`, is on the bus. -/
def HoldsBus (cfg : Config) (h : List (Move (Simulator S n) (Event n))) (s : Simulator S n)
    (t : Nat) (i : Fin n) : Prop :=
  s.busBusy = true ∧ .busRelease t ∈ s.eventQueue ∧ (lastGrant cfg h).map (·.coreId) = some i

/-- The Release that ended the transaction of `i` has executed at the current time. -/
def JustReleased (cfg : Config) (h : List (Move (Simulator S n) (Event n))) (s : Simulator S n)
    (t : Nat) (i : Fin n) : Prop :=
  s.currentTime = t ∧ ∃ later m earlier, h = later ++ m :: earlier ∧ m.label = .busRelease t ∧
    (lastGrant cfg earlier).map (·.coreId) = some i

def UnblocksServed (cfg : Config) (h : List (Move (Simulator S n) (Event n)))
    (s : Simulator S n) : Prop :=
  ∀ t i, .coreUnblock t i ∈ s.eventQueue → HoldsBus cfg h s t i ∨ JustReleased cfg h s t i

theorem lastGrant_cons_of_none {cfg : Config} {m : Move (Simulator S n) (Event n)}
    {h : List (Move (Simulator S n) (Event n))} (hm : grantOf cfg m = none) :
    lastGrant cfg (m :: h) = lastGrant cfg h := by
  simp [lastGrant, hm]

theorem lastGrant_cons_of_some {cfg : Config} {m : Move (Simulator S n) (Event n)}
    {h : List (Move (Simulator S n) (Event n))} {req : BusRequest n}
    (hm : grantOf cfg m = some req) : lastGrant cfg (m :: h) = some req := by
  simp [lastGrant, hm]

variable [LineState S] {cfg : Config} {R : ProtocolRules S} {s s' : Simulator S n} {e : Event n}
  {h : List (Move (Simulator S n) (Event n))} {t : Nat} {i : Fin n}

/-- Time cannot pass while an Unblock of the current time is pending. -/
theorem JustReleased.keep (hinv : s.BusInv) (he : e ∈ s.eventQueue)
    (htop : e.isTop s.eventQueue = true) (hf : Fired cfg R (s.pop e) e s')
    (hu : .coreUnblock t i ∈ s.eventQueue) (hj : JustReleased cfg h s t i) :
    JustReleased cfg (⟨s, e, s'⟩ :: h) s' t i := by
  obtain ⟨ht, later, m, earlier, rfl, hm, hg⟩ := hj
  refine ⟨?_, ⟨s, e, s'⟩ :: later, m, earlier, rfl, hm, hg⟩
  have hge := hinv.pending e he
  have hle := Event.isTop_le htop hu
  rw [fired_currentTime hf]
  change e.timestamp = t
  change e.timestamp ≤ t at hle
  omega

theorem HoldsBus.keep (hrel : e.isRelease = false) (hbusy : s'.busBusy = s.busBusy)
    (hf : Fired cfg R (s.pop e) e s') (hg : grantOf cfg ⟨s, e, s'⟩ = none)
    (hj : HoldsBus cfg h s t i) : HoldsBus cfg (⟨s, e, s'⟩ :: h) s' t i := by
  obtain ⟨hb, hr, hl⟩ := hj
  refine ⟨hbusy.trans hb, ?_, by rwa [lastGrant_cons_of_none hg]⟩
  obtain ⟨new, hq, -⟩ := fired_scheduled hf
  rw [hq]
  refine List.mem_append_right _ ((List.mem_erase_of_ne ?_).mpr hr)
  rintro rfl
  simp [Event.isRelease] at hrel

/-- An Unblock that was not there before the event is the one of a grant. -/
theorem fired_unblock (hf : Fired cfg R s e s') (hu : .coreUnblock t i ∈ s'.eventQueue) :
    .coreUnblock t i ∈ s.eventQueue ∨ ∃ t₀ req latency machine, e = .busArbitration t₀ ∧
      s.busBusy = false ∧
      minElement (BusRequest.precedes cfg.readPriority) s.busQueue = some req ∧
      s' = s.granted t₀ req latency machine ∧ t = t₀ + latency ∧ i = req.coreId := by
  cases hf with
  | @release t' =>
    rcases List.mem_append.mp hu with hu | hu
    · split at hu <;> simp at hu
    · exact .inl hu
  | @grant t' req latency machine free first bus =>
    simp only [granted, List.mem_append, List.mem_cons, reduceCtorEq, false_or] at hu
    rcases hu with hu | hu
    · split at hu
      · have heq := List.mem_singleton.mp hu
        obtain ⟨rfl, rfl⟩ := Event.coreUnblock.inj heq
        exact .inr ⟨t', req, latency, machine, rfl, free, first, rfl, rfl, rfl⟩
      · simp at hu
    · exact .inl hu
  | @unblock t' j =>
    simp only [coreUnblock, schedule, List.mem_cons, reduceCtorEq, false_or] at hu
    exact .inl hu
  | @compute t' j entry rest running read label =>
    simp only [computed, List.mem_cons, reduceCtorEq, false_or] at hu
    exact .inl hu
  | @hit t' j entry rest running read label resp =>
    simp only [Simulator.hit, List.mem_cons, reduceCtorEq, false_or] at hu
    exact .inl hu
  | @miss t' j entry rest running read label resp =>
    rcases List.mem_append.mp hu with hu | hu
    · split at hu <;> simp at hu
    · exact .inl hu
  | _ => exact .inl hu

theorem unblocksServed_fired (hinv : s.BusInv) (he : e ∈ s.eventQueue)
    (htop : e.isTop s.eventQueue = true) (hf : Fired cfg R (s.pop e) e s')
    (hs : UnblocksServed cfg h s) : UnblocksServed cfg (⟨s, e, s'⟩ :: h) s' := by
  intro t i hu
  rcases fired_unblock hf hu with hu | ⟨t₀, req, latency, machine, rfl, free, first, rfl, rfl, rfl⟩
  · have hu := List.mem_of_mem_erase hu
    rcases hs t i hu with hh | hj
    · have hfired := hf
      cases hf with
      | @release t' =>
        obtain rfl := hinv.release_unique hh.2.1 he
        exact .inr ⟨rfl, [], _, h, rfl, rfl, hh.2.2⟩
      | idle hidle => exact .inl (hh.keep rfl rfl hfired (grantOf_idle hidle))
      | grant free first bus =>
        have hb : s.busBusy = true := hh.1
        simp [hb] at free
      | _ => exact .inl (hh.keep rfl rfl hfired rfl)
    · exact .inr (hj.keep hinv he htop hf hu)
  · left
    refine ⟨rfl, by simp [granted], ?_⟩
    rw [lastGrant_cons_of_some (grantOf_grant _ free first)]
    rfl

theorem unblocksServed_run {traces : Fin n → List TraceEntry}
    (hr : (system cfg R traces).Run h s) : UnblocksServed cfg h s := by
  refine hr.history (fun s => busInv_reached) ?_ ?_
  · rintro s rfl t i hu
    simp [start] at hu
  · intro h s e s' hstep hinv hs
    obtain ⟨he, htop, hf⟩ := fired_of_step hstep
    exact unblocksServed_fired hinv he htop hf hs

/-- A granted request gets its Unblock. -/
theorem grant_schedules_unblock (htok : s.TokenInv) (hf : Fired cfg R (s.pop e) e s')
    {req : BusRequest n} (hg : grantOf cfg ⟨s, e, s'⟩ = some req) :
    ∃ t, .coreUnblock t req.coreId ∈ s'.eventQueue := by
  have htype := (htok.types req (grantOf_mem hg)).ne_writeback
  obtain ⟨t, latency, machine, rfl, -, rfl⟩ := granted_of_fired hf hg
  exact ⟨t + latency, by simp [granted, htype]⟩

/-- Every core has exactly one token: a pending Fetch while it is not blocked, a
queued request or a pending Unblock while it is, or none once its trace is
exhausted. No Fetch ever finds its core blocked and no grant lacks an Unblock. -/
theorem blocking_core_token (p : ProtocolName) (cfg : Config) (traces : Fin n → List TraceEntry)
    {h : List (Move (Simulator p.State n) (Event n))} {s : Simulator p.State n}
    (hr : (system cfg p.rules traces).Run h s) :
    (∀ i, ∃! k, s.InSituation i k) ∧ UnblocksServed cfg h s ∧
      (∀ req ∈ s.busQueue, req.type.requestable) ∧
      (∀ m ∈ h, ∀ t i, m.label = .fetch t i → m.before.blocked i = false) ∧
      (∀ m ∈ h, ∀ req, grantOf cfg m = some req →
        ∃ t, .coreUnblock t req.coreId ∈ m.after.eventQueue) := by
  have htok {s : Simulator p.State n} (hr : (system cfg p.rules traces).Reached s) :
      s.TokenInv := tokenInv_reached p.missFills hr
  refine ⟨?_, unblocksServed_run hr, (htok hr.reached).types, ?_, ?_⟩
  · intro i
    obtain ⟨k, hk⟩ := (htok hr.reached).situated i
    exact ⟨k, hk, fun k' hk' => inSituation_unique hk hk'⟩
  · intro m hm t i hlabel
    obtain ⟨hreach, hstep⟩ := hr.move hm
    obtain ⟨he, -, -⟩ := fired_of_step hstep
    rw [hlabel] at he
    exact (InSituation.of_fetch ((htok hreach).situated i) he).2.2.2
  · intro m hm req hg
    obtain ⟨hreach, hstep⟩ := hr.move hm
    obtain ⟨-, -, hf⟩ := fired_of_step hstep
    exact grant_schedules_unblock (htok hreach) hf hg

theorem blocking_core_token_waiting :
    ∃ (h : List (Move (Simulator MESIState 2) (Event 2))) (s : Simulator MESIState 2),
      (system tinyConfig (ProtocolName.rules .mesi) storeAndLoad).Run h s ∧
      s.busQueue.length = 1 ∧ ∀ i, ∃! k, s.InSituation i k := by
  obtain ⟨h, s, hr, ht⟩ := exists_run tinyConfig (ProtocolName.rules .mesi) storeAndLoad
    [.fetch 0 0, .busArbitration 0, .fetch 0 1]
    (fun _ s => s.busQueue.length == 1) (by decide +kernel)
  exact ⟨h, s, hr, beq_iff_eq.mp ht, (blocking_core_token .mesi _ _ hr).1⟩

end Simulator
end CoherenceFormal
