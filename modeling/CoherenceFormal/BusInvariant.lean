import CoherenceFormal.TokenInvariant

/-!
# The bus and the clock

The bus is busy exactly while one Release is pending, and no pending event lies in
the past. From this, and from the history of grants, every pending Unblock belongs
to the transaction on the bus or to one released at the current time.
-/

namespace CoherenceFormal
open LineState
set_option autoImplicit false

variable {S : Type} {n : Nat}

theorem Event.isTop_le {queue : List (Event n)} {e e' : Event n} (h : e.isTop queue = true)
    (he' : e' ∈ queue) : e.timestamp ≤ e'.timestamp := by
  have hc : comparator e e' = false := by
    simpa using List.all_eq_true.mp h e' he'
  by_cases ht : e.timestamp = e'.timestamp
  · omega
  · simp only [comparator, ne_eq, ht, not_false_eq_true, if_true, gt_iff_lt,
      decide_eq_false_iff_not] at hc
    omega

namespace Simulator

def releases (s : Simulator S n) : Nat := s.eventQueue.countP Event.isRelease

structure BusInv (s : Simulator S n) : Prop where
  releases_eq : s.releases = if s.busBusy then 1 else 0
  pending : ∀ e ∈ s.eventQueue, s.currentTime ≤ e.timestamp

theorem busInv_start (traces : Fin n → List TraceEntry) :
    (start traces : Simulator S n).BusInv := by
  refine ⟨?_, fun e _ => Nat.zero_le _⟩
  rw [releases, start, List.countP_map]
  exact List.countP_eq_zero.mpr (by simp [Event.isRelease])

/-- Two pending Releases are the same event, as there is only one. -/
theorem BusInv.release_unique {s : Simulator S n} (h : s.BusInv) {t t' : Nat}
    (ht : .busRelease t ∈ s.eventQueue) (ht' : .busRelease t' ∈ s.eventQueue) : t = t' := by
  have hpos : 0 < s.releases := List.countP_pos_iff.mpr ⟨_, ht, rfl⟩
  have hone : s.releases = 1 := by
    have hcount := h.releases_eq
    split at hcount <;> omega
  exact Event.busRelease.inj (eq_of_countP_eq_one hone ht rfl ht' rfl)

theorem BusInv.busy_of_release {s : Simulator S n} (h : s.BusInv) {t : Nat}
    (ht : .busRelease t ∈ s.eventQueue) : s.busBusy = true := by
  have hpos : 0 < s.releases := List.countP_pos_iff.mpr ⟨_, ht, rfl⟩
  rw [h.releases_eq] at hpos
  cases hb : s.busBusy with
  | true => rfl
  | false => simp [hb] at hpos

variable [LineState S] {cfg : Config} {R : ProtocolRules S} {s s' : Simulator S n} {e : Event n}

theorem fired_currentTime (hf : Fired cfg R s e s') : s'.currentTime = s.currentTime := by
  cases hf <;> rfl

/-- The events an execution schedules, none of them before its own timestamp. -/
theorem fired_scheduled (hf : Fired cfg R s e s') :
    ∃ new, s'.eventQueue = new ++ s.eventQueue ∧ ∀ e' ∈ new, e.timestamp ≤ e'.timestamp := by
  cases hf with
  | @release t => exact ⟨_, rfl, by split <;> simp [Event.timestamp]⟩
  | @grant t req latency machine free first bus =>
    refine ⟨(if req.type ≠ .writeback then [.coreUnblock (t + latency) req.coreId] else []) ++
      [.busRelease (t + latency)], by simp [granted], ?_⟩
    intro e' he'
    rcases List.mem_append.mp he' with he' | he'
    · split at he'
      · obtain rfl := List.mem_singleton.mp he'
        simp [Event.timestamp]
      · simp at he'
    · obtain rfl := List.mem_singleton.mp he'
      simp [Event.timestamp]
  | @unblock t i => exact ⟨[.fetch t i], rfl, by simp [Event.timestamp]⟩
  | @compute t i entry rest running read label =>
    exact ⟨[.fetch (t + entry.val.toNat) i], rfl, by simp [Event.timestamp]⟩
  | @hit t i entry rest running read label resp =>
    exact ⟨[.fetch (t + 1) i], rfl, by simp [Event.timestamp]⟩
  | @miss t i entry rest running read label resp =>
    exact ⟨_, rfl, by split <;> simp [Event.timestamp]⟩
  | _ => exact ⟨[], rfl, by simp⟩

theorem releases_fired (hinv : s.BusInv) (he : e ∈ s.eventQueue)
    (hf : Fired cfg R (s.pop e) e s') : s'.releases = if s'.busBusy then 1 else 0 := by
  have hrel := hinv.releases_eq
  have releasesAfter (new : List (Event n)) (hq : s'.eventQueue = new ++ (s.pop e).eventQueue) :
      s'.releases + (if e.isRelease then 1 else 0) = s.releases + new.countP Event.isRelease :=
    countP_scheduled s' he new hq _
  cases hf with
  | @release t =>
    have h := releasesAfter (if s.busQueue.isEmpty then [] else [.busArbitration t]) rfl
    have hnew : (if s.busQueue.isEmpty then [] else [Event.busArbitration t]).countP
        (Event.isRelease (n := n)) = 0 := by
      split <;> rfl
    rw [hnew, hrel, hinv.busy_of_release he] at h
    simp only [Event.isRelease, if_true, Nat.add_zero, Nat.add_eq_right] at h
    exact h
  | @grant t req latency machine free first bus =>
    have h := releasesAfter ((if req.type ≠ .writeback
      then [.coreUnblock (t + latency) req.coreId] else []) ++ [.busRelease (t + latency)])
      (by simp [granted])
    have hnew : (if req.type ≠ .writeback
        then [Event.coreUnblock (t + latency) req.coreId] else []).countP
        (Event.isRelease (n := n)) = 0 := by
      split <;> rfl
    change s.busBusy = false at free
    rw [List.countP_append, hnew, hrel, free] at h
    exact h
  | @unblock t i => exact (releasesAfter [.fetch t i] rfl).trans hrel
  | @compute t i entry rest running read label =>
    exact (releasesAfter [.fetch (t + entry.val.toNat) i] rfl).trans hrel
  | @hit t i entry rest running read label resp =>
    exact (releasesAfter [.fetch (t + 1) i] rfl).trans hrel
  | @miss t i entry rest running read label resp =>
    have h := releasesAfter (if s.busBusy then [] else [.busArbitration t]) rfl
    have hnew : (if s.busBusy then [] else [Event.busArbitration t]).countP
        (Event.isRelease (n := n)) = 0 := by
      split <;> rfl
    rw [hnew] at h
    exact h.trans hrel
  | _ => exact (releasesAfter [] rfl).trans hrel

theorem busInv_fired (hinv : s.BusInv) (he : e ∈ s.eventQueue)
    (htop : e.isTop s.eventQueue = true) (hf : Fired cfg R (s.pop e) e s') : s'.BusInv := by
  refine ⟨releases_fired hinv he hf, ?_⟩
  obtain ⟨new, hq, hnew⟩ := fired_scheduled hf
  intro e' he'
  rw [fired_currentTime hf]
  rw [hq] at he'
  rcases List.mem_append.mp he' with he' | he'
  · exact hnew e' he'
  · exact Event.isTop_le htop (List.mem_of_mem_erase he')

theorem busInv_reached {traces : Fin n → List TraceEntry} (hr : (system cfg R traces).Reached s) :
    s.BusInv := by
  refine hr.invariant ?_ ?_
  · rintro s rfl
    exact busInv_start traces
  · intro s e s' hstep hinv
    obtain ⟨he, htop, hf⟩ := fired_of_step hstep
    exact busInv_fired hinv he htop hf

end Simulator
end CoherenceFormal
