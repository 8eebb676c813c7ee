import CoherenceFormal.TokenInvariant

/-!
# The access a request is made for

A request carries an address and a transaction type but not the trace entry it
serves, and the handler that completes an access is not told whether it was a load
or a store. As a core is blocked while its request waits, the entry is the one that
its last Fetch has read.
-/

namespace CoherenceFormal
open LineState
set_option autoImplicit false

variable {S : Type} {n : Nat}

namespace Simulator

/-- The last Fetch of core `i` in a history. -/
def lastFetch (h : List (Move (Simulator S n) (Event n))) (i : Fin n) :
    Option (Move (Simulator S n) (Event n)) := h.find? fun m => m.label.isFetchOf i

theorem lastFetch_cons_of_ne {h : List (Move (Simulator S n) (Event n))}
    {m : Move (Simulator S n) (Event n)} {i : Fin n} (hm : m.label.isFetchOf i = false) :
    lastFetch (m :: h) i = lastFetch h i := by
  simp [lastFetch, hm]

theorem lastFetch_cons_self {h : List (Move (Simulator S n) (Event n))}
    {m : Move (Simulator S n) (Event n)} {i : Fin n} (hm : m.label.isFetchOf i = true) :
    lastFetch (m :: h) i = some m := by
  simp [lastFetch, hm]

variable [LineState S]

/-- The Fetch `f` has read the access that the request waits for. -/
structure FetchedBy (cfg : Config) (R : ProtocolRules S) (req : BusRequest n)
    (f : Move (Simulator S n) (Event n)) (entry : TraceEntry) : Prop where
  read : (f.before.traces req.coreId).head? = some entry
  addr : req.addr = entry.val
  missed : respond R entry.isWrite
    (f.before.machine.state req.coreId (cfg.geometry.block entry.val)) = ⟨false, req.type⟩

/-- After the history `earlier`, the move `m` completes the store `entry` of core
`i`, which the move `f` has fetched: `m` itself when it is a hit, otherwise the
core's last Fetch before the grant `m`. -/
inductive CompletesStore (cfg : Config) (R : ProtocolRules S)
    (earlier : List (Move (Simulator S n) (Event n))) (m : Move (Simulator S n) (Event n))
    (i : Fin n) (entry : TraceEntry) : Move (Simulator S n) (Event n) → Prop where
  | hit {t : Nat} (label : m.label = .fetch t i) (read : (m.before.traces i).head? = some entry)
      (store : entry.isWrite = true) (hit : (m.before.access cfg R i entry).1.isHit = true) :
      CompletesStore cfg R earlier m i entry m
  | grant {req : BusRequest n} {f : Move (Simulator S n) (Event n)}
      (granted : grantOf cfg m = some req) (core : req.coreId = i)
      (fetch : lastFetch earlier i = some f) (read : (f.before.traces i).head? = some entry)
      (store : entry.isWrite = true) : CompletesStore cfg R earlier m i entry f

/-- Every queued request is that of the last entry its core has fetched. -/
def RequestsFetched (cfg : Config) (R : ProtocolRules S)
    (h : List (Move (Simulator S n) (Event n))) (s : Simulator S n) : Prop :=
  ∀ req ∈ s.busQueue, ∃ f entry, lastFetch h req.coreId = some f ∧ FetchedBy cfg R req f entry

variable {cfg : Config} {R : ProtocolRules S} {h : List (Move (Simulator S n) (Event n))}
  {s s' : Simulator S n} {e : Event n}

theorem RequestsFetched.keep (hold : RequestsFetched cfg R h s)
    (hq : ∀ req ∈ s'.busQueue, req ∈ s.busQueue ∧ e.isFetchOf req.coreId = false) :
    RequestsFetched cfg R (⟨s, e, s'⟩ :: h) s' := by
  intro req hreq
  obtain ⟨hreq, hne⟩ := hq req hreq
  obtain ⟨f, entry, hf, hfetched⟩ := hold req hreq
  exact ⟨f, entry, by rwa [lastFetch_cons_of_ne hne], hfetched⟩

theorem requestsFetched_fired (htok : s.TokenInv) (he : e ∈ s.eventQueue)
    (hf : Fired cfg R (s.pop e) e s') (hold : RequestsFetched cfg R h s) :
    RequestsFetched cfg R (⟨s, e, s'⟩ :: h) s' := by
  cases hf with
  | @grant t req latency machine free first bus =>
    apply hold.keep
    intro req' hreq'
    exact ⟨List.mem_of_mem_erase hreq', rfl⟩
  | @miss t i entry rest running read label resp =>
    intro req hreq
    rcases List.mem_append.mp hreq with hreq | hreq
    · obtain ⟨f, entry', hlast, hfetched⟩ := hold req hreq
      refine ⟨f, entry', ?_, hfetched⟩
      rwa [lastFetch_cons_of_ne]
      simpa [Event.isFetchOf] using htok.fetch_not_waiting he hreq
    · obtain rfl := List.mem_singleton.mp hreq
      refine ⟨_, entry, lastFetch_cons_self (by simp [Event.isFetchOf]), ?_, rfl, ?_⟩
      · change (s.traces i).head? = some entry
        rw [← pop_traces s (.fetch t i), read]
        rfl
      · have haction := access_response cfg R (s.pop (.fetch t i)) i entry
        simp only [haction, pop_machine] at resp ⊢
        rw [← resp]
  | release => exact hold.keep fun req hreq => ⟨hreq, rfl⟩
  | idle => exact hold.keep fun req hreq => ⟨hreq, rfl⟩
  | unblock => exact hold.keep fun req hreq => ⟨hreq, rfl⟩
  | _ =>
    apply hold.keep
    intro req hreq
    exact ⟨hreq, by simpa [Event.isFetchOf] using htok.fetch_not_waiting he hreq⟩

/-- A Fetch whose access hits executes as a hit. -/
theorem fired_hit (htok : s.TokenInv) {t : Nat} {i : Fin n} {entry : TraceEntry}
    (he : .fetch t i ∈ s.eventQueue) (hf : Fired cfg R (s.pop (.fetch t i)) (.fetch t i) s')
    (hread : (s.traces i).head? = some entry) (hlabel : entry.label ≠ 2)
    (hhit : (s.access cfg R i entry).1.isHit = true) :
    ∃ rest, s' = (s.pop (.fetch t i)).hit cfg R t i entry rest := by
  rw [access_response] at hhit
  have hsame (x : TraceEntry) (rest : List TraceEntry)
      (h : (s.pop (.fetch t i)).traces i = x :: rest) : x = entry := by
    rw [pop_traces] at h
    simpa [h] using hread
  cases hf with
  | stalled h =>
    have hrun := InSituation.of_fetch (htok.situated i) he
    simp only [InSituation] at hrun
    simp [hrun.2.2.2] at h
  | exhausted running done =>
    rw [pop_traces] at done
    simp [done] at hread
  | compute running read label =>
    obtain rfl := hsame _ _ read
    exact absurd label hlabel
  | miss running read label resp =>
    obtain rfl := hsame _ _ read
    rw [pop_machine] at resp
    simp [resp] at hhit
  | hit running read label resp =>
    obtain rfl := hsame _ _ read
    exact ⟨_, rfl⟩

theorem requestsFetched_run (hR : R.MissFills) {traces : Fin n → List TraceEntry}
    (hr : (system cfg R traces).Run h s) : RequestsFetched cfg R h s := by
  refine hr.history (fun s => tokenInv_reached hR) ?_ ?_
  · rintro s rfl req hreq
    simp [start] at hreq
  · intro h s e s' hstep htok hold
    obtain ⟨he, -, hf⟩ := fired_of_step hstep
    exact requestsFetched_fired htok he hf hold

end Simulator
end CoherenceFormal
