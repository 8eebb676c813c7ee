import CoherenceFormal.TokenInvariant

/-!
# What a queued request knows about its line

The type of a request is chosen when the access is fetched and used when the bus is
granted. In between the core is blocked, so its cache is only snooped. A fill
still finds no valid line when it is granted, and an upgrade still finds an entry,
although perhaps an INVALID one.
-/

namespace CoherenceFormal
open LineState
set_option autoImplicit false

variable {S : Type} [LineState S] {n : Nat}

/-- `known type o` is what a request of `type` relies on about the state `o` of its
line, `none` if there is none: it holds when the request is made and no snoop
destroys it. -/
structure WaitLaws (R : ProtocolRules S) (known : BusTransactionType → Option S → Prop) :
    Prop where
  upgrade : ∀ st, st ≠ invalid → R.isShared st = true → known .busUpgr (some st)
  miss : ∀ isWrite o, (o = none ∨ o = some invalid) → known (R.missAction isWrite) o
  snoop : ∀ type by' o, by'.requestable → known type o →
    known type (o.map (snoopState R by'))

/-- The facts that hold for every protocol. -/
def lineKnown : BusTransactionType → Option S → Prop
  | .busUpgr, o => o.isSome
  | _, o => o = none ∨ o = some invalid

theorem snoopState_invalid (R : ProtocolRules S) (type : BusTransactionType) :
    snoopState R type (invalid : S) = invalid := if_pos rfl

theorem lineKnown_waitLaws {R : ProtocolRules S} (hR : R.MissFills) : WaitLaws R lineKnown where
  upgrade := fun st _ _ => rfl
  miss := by
    intro isWrite o ho
    rcases hR isWrite with h | h <;> rw [h] <;> exact ho
  snoop := by
    intro type by' o _ ho
    have hmap : o = none ∨ o = some invalid →
        o.map (snoopState R by') = none ∨ o.map (snoopState R by') = some invalid := by
      rintro (rfl | rfl)
      · exact .inl rfl
      · exact .inr (by rw [Option.map_some, snoopState_invalid])
    cases type with
    | busUpgr => simpa [lineKnown] using ho
    | _ => exact hmap ho

namespace Machine

/-- The state of a core's line, if it has one. -/
def lineState (m : Machine S n) (i : Fin n) (b : Block) : Option S :=
  (m.line i b).map CacheLine.state

theorem state_eq_lineState (m : Machine S n) (i : Fin n) (b : Block) :
    m.state i b = (m.lineState i b).getD invalid := rfl

theorem lineState_of_invalid {m : Machine S n} {i : Fin n} {b : Block}
    (h : m.state i b = invalid) : m.lineState i b = none ∨ m.lineState i b = some invalid := by
  rw [state_eq_lineState] at h
  cases ho : m.lineState i b with
  | none => exact .inl rfl
  | some st =>
    rw [ho, Option.getD_some] at h
    exact .inr (by rw [h])

theorem lineState_of_valid {m : Machine S n} {i : Fin n} {b : Block}
    (h : m.state i b ≠ invalid) : m.lineState i b = some (m.state i b) := by
  rw [state_eq_lineState] at h ⊢
  cases ho : m.lineState i b with
  | none => simp [ho] at h
  | some st => rfl

end Machine

theorem UpgradeSpec.lineState {R : ProtocolRules S} {g : Geometry} {m m' : Machine S n}
    {r : Fin n} {addr : Addr} {latency : Nat} (h : UpgradeSpec R g m r addr latency m')
    (j : Fin n) (b : Block) : m'.lineState j b = if b = g.block addr
      then (m.lineState j b).map fun st =>
        if j = r then R.upgrState (m.sharedSignal r b) else snoopState R .busUpgr st
      else m.lineState j b := by
  rw [Machine.lineState, h.lines]
  split
  · simp [Machine.lineState, Function.comp_def]
  · rfl

theorem FillSpec.lineState {R : ProtocolRules S} {g : Geometry} {m m' : Machine S n}
    {r : Fin n} {type : BusTransactionType} {addr : Addr} (h : FillSpec R g m r type addr m')
    (j : Fin n) (b : Block) : m'.lineState j b = if b = g.block addr
      then if j = r then some (R.fillState type (m.sharedSignal r b))
        else (m.lineState j b).map (snoopState R type)
      else if j = r ∧ m.victim R g r addr = some b then none else m.lineState j b := by
  rw [Machine.lineState, h.lines]
  split
  · split
    · rfl
    · simp [Machine.lineState, Function.comp_def]
  · split <;> rfl

/-- A requested transaction is an upgrade or a fill. -/
theorem bus_spec {R : ProtocolRules S} {g : Geometry} {m m' : Machine S n} {r : Fin n}
    {type : BusTransactionType} {addr : Addr} {latency : Nat} (ht : type.requestable)
    (h : handleBusTransaction R g m r type addr = some (latency, m')) :
    (type = .busUpgr ∧ UpgradeSpec R g m r addr latency m') ∨
      ((type = .busRd ∨ type = .busRdx) ∧ FillSpec R g m r type addr m') := by
  rcases ht with rfl | rfl | rfl
  · exact .inr ⟨.inl rfl, fill_spec (by simp) (by simp) h⟩
  · exact .inr ⟨.inr rfl, fill_spec (by simp) (by simp) h⟩
  · exact .inl ⟨rfl, upgrade_spec h⟩

/-- A transaction only snoops the caches of the other cores. -/
theorem lineState_of_bus {R : ProtocolRules S} {g : Geometry} {m m' : Machine S n} {r j : Fin n}
    {type : BusTransactionType} {addr : Addr} {latency : Nat} (ht : type.requestable)
    (h : handleBusTransaction R g m r type addr = some (latency, m')) (hj : j ≠ r) (b : Block) :
    m'.lineState j b = if b = g.block addr
      then (m.lineState j b).map (snoopState R type) else m.lineState j b := by
  rcases bus_spec ht h with ⟨rfl, hspec⟩ | ⟨-, hspec⟩
  · simp [hspec.lineState, hj]
  · simp [hspec.lineState, hj]

namespace Simulator

theorem access_lineState (cfg : Config) (R : ProtocolRules S) (s : Simulator S n) (i : Fin n)
    (entry : TraceEntry) (j : Fin n) (b : Block) : (s.access cfg R i entry).2.lineState j b =
      if j = i ∧ b = cfg.geometry.block entry.val
      then (s.machine.lineState j b).map (afterRequest R entry.isWrite)
      else s.machine.lineState j b := by
  rw [Machine.lineState, access_line]
  split
  · simp [Machine.lineState, Function.comp_def]
  · rfl

def WaitInv (cfg : Config) (known : BusTransactionType → Option S → Prop)
    (s : Simulator S n) : Prop :=
  ∀ req ∈ s.busQueue,
    known req.type (s.machine.lineState req.coreId (cfg.geometry.block req.addr))

variable {cfg : Config} {R : ProtocolRules S} {known : BusTransactionType → Option S → Prop}
  {s s' : Simulator S n} {e : Event n}

/-- What a granted request does to the machine. -/
theorem granted_spec (htok : s.TokenInv) (hf : Fired cfg R (s.pop e) e s') {req : BusRequest n}
    (hg : grantOf cfg ⟨s, e, s'⟩ = some req) :
    (req.type = .busUpgr ∧ ∃ latency,
      UpgradeSpec R cfg.geometry s.machine req.coreId req.addr latency s'.machine) ∨
    ((req.type = .busRd ∨ req.type = .busRdx) ∧
      FillSpec R cfg.geometry s.machine req.coreId req.type req.addr s'.machine) := by
  have htypes := htok.types req (grantOf_mem hg)
  obtain ⟨t, latency, machine, rfl, bus, rfl⟩ := granted_of_fired hf hg
  rcases bus_spec htypes bus with ⟨hu, h⟩ | ⟨hfill, h⟩
  · exact .inl ⟨hu, latency, h⟩
  · exact .inr ⟨hfill, h⟩

/-- An access that misses leaves every line as it was. -/
theorem missed_lineState {t : Nat} {i : Fin n} {entry : TraceEntry} {rest : List TraceEntry}
    (resp : (respond R entry.isWrite (s.machine.state i (cfg.geometry.block entry.val))).isHit =
      false) (j : Fin n) (b : Block) :
    (s.missed cfg R t i entry rest).machine.lineState j b = s.machine.lineState j b := by
  change (s.access cfg R i entry).2.lineState j b = _
  rw [access_lineState]
  split
  · rename_i h
    obtain ⟨rfl, rfl⟩ := h
    cases ho : s.machine.lineState j (cfg.geometry.block entry.val) with
    | none => rfl
    | some st =>
      have hst : s.machine.state j (cfg.geometry.block entry.val) = st := by
        rw [Machine.state_eq_lineState, ho, Option.getD_some]
      rw [hst] at resp
      rw [Option.map_some, afterRequest_of_miss resp]
  · rfl

theorem known_of_response (laws : WaitLaws R known) (isWrite : Bool) {m : Machine S n} {i : Fin n}
    {b : Block} (resp : (respond R isWrite (m.state i b)).isHit = false) :
    known (respond R isWrite (m.state i b)).busAction (m.lineState i b) := by
  rcases respond_cases R isWrite (m.state i b) with ⟨hr, -⟩ | ⟨hr, hv, -, hs⟩ | ⟨hr, hi⟩
  · simp [hr] at resp
  · rw [hr, Machine.lineState_of_valid hv]
    exact laws.upgrade _ hv hs
  · rw [hr]
    exact laws.miss isWrite _ (Machine.lineState_of_invalid hi)

theorem waitInv_fired (laws : WaitLaws R known) (htok : s.TokenInv) (he : e ∈ s.eventQueue)
    (hf : Fired cfg R (s.pop e) e s') (hinv : s.WaitInv cfg known) : s'.WaitInv cfg known := by
  cases hf with
  | @grant t req latency machine free first bus =>
    intro req' hreq'
    have hmem : req ∈ s.busQueue := minElement_mem first
    have hne := htok.request_unique hmem hreq'
    have hold := hinv req' (List.mem_of_mem_erase hreq')
    change known req'.type (machine.lineState req'.coreId _)
    rw [lineState_of_bus (htok.types req hmem) bus hne]
    split
    · exact laws.snoop _ _ _ (htok.types req hmem) hold
    · exact hold
  | @hit t i entry rest running read label resp =>
    intro req hreq
    change known req.type ((access cfg R (s.pop (.fetch t i)) i entry).2.lineState req.coreId _)
    rw [access_lineState, if_neg (fun h => htok.fetch_not_waiting he hreq h.1.symm)]
    exact hinv req hreq
  | @miss t i entry rest running read label resp =>
    intro req hreq
    rw [missed_lineState resp]
    rcases List.mem_append.mp hreq with hreq | hreq
    · exact hinv req hreq
    · obtain rfl := List.mem_singleton.mp hreq
      rw [access_response]
      exact known_of_response laws entry.isWrite resp
  | _ => exact hinv

theorem waitInv_reached {traces : Fin n → List TraceEntry} (hR : R.MissFills)
    (laws : WaitLaws R known) (hr : (system cfg R traces).Reached s) : s.WaitInv cfg known := by
  refine hr.invariant_of (fun s => tokenInv_reached hR) ?_ ?_
  · rintro s rfl req hreq
    simp [start] at hreq
  · intro s e s' hstep htok hinv
    obtain ⟨he, -, hf⟩ := fired_of_step hstep
    exact waitInv_fired laws htok he hf hinv

end Simulator
end CoherenceFormal
