import CoherenceFormal.WaitingRequests
import CoherenceFormal.FetchHistory
import CoherenceFormal.Shared.Snooping

/-!
# The protocol of one block

`BlockStep` is the textbook machine of a protocol: the copies of a single block in
all caches, with silent stores, evictions, upgrades and fills. It knows nothing of
addresses, sets, queues or time. Every event of the simulator is, for every block,
a step of this machine, so a relation between copies need only be checked on the
state tables of the protocol.
-/

namespace CoherenceFormal
open LineState Snooping
set_option autoImplicit false

variable {S : Type} [LineState S] {n : Nat}

/-- Some copy other than that of `r` is valid. -/
def otherCopy (copies : Fin n → S) (r : Fin n) : Bool :=
  (List.finRange n).any fun i => i ≠ r && copies i ≠ invalid

inductive BlockAction (n : Nat) where
  | silent
  | store (i : Fin n)
  | evict (i : Fin n)
  | upgrade (r : Fin n)
  | fill (r : Fin n) (type : BusTransactionType)

/-- The transaction on the block that an action carries out. -/
def BlockAction.granted : BlockAction n → Option (Fin n × BusTransactionType)
  | .upgrade r => some (r, .busUpgr)
  | .fill r type => some (r, type)
  | _ => none

/-- `ready` is what a transaction may assume about the requester's own copy. -/
inductive BlockStep (R : ProtocolRules S) (ready : BusTransactionType → S → Prop)
    (copies : Fin n → S) : BlockAction n → (Fin n → S) → Prop where
  | silent : BlockStep R ready copies .silent copies
  | store (i : Fin n) (valid : copies i ≠ invalid) (unshared : R.isShared (copies i) = false) :
      BlockStep R ready copies (.store i) (Function.update copies i (R.writeHit (copies i)))
  | evict (i : Fin n) : BlockStep R ready copies (.evict i) (Function.update copies i invalid)
  | upgrade (r : Fin n) (own : ready .busUpgr (copies r)) : BlockStep R ready copies (.upgrade r)
      (broadcast copies r (R.upgrState (otherCopy copies r)) (snoopState R .busUpgr))
  | fill (r : Fin n) (type : BusTransactionType) (fills : type = .busRd ∨ type = .busRdx)
      (own : ready type (copies r)) : BlockStep R ready copies (.fill r type)
        (broadcast copies r (R.fillState type (otherCopy copies r)) (snoopState R type))

/-- The copies of a block in all caches. -/
def Machine.copies (m : Machine S n) (b : Block) : Fin n → S := fun i => m.state i b

theorem UpgradeSpec.copies {R : ProtocolRules S} {g : Geometry} {m m' : Machine S n}
    {r : Fin n} {addr : Addr} {latency : Nat} (h : UpgradeSpec R g m r addr latency m')
    (b : Block) : m'.copies b = if b = g.block addr
      then broadcast (m.copies b) r (R.upgrState (m.sharedSignal r b)) (snoopState R .busUpgr)
      else m.copies b := by
  funext j
  rw [Machine.copies, Machine.state_eq_lineState, h.lineState]
  split
  · rename_i hb
    subst hb
    by_cases hj : j = r
    · subst hj
      obtain ⟨l, hl⟩ := Option.isSome_iff_exists.mp h.present
      simp [Machine.lineState, hl]
    · rw [broadcast_of_ne _ hj, Machine.copies, Machine.state_eq_lineState]
      cases m.lineState j (g.block addr) <;> simp [hj, snoopState_invalid]
  · rfl

theorem FillSpec.copies {R : ProtocolRules S} {g : Geometry} {m m' : Machine S n} {r : Fin n}
    {type : BusTransactionType} {addr : Addr} (h : FillSpec R g m r type addr m') (b : Block) :
    m'.copies b = if b = g.block addr
      then broadcast (m.copies b) r (R.fillState type (m.sharedSignal r b)) (snoopState R type)
      else if m.victim R g r addr = some b then Function.update (m.copies b) r invalid
      else m.copies b := by
  funext j
  rw [Machine.copies, Machine.state_eq_lineState, h.lineState]
  split
  · by_cases hj : j = r
    · simp [hj]
    · rw [broadcast_of_ne _ hj, Machine.copies, Machine.state_eq_lineState]
      cases m.lineState j b <;> simp [hj, snoopState_invalid]
  · by_cases hv : m.victim R g r addr = some b
    · by_cases hj : j = r
      · simp [hj, hv]
      · simp [hj, hv, Machine.copies, Machine.state_eq_lineState]
    · simp [hv, Machine.copies, Machine.state_eq_lineState]

theorem afterRequest_invalid (R : ProtocolRules S) (isWrite : Bool) :
    afterRequest R isWrite (invalid : S) = invalid := by
  simp [afterRequest]

namespace Simulator

theorem access_copies (cfg : Config) (R : ProtocolRules S) (s : Simulator S n) (i : Fin n)
    (entry : TraceEntry) (b : Block) : (s.access cfg R i entry).2.copies b =
      if b = cfg.geometry.block entry.val
      then Function.update (s.machine.copies b) i (afterRequest R entry.isWrite (s.machine.state i b))
      else s.machine.copies b := by
  funext j
  rw [Machine.copies, Machine.state_eq_lineState, access_lineState]
  by_cases hb : b = cfg.geometry.block entry.val
  · by_cases hj : j = i
    · subst hj
      simp only [hb, and_self, if_true, Function.update_self, Machine.state_eq_lineState]
      cases s.machine.lineState j (cfg.geometry.block entry.val) <;> simp [afterRequest_invalid]
    · simp [hb, hj, Machine.copies, Machine.state_eq_lineState]
  · simp [hb, Machine.copies, Machine.state_eq_lineState]

variable {cfg : Config} {R : ProtocolRules S} {ready : BusTransactionType → S → Prop}
  {s s' : Simulator S n} {e : Event n}

def RequestsReady (cfg : Config) (ready : BusTransactionType → S → Prop)
    (s : Simulator S n) : Prop :=
  ∀ req ∈ s.busQueue, ready req.type (s.machine.state req.coreId (cfg.geometry.block req.addr))

/-- The transaction on block `b` that a move grants. -/
def grantFor (cfg : Config) (m : Move (Simulator S n) (Event n)) (b : Block) :
    Option (Fin n × BusTransactionType) :=
  (grantOf cfg m).bind fun req =>
    if b = cfg.geometry.block req.addr then some (req.coreId, req.type) else none

omit [LineState S] in
theorem grantFor_eq_some {m : Move (Simulator S n) (Event n)} {b : Block} {r : Fin n}
    {type : BusTransactionType} (h : grantFor cfg m b = some (r, type)) :
    ∃ req, grantOf cfg m = some req ∧ b = cfg.geometry.block req.addr ∧ req.coreId = r ∧
      req.type = type := by
  obtain ⟨req, hg, h⟩ := Option.bind_eq_some_iff.mp h
  split at h
  · rename_i hb
    obtain ⟨hr, ht⟩ := Prod.mk.inj (Option.some.inj h)
    exact ⟨req, hg, hb, hr, ht⟩
  · simp at h

/-- A move of the simulator is the action `a` on block `b`. -/
structure ActsOn (cfg : Config) (R : ProtocolRules S) (ready : BusTransactionType → S → Prop)
    (m : Move (Simulator S n) (Event n)) (b : Block) (a : BlockAction n) : Prop where
  step : BlockStep R ready (m.before.machine.copies b) a (m.after.machine.copies b)
  granted : a.granted = grantFor cfg m b
  evicted : ∀ i, a = .evict i → ∃ req, grantOf cfg m = some req ∧ req.coreId = i ∧
    req.type ≠ .busUpgr ∧ m.before.machine.victim R cfg.geometry i req.addr = some b

theorem ActsOn.of_silent {m : Move (Simulator S n) (Event n)} {b : Block}
    (hstep : m.after.machine.copies b = m.before.machine.copies b)
    (hg : grantFor cfg m b = none) : ActsOn cfg R ready m b .silent := by
  refine ⟨?_, hg.symm, ?_⟩
  · rw [hstep]
    exact .silent
  · intro i hi
    simp at hi

theorem actsOn_access {i : Fin n} {entry : TraceEntry} {m : Move (Simulator S n) (Event n)}
    {b : Block} (hm : m.after.machine.copies b = (m.before.access cfg R i entry).2.copies b)
    (hg : grantFor cfg m b = none) : ∃ a, ActsOn cfg R ready m b a := by
  rw [access_copies] at hm
  by_cases hstore : b = cfg.geometry.block entry.val ∧ entry.isWrite = true ∧
      m.before.machine.state i b ≠ invalid ∧ R.isShared (m.before.machine.state i b) = false
  · obtain ⟨hb, hw⟩ := hstore
    refine ⟨.store i, ?_, hg.symm, ?_⟩
    · rw [hm, if_pos hb, afterRequest, if_pos hw]
      exact .store i hw.2.1 hw.2.2
    · intro j hj
      simp at hj
  · refine ⟨.silent, .of_silent ?_ hg⟩
    rw [hm]
    split
    · rename_i hb
      have hquiet : afterRequest R entry.isWrite (m.before.machine.state i b) =
          m.before.machine.copies b i := if_neg fun hw => hstore ⟨hb, hw⟩
      rw [hquiet, Function.update_eq_self]
    · rfl

theorem actsOn_grant {m : Move (Simulator S n) (Event n)} {req : BusRequest n} {latency : Nat}
    (hgrant : grantOf cfg m = some req) (ht : req.type.requestable)
    (hown : ready req.type (m.before.machine.state req.coreId (cfg.geometry.block req.addr)))
    (bus : handleBusTransaction R cfg.geometry m.before.machine req.coreId req.type req.addr =
      some (latency, m.after.machine)) (b : Block) : ∃ a, ActsOn cfg R ready m b a := by
  have hfor : grantFor cfg m b =
      if b = cfg.geometry.block req.addr then some (req.coreId, req.type) else none := by
    rw [grantFor, hgrant, Option.bind_some]
  rcases bus_spec ht bus with ⟨hu, hspec⟩ | ⟨hfill, hspec⟩
  · have hcopies := hspec.copies b
    by_cases hb : b = cfg.geometry.block req.addr
    · rw [if_pos hb, hu] at hfor
      rw [← hb, hu] at hown
      rw [if_pos hb] at hcopies
      refine ⟨.upgrade req.coreId, ?_, hfor.symm, by simp⟩
      rw [hcopies]
      exact .upgrade req.coreId hown
    · rw [if_neg hb] at hfor hcopies
      exact ⟨.silent, .of_silent hcopies hfor⟩
  · have hcopies := hspec.copies b
    by_cases hb : b = cfg.geometry.block req.addr
    · rw [if_pos hb] at hfor hcopies
      rw [← hb] at hown
      refine ⟨.fill req.coreId req.type, ?_, hfor.symm, by simp⟩
      rw [hcopies]
      exact .fill req.coreId req.type hfill hown
    · rw [if_neg hb] at hfor hcopies
      by_cases hv : m.before.machine.victim R cfg.geometry req.coreId req.addr = some b
      · rw [if_pos hv] at hcopies
        refine ⟨.evict req.coreId, ?_, hfor.symm, ?_⟩
        · rw [hcopies]
          exact .evict req.coreId
        · intro i hi
          obtain rfl := BlockAction.evict.inj hi
          exact ⟨req, hgrant, rfl, BusTransactionType.ne_busUpgr_of_fill hfill, hv⟩
      · rw [if_neg hv] at hcopies
        exact ⟨.silent, .of_silent hcopies hfor⟩

/-- A store that hits writes to a valid copy that is not shared. -/
theorem storeHit_copies (htok : s.TokenInv) {t : Nat} {i : Fin n} {entry : TraceEntry}
    (he : .fetch t i ∈ s.eventQueue) (hf : Fired cfg R (s.pop (.fetch t i)) (.fetch t i) s')
    (hread : (s.traces i).head? = some entry) (hstore : entry.isWrite = true)
    (hhit : (s.access cfg R i entry).1.isHit = true) :
    s.machine.copies (cfg.geometry.block entry.val) i ≠ invalid ∧
      R.isShared (s.machine.copies (cfg.geometry.block entry.val) i) = false ∧
      s'.machine.copies (cfg.geometry.block entry.val) =
        Function.update (s.machine.copies (cfg.geometry.block entry.val)) i
          (R.writeHit (s.machine.copies (cfg.geometry.block entry.val) i)) := by
  have hmem : entry.label ≠ 2 := by
    intro h
    simp [TraceEntry.isWrite, h] at hstore
  obtain ⟨rest, rfl⟩ := fired_hit htok he hf hread hmem hhit
  obtain ⟨hv, hs⟩ : s.machine.state i (cfg.geometry.block entry.val) ≠ invalid ∧
      R.isShared (s.machine.state i (cfg.geometry.block entry.val)) = false := by
    rw [access_response] at hhit
    rcases respond_cases R entry.isWrite
      (s.machine.state i (cfg.geometry.block entry.val)) with ⟨-, hv, hs⟩ | ⟨hr, -⟩ | ⟨hr, -⟩
    · exact ⟨hv, by simpa [hstore] using hs⟩
    · simp [hr] at hhit
    · simp [hr] at hhit
  have hcopies := access_copies cfg R s i entry (cfg.geometry.block entry.val)
  rw [if_pos rfl, afterRequest, if_pos ⟨hstore, hv, hs⟩] at hcopies
  exact ⟨hv, hs, hcopies⟩

/-- Every move is, on every block, an action of that block's protocol. -/
theorem actsOn_fired (htok : s.TokenInv) (hready : s.RequestsReady cfg ready)
    (hf : Fired cfg R (s.pop e) e s') (b : Block) : ∃ a, ActsOn cfg R ready ⟨s, e, s'⟩ b a := by
  cases hf with
  | idle h =>
    refine ⟨.silent, .of_silent rfl ?_⟩
    rw [grantFor, grantOf_idle h]
    rfl
  | @grant t req latency machine free first bus =>
    have hmem : req ∈ s.busQueue := minElement_mem first
    exact actsOn_grant (grantOf_grant _ free first) (htok.types req hmem) (hready req hmem) bus b
  | @hit t i entry rest running read label resp => exact actsOn_access (i := i) rfl rfl
  | @miss t i entry rest running read label resp => exact actsOn_access (i := i) rfl rfl
  | _ => exact ⟨.silent, .of_silent rfl rfl⟩

end Simulator

/-- A fill is asked for by a core without a valid copy, in every protocol. -/
def fillReady (type : BusTransactionType) (st : S) : Prop := type = .busUpgr ∨ st = invalid

instance (type : BusTransactionType) (st : S) : Decidable (fillReady type st) :=
  inferInstanceAs (Decidable (_ ∨ _))

/-! ### Relations between copies -/

/-- What the tables of a protocol must satisfy for `compatible` to hold between any
two copies of a block, for ever. -/
structure CompatLaws (R : ProtocolRules S) (ready : BusTransactionType → S → Prop)
    (compatible : S → S → Prop) : Prop where
  symm : ∀ a b, compatible a b → compatible b a
  invalid : ∀ a, compatible a invalid
  store : ∀ a b, a ≠ LineState.invalid → R.isShared a = false → compatible a b →
    compatible (R.writeHit a) b
  snoop : ∀ type a b, type.requestable → compatible a b →
    compatible (snoopState R type a) (snoopState R type b)
  fill : ∀ type r a, type = .busRd ∨ type = .busRdx → ready type r → a ≠ LineState.invalid →
    compatible (R.fillState type true) (snoopState R type a)
  upgrade : ∀ r a, ready .busUpgr r → compatible r a → a ≠ LineState.invalid →
    compatible (R.upgrState true) (snoopState R .busUpgr a)

theorem otherCopy_of_valid {copies : Fin n → S} {r j : Fin n} (hj : j ≠ r)
    (h : copies j ≠ invalid) : otherCopy copies r = true :=
  List.any_eq_true.mpr ⟨j, List.mem_finRange j, by simp [hj, h]⟩

/-- A state that the requester takes by the shared signal need only suit valid copies, and
those raise the signal. -/
theorem CompatLaws.compatible_snooped {R : ProtocolRules S}
    {ready : BusTransactionType → S → Prop} {compatible : S → S → Prop}
    (laws : CompatLaws R ready compatible) {copies : Fin n → S} {r j : Fin n} (hj : j ≠ r)
    {type : BusTransactionType} {st : Bool → S}
    (hvalid : copies j ≠ LineState.invalid → compatible (st true) (snoopState R type (copies j))) :
    compatible (st (otherCopy copies r)) (snoopState R type (copies j)) := by
  by_cases hv : copies j = LineState.invalid
  · rw [hv, snoopState_invalid]
    exact laws.invalid _
  · rw [otherCopy_of_valid hj hv]
    exact hvalid hv

theorem coherent_blockStep {R : ProtocolRules S} {ready : BusTransactionType → S → Prop}
    {compatible : S → S → Prop} (laws : CompatLaws R ready compatible) {copies copies' : Fin n → S}
    {a : BlockAction n} (h : BlockStep R ready copies a copies')
    (hc : Coherent compatible copies) : Coherent compatible copies' := by
  cases h with
  | silent => exact hc
  | store i valid unshared =>
    apply hc.update laws.symm
    intro j hj
    exact laws.store _ _ valid unshared (hc (Ne.symm hj))
  | evict i =>
    apply hc.update laws.symm
    intro j _
    exact laws.symm _ _ (laws.invalid _)
  | upgrade r own =>
    apply hc.broadcast laws.symm (fun a b => laws.snoop _ a b (.inr (.inr rfl)))
    intro j hj
    apply laws.compatible_snooped hj
    intro hv
    exact laws.upgrade _ _ own (hc (Ne.symm hj)) hv
  | fill r type fills own =>
    have hreq : type.requestable := fills.elim .inl fun h => .inr (.inl h)
    apply hc.broadcast laws.symm (fun a b => laws.snoop _ a b hreq)
    intro j hj
    apply laws.compatible_snooped hj
    intro hv
    exact laws.fill _ _ _ fills own hv

namespace Simulator

theorem fillReady_reached {cfg : Config} {R : ProtocolRules S} {traces : Fin n → List TraceEntry}
    (hR : R.MissFills) {s : Simulator S n} (hr : (system cfg R traces).Reached s) :
    s.RequestsReady cfg fillReady := by
  intro req hreq
  have hknown := waitInv_reached hR (lineKnown_waitLaws hR) hr req hreq
  have htype := (tokenInv_reached hR hr).types req hreq
  rw [Machine.state_eq_lineState]
  rcases htype with h | h | h
  · rw [h] at hknown
    right
    rcases hknown with hn | hn <;> rw [hn] <;> rfl
  · rw [h] at hknown
    right
    rcases hknown with hn | hn <;> rw [hn] <;> rfl
  · exact .inl h

/-- A relation between copies that the tables keep holds in every reached state. -/
theorem coherent_reached {cfg : Config} {R : ProtocolRules S}
    {ready : BusTransactionType → S → Prop} {compatible : S → S → Prop}
    {traces : Fin n → List TraceEntry} (hR : R.MissFills) (laws : CompatLaws R ready compatible)
    (hready : ∀ s, (system cfg R traces).Reached s → s.RequestsReady cfg ready)
    {s : Simulator S n} (hr : (system cfg R traces).Reached s) (b : Block) :
    Coherent compatible (s.machine.copies b) := by
  refine System.Reached.invariant_of (J := fun s => s.TokenInv ∧ s.RequestsReady cfg ready)
    (I := fun s : Simulator S n => Coherent compatible (s.machine.copies b)) ?_ ?_ ?_ hr
  · intro s hs
    exact ⟨tokenInv_reached hR hs, hready s hs⟩
  · rintro s rfl i j _
    exact laws.invalid _
  · rintro s e s' hstep ⟨htok, hown⟩ hc
    obtain ⟨-, -, hf⟩ := fired_of_step hstep
    obtain ⟨a, ha⟩ := actsOn_fired htok hown hf b
    exact coherent_blockStep laws ha.step hc

end Simulator
end CoherenceFormal
