import CoherenceFormal.StoreOwnership
import CoherenceFormal.DirtyData
import CoherenceFormal.LruOrder
import CoherenceFormal.Shared.Contents

/-!
# What a load returns

The simulator moves no data. Here the contents of a block are the stores that have been made
to it, the last one first, and they move as the handlers count it: a fill takes the block from
the supplier that makes it a cache-to-cache transfer and otherwise from memory, and a dirty
line that is evicted goes to memory.

If no upgrade is granted on a dead copy, and no read cleans a dirty copy that the memory does
not take over, every load gets all the stores that have been performed before it.
-/

namespace CoherenceFormal
open LineState Snooping
set_option autoImplicit false

variable {S : Type} [LineState S] {n : Nat}

/-! ### One block -/

/-- The first core in the order of the snooping loop that supplies the block to `r`. -/
def supplierOf (R : ProtocolRules S) (copies : Fin n → S) (r : Fin n) : Option (Fin n) :=
  (List.finRange n).find? fun i => i ≠ r && copies i ≠ invalid && R.isSupplier (copies i)

namespace BlockAction

/-- The core whose store the action performs. -/
def storer : BlockAction n → Option (Fin n)
  | .silent => none
  | .store i => some i
  | .evict _ => none
  | .upgrade r => some r
  | .fill r type => if type = .busRdx then some r else none

/-- How the contents of the block move. A copy that stays valid under BUS_UPGR takes the
store. With `reflect` the memory takes what a BUS_RD reads from another cache. -/
def transfer (R : ProtocolRules S) (reflect : Bool) (copies : Fin n → S)
    (d : Contents (Fin n) (List (Fin n))) : BlockAction n → Contents (Fin n) (List (Fin n))
  | .silent => d
  | .store i => { d with copy := Function.update d.copy i (i :: d.copy i) }
  | .evict i => { d with memory := if R.isDirty (copies i) then d.copy i else d.memory }
  | .upgrade r => { d with copy := fun j =>
      if j = r ∨ snoopState R .busUpgr (copies j) ≠ invalid then r :: d.copy j else d.copy j }
  | .fill r type =>
    let block := (supplierOf R copies r).elim d.memory d.copy
    { copy := Function.update d.copy r (if type = .busRdx then r :: block else block)
      memory := if reflect && type == .busRd then block else d.memory }

end BlockAction

/-- What the tables must satisfy for the contents to stay together. -/
structure DataLaws (R : ProtocolRules S) (ready : BusTransactionType → S → Prop)
    (compatible : S → S → Prop) : Prop where
  dirty : DirtyLaws R ready
  supplies : ∀ st, R.isDirty st = true → R.isSupplier st = true
  alone : ∀ a c, a ≠ invalid → R.isShared a = false → compatible a c → c = invalid
  marks : ∀ st, st ≠ invalid → R.isShared st = false → R.isDirty (R.writeHit st) = true
  live : ∀ st, ready .busUpgr st → st ≠ invalid
  filled : ∀ type shared, R.fillState type shared ≠ invalid
  writes : ∀ own st, ready .busRdx own → snoopState R .busRdx st = invalid

theorem DataLaws.valid_of_dirty {R : ProtocolRules S} {ready : BusTransactionType → S → Prop}
    {compatible : S → S → Prop} (laws : DataLaws R ready compatible) {st : S}
    (h : R.isDirty st = true) : st ≠ invalid := by
  rintro rfl
  rw [laws.dirty.invalid] at h
  simp at h

theorem valid_of_snoopState {R : ProtocolRules S} {type : BusTransactionType} {st : S}
    (h : snoopState R type st ≠ invalid) : st ≠ invalid := by
  rintro rfl
  exact h (snoopState_invalid R type)

theorem BlockStep.snooped {R : ProtocolRules S} {ready : BusTransactionType → S → Prop}
    {copies copies' : Fin n → S} {r i : Fin n} {type : BusTransactionType}
    (h : BlockStep R ready copies (.fill r type) copies') (hi : i ≠ r) :
    copies' i = snoopState R type (copies i) := by
  cases h
  exact broadcast_of_ne _ hi _ _

/-- The contents `d` of a block with these copies are those of the stores `latest`. -/
abbrev Current (R : ProtocolRules S) (copies : Fin n → S) (d : Contents (Fin n) (List (Fin n)))
    (latest : List (Fin n)) : Prop :=
  UpToDate (fun st : S => st ≠ invalid) (fun st => R.isDirty st = true) copies d latest

section
variable {R : ProtocolRules S} {ready : BusTransactionType → S → Prop}
  {compatible : S → S → Prop} (laws : DataLaws R ready compatible) {copies copies' : Fin n → S}
  {d : Contents (Fin n) (List (Fin n))} {latest : List (Fin n)}
include laws

/-- A fill gets the latest contents, from wherever it takes them. -/
theorem current_supplied (h : Current R copies d latest) {r : Fin n}
    (own : R.isDirty (copies r) = false) :
    (supplierOf R copies r).elim d.memory d.copy = latest := by
  apply h.supplied
  · intro i hi
    have hfound := List.find?_some hi
    simp only [Bool.and_eq_true, decide_eq_true_eq] at hfound
    exact hfound.1.2
  · intro hnone i hdirty
    have hi := List.find?_eq_none.mp hnone i (List.mem_finRange i)
    have hir : i ≠ r := by
      rintro rfl
      rw [own] at hdirty
      simp at hdirty
    simp [hir, laws.valid_of_dirty hdirty, laws.supplies _ hdirty] at hi

/-- A step of the block's protocol keeps its contents together, if a read that leaves no
dirty copy finds none or is reflected. -/
theorem current_blockStep {a : BlockAction n} (hstep : BlockStep R ready copies a copies')
    (hc : Coherent compatible copies) (reflect : Bool)
    (hread : ∀ r, a = .fill r .busRd → (∀ i, R.isDirty (copies' i) = false) →
      reflect = true ∨ ∀ i, i ≠ r → R.isDirty (copies i) = false)
    (h : Current R copies d latest) :
    Current R copies' (a.transfer R reflect copies d) (a.storer.toList ++ latest) := by
  cases hstep with
  | silent => exact h
  | store i valid unshared =>
    refine h.store (r := i) (i :: ·) ?_ ?_ ?_
    · simp [BlockAction.transfer, h.copy i valid]
    · rw [Function.update_self]
      exact laws.marks _ valid unshared
    · intro j hj hvalid
      rw [Function.update_of_ne hj] at hvalid
      exact absurd (laws.alone _ _ valid unshared (hc (Ne.symm hj))) hvalid
  | evict i =>
    refine h.drop (r := i) (fun hi => hi rfl) (fun st => laws.valid_of_dirty) rfl ?_ ?_
    · intro hd
      exact if_pos hd
    · intro hd
      exact if_neg hd
  | upgrade r own =>
    refine h.store (r := r) (r :: ·) ?_ ?_ ?_
    · simp [BlockAction.transfer, h.copy r (laws.live _ own)]
    · rw [broadcast_self]
      exact laws.dirty.upgrade _
    · intro j hj hvalid
      rw [broadcast_of_ne _ hj] at hvalid
      exact ⟨valid_of_snoopState hvalid, if_pos (.inr hvalid)⟩
  | fill r type fills own =>
    have hown : R.isDirty (copies r) = false := laws.dirty.own _ _ fills own
    have hblock := current_supplied laws h hown
    rcases fills with rfl | rfl
    · refine h.read (r := r) ?_ ?_ ?_
      · simp [BlockAction.transfer, hblock]
      · intro j hj
        refine ⟨Function.update_of_ne hj _ _, ?_⟩
        rw [broadcast_of_ne _ hj]
        exact valid_of_snoopState
      · intro hclean
        simp only [BlockAction.transfer, hblock]
        rcases hread r rfl fun i => by simpa using hclean i with hreflect | hnone
        · simp [hreflect]
        · have hmemory : d.memory = latest := h.memory fun i => by
            by_cases hi : i = r
            · simp [hi, hown]
            · simp [hnone i hi]
          simp [hmemory]
    · refine h.store (r := r) (r :: ·) ?_ ?_ ?_
      · simp [BlockAction.transfer, hblock]
      · rw [broadcast_self]
        exact laws.dirty.write _ _ own
      · intro j hj hvalid
        rw [broadcast_of_ne _ hj] at hvalid
        exact absurd (laws.writes _ _ own) hvalid

/-- The requester of a transaction ends with a valid copy. -/
theorem requester_valid {a : BlockAction n} (hstep : BlockStep R ready copies a copies')
    {r : Fin n} {type : BusTransactionType} (hg : a.granted = some (r, type)) :
    copies' r ≠ invalid := by
  cases hstep with
  | upgrade r own =>
    obtain ⟨rfl, -⟩ := Prod.mk.inj (Option.some.inj hg)
    rw [broadcast_self]
    exact laws.valid_of_dirty (laws.dirty.upgrade _)
  | fill r type fills own =>
    obtain ⟨rfl, -⟩ := Prod.mk.inj (Option.some.inj hg)
    rw [broadcast_self]
    exact laws.filled _ _
  | _ => simp [BlockAction.granted] at hg

end

/-! ### The five protocols -/

/-- A request that is granted before its line has died. -/
def liveReady (type : BusTransactionType) (st : S) : Prop :=
  fillReady type st ∧ (type = .busUpgr → st ≠ invalid)

theorem DirtyLaws.mono {R : ProtocolRules S} {ready ready' : BusTransactionType → S → Prop}
    (laws : DirtyLaws R ready) (himp : ∀ type st, ready' type st → ready type st) :
    DirtyLaws R ready' where
  invalid := laws.invalid
  store := laws.store
  upgrade := laws.upgrade
  own := fun type st htype h => laws.own type st htype (himp _ _ h)
  write := fun st shared h => laws.write st shared (himp _ _ h)

theorem OwningLaws.data {R : ProtocolRules S} {modified : S} {compatible : S → S → Prop}
    (laws : OwningLaws R modified compatible) (dirty : DirtyLaws R fillReady)
    (supplies : ∀ st, R.isDirty st = true → R.isSupplier st = true)
    (filled : ∀ type shared, R.fillState type shared ≠ invalid)
    (marked : R.isDirty modified = true) : DataLaws R liveReady compatible where
  dirty := dirty.mono fun _ _ h => h.1
  supplies := supplies
  alone := laws.alone
  marks := by
    intro st hv hs
    rw [laws.hit st hv hs]
    exact marked
  live := fun st h => h.2 rfl
  filled := filled
  writes := fun _ st _ => laws.invalidating.invalidates _ st (.inl rfl)

theorem dragon_dataLaws :
    DataLaws dragon DragonProtocol.ready (Mutual DragonProtocol.tolerates) where
  dirty := dragon_dirtyLaws
  supplies := by decide
  alone := by decide
  marks := by decide
  live := by decide
  filled := by decide
  writes := by decide

theorem ProtocolName.dataLaws {p : ProtocolName} (hp : p ≠ .dragon) :
    ∃ compatible, CompatLaws p.rules fillReady compatible ∧
      DataLaws p.rules liveReady compatible := by
  cases p with
  | mesi =>
    exact ⟨_, mesi_compatLaws, mesi_owningLaws.data mesi_dirtyLaws (by decide) (by decide) rfl⟩
  | dragon => exact absurd rfl hp
  | mesif =>
    exact ⟨_, mesif_compatLaws, mesif_owningLaws.data mesif_dirtyLaws (by decide) (by decide) rfl⟩
  | smart =>
    exact ⟨_, smart_compatLaws, smart_owningLaws.data smart_dirtyLaws (by decide) (by decide) rfl⟩
  | moesi =>
    exact ⟨_, moesi_compatLaws, moesi_owningLaws.data moesi_dirtyLaws (by decide) (by decide) rfl⟩

/-! ### Moves of the simulator -/

namespace Simulator

variable {cfg : Config} {R : ProtocolRules S} {ready : BusTransactionType → S → Prop}
  {s s' : Simulator S n} {e : Event n}

/-- Core `i` stores to block `b` in its own cache. -/
def hitsStore (cfg : Config) (R : ProtocolRules S) (b : Block)
    (m : Move (Simulator S n) (Event n)) (i : Fin n) : Bool :=
  (executedBy i m).any fun entry => entry.isWrite && b == cfg.geometry.block entry.val &&
    (respond R true (m.before.machine.state i b)).isHit

/-- The action of a move on block `b`. -/
def actionOf (cfg : Config) (R : ProtocolRules S) (m : Move (Simulator S n) (Event n))
    (b : Block) : BlockAction n :=
  match grantOf cfg m with
  | some req =>
    if b = cfg.geometry.block req.addr then
      if req.type = .busUpgr then .upgrade req.coreId else .fill req.coreId req.type
    else if req.type ≠ .busUpgr ∧
        m.before.machine.victim R cfg.geometry req.coreId req.addr = some b then
      .evict req.coreId
    else .silent
  | none => ((List.finRange n).find? (hitsStore cfg R b m)).elim .silent .store

theorem hitsStore_eq_true {b : Block} {m : Move (Simulator S n) (Event n)} {i : Fin n} :
    hitsStore cfg R b m i = true ↔ ∃ entry, executedBy i m = some entry ∧ entry.isWrite = true ∧
      b = cfg.geometry.block entry.val ∧
      (respond R true (m.before.machine.state i b)).isHit = true := by
  simp only [hitsStore, Option.any_eq_true, Bool.and_eq_true, beq_iff_eq, and_assoc]

theorem hitsStore_unique {b : Block} {m : Move (Simulator S n) (Event n)} {i j : Fin n}
    (hi : hitsStore cfg R b m i = true) (hj : hitsStore cfg R b m j = true) : i = j := by
  obtain ⟨entry, hi, -⟩ := hitsStore_eq_true.mp hi
  obtain ⟨entry', hj, -⟩ := hitsStore_eq_true.mp hj
  obtain ⟨t, hi⟩ := fetch_of_executedBy hi
  obtain ⟨t', hj⟩ := fetch_of_executedBy hj
  rw [hi] at hj
  exact (Event.fetch.inj hj).2

theorem actionOf_store {b : Block} {m : Move (Simulator S n) (Event n)} {i : Fin n}
    (hg : grantOf cfg m = none) (hi : hitsStore cfg R b m i = true) :
    actionOf cfg R m b = .store i := by
  simp only [actionOf, hg]
  cases hfind : (List.finRange n).find? (hitsStore cfg R b m) with
  | none =>
    have hnone := List.find?_eq_none.mp hfind i (List.mem_finRange i)
    exact absurd hi hnone
  | some j =>
    rw [hitsStore_unique hi (List.find?_some hfind)]
    rfl

theorem actionOf_silent {b : Block} {m : Move (Simulator S n) (Event n)}
    (hg : grantOf cfg m = none) (hno : ∀ i, ¬ hitsStore cfg R b m i = true) :
    actionOf cfg R m b = .silent := by
  simp only [actionOf, hg]
  rw [List.find?_eq_none.mpr fun i _ => hno i]
  rfl

theorem blockStep_access {i : Fin n} {entry : TraceEntry} {m : Move (Simulator S n) (Event n)}
    (hm : ∀ b, m.after.machine.copies b = (m.before.access cfg R i entry).2.copies b)
    (hg : grantOf cfg m = none) (hread : ∀ j, executedBy j m = if j = i then some entry else none)
    (b : Block) : BlockStep R ready (m.before.machine.copies b) (actionOf cfg R m b)
      (m.after.machine.copies b) := by
  rw [hm, access_copies]
  by_cases hi : hitsStore cfg R b m i = true
  · obtain ⟨entry', hentry, hw, hb, hhit⟩ := hitsStore_eq_true.mp hi
    rw [hread, if_pos rfl] at hentry
    obtain rfl := Option.some.inj hentry
    rw [actionOf_store hg hi, if_pos hb, hw]
    rcases respond_cases R true (m.before.machine.state i b) with ⟨-, hv, hs⟩ | ⟨hr, -⟩ | ⟨hr, -⟩
    · have hs : R.isShared (m.before.machine.state i b) = false := by simpa using hs
      rw [afterRequest, if_pos ⟨rfl, hv, hs⟩]
      exact .store i hv hs
    · simp [hr] at hhit
    · simp [hr] at hhit
  · have hno (j : Fin n) : ¬ hitsStore cfg R b m j = true := by
      intro hj
      obtain ⟨entry', hentry, -⟩ := hitsStore_eq_true.mp hj
      rw [hread] at hentry
      by_cases hji : j = i
      · exact hi (hji ▸ hj)
      · simp [hji] at hentry
    rw [actionOf_silent hg hno]
    split
    · rename_i hb
      -- the access is a load, or a store that has to wait for the bus
      have hquiet : afterRequest R entry.isWrite (m.before.machine.state i b) =
          m.before.machine.copies b i := by
        apply if_neg
        rintro ⟨hw, hv, hs⟩
        apply hi
        refine hitsStore_eq_true.mpr ⟨entry, by rw [hread, if_pos rfl], hw, hb, ?_⟩
        simp [respond, hv, hs]
      rw [hquiet, Function.update_eq_self]
      exact .silent
    · exact .silent

theorem blockStep_grant {m : Move (Simulator S n) (Event n)} {req : BusRequest n} {latency : Nat}
    (hgrant : grantOf cfg m = some req) (ht : req.type.requestable)
    (hown : ready req.type (m.before.machine.state req.coreId (cfg.geometry.block req.addr)))
    (bus : handleBusTransaction R cfg.geometry m.before.machine req.coreId req.type req.addr =
      some (latency, m.after.machine)) (b : Block) :
    BlockStep R ready (m.before.machine.copies b) (actionOf cfg R m b)
      (m.after.machine.copies b) := by
  simp only [actionOf, hgrant]
  rcases bus_spec ht bus with ⟨hu, hspec⟩ | ⟨hfill, hspec⟩
  · rw [hspec.copies b]
    by_cases hb : b = cfg.geometry.block req.addr
    · rw [← hb, hu] at hown
      rw [if_pos hb, if_pos hb, if_pos hu]
      exact .upgrade req.coreId hown
    · rw [if_neg hb, if_neg hb, if_neg (by simp [hu])]
      exact .silent
  · have hu := BusTransactionType.ne_busUpgr_of_fill hfill
    rw [hspec.copies b]
    by_cases hb : b = cfg.geometry.block req.addr
    · rw [← hb] at hown
      rw [if_pos hb, if_pos hb, if_neg hu]
      exact .fill req.coreId req.type hfill hown
    · rw [if_neg hb, if_neg hb]
      by_cases hv : m.before.machine.victim R cfg.geometry req.coreId req.addr = some b
      · rw [if_pos hv, if_pos ⟨hu, hv⟩]
        exact .evict req.coreId
      · rw [if_neg hv, if_neg fun h => hv h.2]
        exact .silent

/-- The action of a move is the step that the block's protocol makes. -/
theorem blockStep_fired (htok : s.TokenInv) (hready : s.RequestsReady cfg ready)
    (hf : Fired cfg R (s.pop e) e s') (b : Block) : BlockStep R ready (s.machine.copies b)
      (actionOf cfg R ⟨s, e, s'⟩ b) (s'.machine.copies b) := by
  have quiet (hg : grantOf cfg ⟨s, e, s'⟩ = none)
      (hno : ∀ i entry, executedBy i ⟨s, e, s'⟩ = some entry → entry.isWrite = false)
      (hm : s'.machine.copies b = s.machine.copies b) : BlockStep R ready (s.machine.copies b)
        (actionOf cfg R ⟨s, e, s'⟩ b) (s'.machine.copies b) := by
    rw [actionOf_silent hg, hm]
    · exact .silent
    · intro i hi
      obtain ⟨entry, hentry, hw, -⟩ := hitsStore_eq_true.mp hi
      rw [hno i entry hentry] at hw
      simp at hw
  cases hf with
  | idle h => exact quiet (grantOf_idle h) (fun i entry h => by simp [executedBy] at h) rfl
  | @grant t req latency machine free first bus =>
    have hmem : req ∈ s.busQueue := minElement_mem first
    exact blockStep_grant (grantOf_grant _ free first) (htok.types req hmem) (hready req hmem) bus b
  | stalled blocked =>
    rw [pop_blocked] at blocked
    refine quiet rfl (fun i entry h => ?_) rfl
    rw [executedBy_idle (.inl blocked)] at h
    simp at h
  | exhausted running done =>
    rw [pop_traces] at done
    refine quiet rfl (fun i entry h => ?_) rfl
    rw [executedBy_idle (.inr done)] at h
    simp at h
  | compute running read label =>
    rw [pop_traces] at read
    rw [pop_blocked] at running
    refine quiet rfl (fun i entry h => ?_) rfl
    rw [executedBy_read running read] at h
    split at h
    · obtain rfl := Option.some.inj h
      simp [TraceEntry.isWrite, label]
    · simp at h
  | @hit _ i _ _ running read label resp =>
    rw [pop_traces] at read
    rw [pop_blocked] at running
    refine blockStep_access (i := i) ?_ rfl (executedBy_read running read) b
    intro b
    rfl
  | @miss _ i _ _ running read label resp =>
    rw [pop_traces] at read
    rw [pop_blocked] at running
    refine blockStep_access (i := i) ?_ rfl (executedBy_read running read) b
    intro b
    rfl
  | _ => exact quiet rfl (fun i entry h => by simp [executedBy] at h) rfl

theorem actionOf_fill {m : Move (Simulator S n) (Event n)} {b : Block} {r : Fin n}
    {type : BusTransactionType} (h : actionOf cfg R m b = .fill r type) :
    ∃ req, grantOf cfg m = some req ∧ req.coreId = r ∧ req.type = type ∧
      b = cfg.geometry.block req.addr := by
  unfold actionOf at h
  split at h
  · rename_i req hg
    split at h
    · rename_i hb
      split at h
      · simp at h
      · obtain ⟨rfl, rfl⟩ := BlockAction.fill.inj h
        exact ⟨req, hg, rfl, rfl, hb⟩
    · split at h <;> simp at h
  · cases hfind : (List.finRange n).find? (hitsStore cfg R b m) <;> simp [hfind] at h

/-! ### Runs -/

/-- The stores that have been performed on block `b`, the last one first. -/
def storesTo (cfg : Config) (R : ProtocolRules S) (b : Block)
    (h : List (Move (Simulator S n) (Event n))) : List (Fin n) :=
  h.filterMap fun m => (actionOf cfg R m b).storer

/-- The contents of block `b` in every cache and in memory. -/
def contents (cfg : Config) (R : ProtocolRules S) (reflect : Bool) (b : Block) :
    List (Move (Simulator S n) (Event n)) → Contents (Fin n) (List (Fin n))
  | [] => ⟨fun _ => [], []⟩
  | m :: h => (actionOf cfg R m b).transfer R reflect (m.before.machine.copies b)
      (contents cfg R reflect b h)

theorem storesTo_cons (b : Block) (m : Move (Simulator S n) (Event n))
    (h : List (Move (Simulator S n) (Event n))) :
    storesTo cfg R b (m :: h) = (actionOf cfg R m b).storer.toList ++ storesTo cfg R b h := by
  unfold storesTo
  cases hs : (actionOf cfg R m b).storer <;> simp [hs]

theorem current_run {compatible : S → S → Prop} (hR : R.MissFills)
    (laws : DataLaws R ready compatible) {traces : Fin n → List TraceEntry}
    {h : List (Move (Simulator S n) (Event n))} (hr : (system cfg R traces).Run h s) (b : Block)
    (hcoherent : ∀ s, (system cfg R traces).Reached s →
      Coherent compatible (s.machine.copies b))
    (hready : ∀ m ∈ h, m.before.RequestsReady cfg ready) (reflect : Bool)
    (hread : reflect = true ∨
      (∀ st, R.isDirty st = true → R.isDirty (snoopState R .busRd st) = true) ∨
      ∀ m ∈ h, readsDirty cfg R m = false) :
    Current R (s.machine.copies b) (contents cfg R reflect b h) (storesTo cfg R b h) := by
  induction hr with
  | start hs =>
    rw [hs]
    exact ⟨fun i hi => rfl, fun _ => rfl⟩
  | @next h s s' e hr hs ih =>
    obtain ⟨-, -, hf⟩ := fired_of_step hs
    have hstep := blockStep_fired (tokenInv_reached hR hr.reached)
      (hready _ List.mem_cons_self) hf b
    have hcurrent := ih (fun m hm => hready m (List.mem_cons_of_mem _ hm))
      (hread.imp_right fun hread => hread.imp_right fun hread m hm =>
        hread m (List.mem_cons_of_mem _ hm))
    rw [storesTo_cons]
    refine current_blockStep laws hstep (hcoherent s hr.reached) reflect ?_ hcurrent
    intro r hfill hclean
    rcases hread with hreflect | hkeeps | hnone
    · exact .inl hreflect
    · right
      intro i hi
      by_contra hdirty
      have hafter := hclean i
      rw [hfill] at hstep
      rw [hstep.snooped hi, hkeeps _ (by simpa using hdirty)] at hafter
      simp at hafter
    · right
      intro i hi
      by_contra hdirty
      obtain ⟨req, hg, rfl, htype, rfl⟩ := actionOf_fill hfill
      rw [Bool.not_eq_false] at hdirty
      have hreads : readsDirty cfg R ⟨s, e, s'⟩ = true :=
        readsDirty_eq_true.mpr ⟨req, hg, htype, i, hi, hdirty⟩
      rw [hnone _ List.mem_cons_self] at hreads
      simp at hreads

/-- What a run in which no upgrade is granted on a dead copy keeps to. -/
theorem dataLaws_run (p : ProtocolName) {traces : Fin n → List TraceEntry}
    {h : List (Move (Simulator p.State n) (Event n))} {s : Simulator p.State n}
    (hr : (system cfg p.rules traces).Run h s)
    (hup : p = .dragon ∨ ∀ m ∈ h, overtakes cfg m = false) :
    ∃ ready compatible, DataLaws p.rules ready compatible ∧
      (∀ s b, (system cfg p.rules traces).Reached s →
        Coherent compatible (s.machine.copies b)) ∧
      ∀ m ∈ h, m.before.RequestsReady cfg ready := by
  by_cases hp : p = .dragon
  · subst hp
    refine ⟨_, _, dragon_dataLaws, fun s b hs => dragon_coherent hs b, ?_⟩
    intro m hm
    exact dragon_ready_reached (hr.move hm).1
  · obtain ⟨compatible, compat, laws⟩ := p.dataLaws hp
    refine ⟨_, _, laws, ?_, ?_⟩
    · intro s b hs
      exact coherent_reached p.missFills compat (fun s hs => fillReady_reached p.missFills hs) hs b
    · intro m hm req hreq
      refine ⟨fillReady_reached p.missFills (hr.move hm).1 req hreq, ?_⟩
      intro htype hdead
      have hno := hup.resolve_left hp
      exact noStale_run (ProtocolName.invalidating hp) hr hno m hm req hreq ⟨htype, hdead⟩

/-- Reads leave a dirty copy where there was one, or find none, or memory takes it over. -/
def ReadsKept (cfg : Config) (p : ProtocolName) (reflect : Bool)
    (h : List (Move (Simulator p.State n) (Event n))) : Prop :=
  reflect = true ∨ p = .moesi ∨ p = .dragon ∨ ∀ m ∈ h, readsDirty cfg p.rules m = false

theorem ReadsKept.of_subset {p : ProtocolName} {reflect : Bool}
    {h h' : List (Move (Simulator p.State n) (Event n))} (hread : ReadsKept cfg p reflect h)
    (hsub : ∀ m ∈ h', m ∈ h) : ReadsKept cfg p reflect h' :=
  hread.imp_right fun hread => hread.imp_right fun hread => hread.imp_right
    fun hread m hm => hread m (hsub m hm)

theorem upToDate_run (p : ProtocolName) (reflect : Bool) {traces : Fin n → List TraceEntry}
    {h : List (Move (Simulator p.State n) (Event n))} {s : Simulator p.State n}
    (hr : (system cfg p.rules traces).Run h s)
    (hup : p = .dragon ∨ ∀ m ∈ h, overtakes cfg m = false) (hread : ReadsKept cfg p reflect h)
    (b : Block) : Current p.rules (s.machine.copies b) (contents cfg p.rules reflect b h)
      (storesTo cfg p.rules b h) := by
  obtain ⟨ready, compatible, laws, hcoherent, hready⟩ := dataLaws_run p hr hup
  refine current_run p.missFills laws hr b (fun s hs => hcoherent s b hs) hready reflect ?_
  rcases hread with hreflect | rfl | rfl | hnone
  · exact .inl hreflect
  · exact .inr (.inl moesi_reads_keep_dirty)
  · exact .inr (.inl dragon_reads_keep_dirty)
  · exact .inr (.inr hnone)

/-- After the history `earlier`, the move `m` completes the load `entry` of core `i`: as a hit,
or as the grant of the request that the core's last Fetch has made for it. -/
inductive CompletesLoad (cfg : Config) (R : ProtocolRules S)
    (earlier : List (Move (Simulator S n) (Event n))) (m : Move (Simulator S n) (Event n))
    (i : Fin n) (entry : TraceEntry) : Prop where
  | hit (read : executedBy i m = some entry) (label : entry.label ≠ 2)
      (load : entry.isWrite = false)
      (hit : (m.before.access cfg R i entry).1.isHit = true) : CompletesLoad cfg R earlier m i entry
  | grant {req : BusRequest n} {f : Move (Simulator S n) (Event n)}
      (granted : grantOf cfg m = some req) (core : req.coreId = i)
      (fetch : lastFetch earlier i = some f) (read : (f.before.traces i).head? = some entry)
      (load : entry.isWrite = false) : CompletesLoad cfg R earlier m i entry

omit [LineState S] in
theorem grantOf_of_executedBy {m : Move (Simulator S n) (Event n)} {i : Fin n}
    {entry : TraceEntry} (h : executedBy i m = some entry) : grantOf cfg m = none := by
  obtain ⟨t, hlabel⟩ := fetch_of_executedBy h
  simp [grantOf, hlabel]

theorem actionOf_granted {m : Move (Simulator S n) (Event n)} {req : BusRequest n}
    (hg : grantOf cfg m = some req) :
    (actionOf cfg R m (cfg.geometry.block req.addr)).granted = some (req.coreId, req.type) := by
  simp only [actionOf, hg, if_true]
  split
  · rename_i hu
    rw [hu]
    rfl
  · rfl

/-- The copy of a core that has just hit is valid. -/
theorem valid_of_hit {compatible : S → S → Prop} (laws : DataLaws R ready compatible)
    {m : Move (Simulator S n) (Event n)} {i : Fin n} {entry : TraceEntry}
    (hstep : BlockStep R ready (m.before.machine.copies (cfg.geometry.block entry.val))
      (actionOf cfg R m (cfg.geometry.block entry.val))
      (m.after.machine.copies (cfg.geometry.block entry.val)))
    (hread : executedBy i m = some entry)
    (hhit : (respond R entry.isWrite
      (m.before.machine.state i (cfg.geometry.block entry.val))).isHit = true) :
    m.after.machine.state i (cfg.geometry.block entry.val) ≠ invalid := by
  have hvalid : m.before.machine.copies (cfg.geometry.block entry.val) i ≠ invalid := by
    intro hdead
    have hdead : m.before.machine.state i (cfg.geometry.block entry.val) = invalid := hdead
    simp [respond, hdead] at hhit
  have hg : grantOf cfg m = none := grantOf_of_executedBy hread
  change m.after.machine.copies (cfg.geometry.block entry.val) i ≠ invalid
  generalize m.after.machine.copies (cfg.geometry.block entry.val) = copies' at hstep ⊢
  cases hw : entry.isWrite with
  | true =>
    rw [hw] at hhit
    rw [actionOf_store hg (hitsStore_eq_true.mpr ⟨entry, hread, hw, rfl, hhit⟩)] at hstep
    cases hstep with
    | store _ valid unshared =>
      rw [Function.update_self]
      exact laws.valid_of_dirty (laws.marks _ valid unshared)
  | false =>
    have hno (j : Fin n) : ¬ hitsStore cfg R (cfg.geometry.block entry.val) m j = true := by
      intro hj
      obtain ⟨entry', hread', hstore, -⟩ := hitsStore_eq_true.mp hj
      obtain ⟨t, hi⟩ := fetch_of_executedBy hread
      obtain ⟨t', hj⟩ := fetch_of_executedBy hread'
      obtain rfl := (Event.fetch.inj (hi.symm.trans hj)).2
      obtain rfl := Option.some.inj (hread.symm.trans hread')
      simp [hw] at hstore
    rw [actionOf_silent hg hno] at hstep
    cases hstep
    exact hvalid

/-- The copy of a core whose load has just been completed is valid. -/
theorem valid_of_completesLoad {compatible : S → S → Prop} (hR : R.MissFills)
    (laws : DataLaws R ready compatible) {traces : Fin n → List TraceEntry}
    {earlier : List (Move (Simulator S n) (Event n))} {m : Move (Simulator S n) (Event n)}
    (hr : (system cfg R traces).Run earlier m.before)
    (hs : (system cfg R traces).step m.before m.label m.after)
    (hready : m.before.RequestsReady cfg ready) {i : Fin n} {entry : TraceEntry}
    (hload : CompletesLoad cfg R earlier m i entry) :
    m.after.machine.state i (cfg.geometry.block entry.val) ≠ invalid := by
  obtain ⟨-, -, hf⟩ := fired_of_step hs
  have hstep := blockStep_fired (tokenInv_reached hR hr.reached) hready hf
    (cfg.geometry.block entry.val)
  cases hload with
  | hit read label load hit =>
    rw [access_response] at hit
    exact valid_of_hit laws hstep read hit
  | @grant req f granted core fetch read load =>
    subst core
    obtain ⟨f', entry', hf', hfetched⟩ := requestsFetched_run hR hr req (grantOf_mem granted)
    obtain rfl := Option.some.inj (fetch.symm.trans hf')
    obtain rfl := Option.some.inj (read.symm.trans hfetched.read)
    rw [← hfetched.addr] at hstep ⊢
    exact requester_valid laws hstep (actionOf_granted granted)

/-- In a run in which no upgrade is granted on a dead copy and reads keep dirty data, every
valid copy of a block holds all the stores performed on it, in their order, and so does the
memory when no copy is dirty. Every load gets the stores that were performed before it. Under
Dragon a store that misses is never performed (`DragonStores.lean`): `storesTo` leaves it out,
and no copy has it. -/
theorem data_values_coherent (p : ProtocolName) (reflect : Bool) (cfg : Config)
    (traces : Fin n → List TraceEntry) {h : List (Move (Simulator p.State n) (Event n))}
    {s : Simulator p.State n} (hr : (system cfg p.rules traces).Run h s)
    (hup : p = .dragon ∨ ∀ m ∈ h, overtakes cfg m = false) (hread : ReadsKept cfg p reflect h) :
    (∀ b i, s.machine.state i b ≠ invalid →
      (contents cfg p.rules reflect b h).copy i = storesTo cfg p.rules b h) ∧
    (∀ b, ¬ s.machine.Dirty p.rules b →
      (contents cfg p.rules reflect b h).memory = storesTo cfg p.rules b h) ∧
    ∀ later m earlier i entry, h = later ++ m :: earlier →
      CompletesLoad cfg p.rules earlier m i entry →
      (contents cfg p.rules reflect (cfg.geometry.block entry.val) (m :: earlier)).copy i =
        storesTo cfg p.rules (cfg.geometry.block entry.val) (m :: earlier) := by
  refine ⟨?_, ?_, ?_⟩
  · intro b i hvalid
    exact (upToDate_run p reflect hr hup hread b).copy i hvalid
  · intro b hclean
    apply (upToDate_run p reflect hr hup hread b).memory
    intro i hi
    exact hclean ⟨i, hi⟩
  · rintro later m earlier i entry rfl hload
    have hmem : ∀ m' ∈ m :: earlier, m' ∈ later ++ m :: earlier :=
      fun m' hm => List.mem_append_right _ hm
    have hup : p = .dragon ∨ ∀ m' ∈ m :: earlier, overtakes cfg m' = false :=
      hup.imp_right fun hup m' hm => hup m' (hmem m' hm)
    have hread : ReadsKept cfg p reflect (m :: earlier) := hread.of_subset hmem
    obtain ⟨hbefore, hstep⟩ := hr.before_move
    have hafter : (system cfg p.rules traces).Run (m :: earlier) m.after := hbefore.next hstep
    obtain ⟨ready, compatible, laws, -, hready⟩ := dataLaws_run p hafter hup
    exact (upToDate_run p reflect hafter hup hread _).copy i
      (valid_of_completesLoad p.missFills laws hbefore hstep (hready m List.mem_cons_self) hload)

/-- Core 1 loads what core 0 has stored. -/
theorem data_values_coherent_storeAndLoad :
    ∃ (h : List (Move (Simulator MOESIState 2) (Event 2)))
      (m : Move (Simulator MOESIState 2) (Event 2)),
      (system tinyConfig (ProtocolName.rules .moesi) storeAndLoad).Run (m :: h) m.after ∧
      CompletesLoad tinyConfig (ProtocolName.rules .moesi) h m 1 ⟨0, 0⟩ ∧
      storesTo tinyConfig (ProtocolName.rules .moesi) (tinyConfig.geometry.block 0) (m :: h) = [0] ∧
      (contents tinyConfig (ProtocolName.rules .moesi) false (tinyConfig.geometry.block 0)
        (m :: h)).copy 1 = [0] := by
  obtain ⟨h, m, hr, ht⟩ := exists_last_move tinyConfig (ProtocolName.rules .moesi) storeAndLoad
    [.fetch 0 0, .busArbitration 0, .fetch 0 1, .busRelease 101, .busArbitration 101]
    (fun h (m : Move (Simulator MOESIState 2) (Event 2)) =>
      (m :: h).all (fun m => !overtakes tinyConfig m) &&
      (grantOf tinyConfig m).any (·.coreId == 1) &&
      (lastFetch h 1).any (fun f => (f.before.traces 1).head? == some ⟨0, 0⟩) &&
      storesTo tinyConfig (ProtocolName.rules .moesi) (tinyConfig.geometry.block 0) (m :: h) ==
        [0]) (by decide +kernel)
  simp only [Bool.and_eq_true, List.all_eq_true, Bool.not_eq_true', Option.any_eq_true,
    beq_iff_eq] at ht
  obtain ⟨⟨⟨hno, req, hg, hcore⟩, f, hf, hread⟩, hstores⟩ := ht
  have hload : CompletesLoad tinyConfig (ProtocolName.rules .moesi) h m 1 ⟨0, 0⟩ :=
    .grant hg hcore hf hread rfl
  have hdata := (data_values_coherent .moesi false tinyConfig storeAndLoad hr (.inr hno)
    (.inr (.inl rfl))).2.2 [] m h 1 ⟨0, 0⟩ rfl hload
  exact ⟨h, m, hr, hload, hstores, hdata.trans hstores⟩

end Simulator
end CoherenceFormal
