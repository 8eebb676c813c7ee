import CoherenceFormal.DataValues

/-!
# Every store once

A store of a trace is executed by the Fetch of its core, which hits or sends one request. Under
the invalidation protocols an executed store has hit, has been granted the bus or waits in the
queue. An upgrade that is granted after its line has died writes to no copy, and its store is
lost. While there is none, each store is in every valid copy once.
-/

namespace CoherenceFormal
open LineState
set_option autoImplicit false

variable {S : Type} [LineState S] {n : Nat}

/-- The entry is a store to block `b`. -/
def TraceEntry.storesTo (cfg : Config) (b : Block) (entry : TraceEntry) : Bool :=
  entry.isWrite && b == cfg.geometry.block entry.val

/-- The request is that of a store of core `i` to block `b`. -/
def BusRequest.storesTo (cfg : Config) (b : Block) (i : Fin n) (req : BusRequest n) : Bool :=
  req.coreId == i && req.type != .busRd && b == cfg.geometry.block req.addr

/-- Loads and stores ask for different transactions. -/
structure TellsStores (R : ProtocolRules S) : Prop where
  load : R.missAction false = .busRd
  store : R.missAction true = .busRdx

theorem ProtocolName.tellsStores {p : ProtocolName} (hp : p ≠ .dragon) :
    TellsStores p.rules := by
  cases p with
  | dragon => exact absurd rfl hp
  | _ => exact ⟨rfl, rfl⟩

theorem TellsStores.missFills {R : ProtocolRules S} (hR : TellsStores R) : R.MissFills := by
  intro isWrite
  cases isWrite with
  | false => exact .inl hR.load
  | true => exact .inr hR.store

/-- The transaction that an access waits for is a BUS_RD if it is a load. -/
theorem TellsStores.of_miss {R : ProtocolRules S} (hR : TellsStores R) {isWrite : Bool} {st : S}
    (h : (respond R isWrite st).isHit = false) :
    ((respond R isWrite st).busAction != .busRd) = isWrite := by
  rcases Simulator.respond_cases R isWrite st with ⟨hr, -⟩ | ⟨hr, -, hw, -⟩ | ⟨hr, -⟩
  · simp [hr] at h
  · rw [hr, hw]
    rfl
  · rw [hr]
    cases isWrite with
    | false =>
      rw [hR.load]
      rfl
    | true =>
      rw [hR.store]
      rfl

namespace Simulator

variable {cfg : Config} {R : ProtocolRules S} {s s' : Simulator S n} {e : Event n}

omit [LineState S] in
theorem executed_cons (i : Fin n) (m : Move (Simulator S n) (Event n))
    (h : List (Move (Simulator S n) (Event n))) :
    executed i (m :: h) = executed i h ++ (executedBy i m).toList := by
  rw [executed, List.reverse_cons, List.filterMap_append]
  cases hm : executedBy i m <;> simp [executed, hm]

theorem storer_of_grant {m : Move (Simulator S n) (Event n)} {req : BusRequest n}
    (hg : grantOf cfg m = some req) (ht : req.type.requestable) (b : Block) :
    (actionOf cfg R m b).storer =
      if req.type ≠ .busRd ∧ b = cfg.geometry.block req.addr then some req.coreId else none := by
  simp only [actionOf, hg]
  by_cases hb : b = cfg.geometry.block req.addr
  · rcases ht with htype | htype | htype <;> simp [hb, htype, BlockAction.storer]
  · simp only [hb, and_false, if_false]
    split <;> rfl

/-- A store that hits is performed by its own Fetch. -/
theorem storer_of_hit {m : Move (Simulator S n) (Event n)} {j : Fin n} {entry : TraceEntry}
    (hread : ∀ i, executedBy i m = if i = j then some entry else none)
    (hhit : (respond R entry.isWrite
      (m.before.machine.state j (cfg.geometry.block entry.val))).isHit = true)
    (b : Block) : (actionOf cfg R m b).storer =
      if entry.storesTo cfg b = true then some j else none := by
  have hg : grantOf cfg m = none := grantOf_of_executedBy (i := j) (by rw [hread, if_pos rfl])
  by_cases hstore : entry.storesTo cfg b = true
  · obtain ⟨hw, hb⟩ := Bool.and_eq_true_iff.mp hstore
    have hb := beq_iff_eq.mp hb
    have hhits : hitsStore cfg R b m j = true := by
      refine hitsStore_eq_true.mpr ⟨entry, by rw [hread, if_pos rfl], hw, hb, ?_⟩
      rw [hw] at hhit
      rw [hb]
      exact hhit
    rw [actionOf_store hg hhits, if_pos hstore]
    rfl
  · rw [actionOf_silent hg, if_neg hstore]
    · rfl
    · intro i hi
      obtain ⟨entry', hentry, hw, hb, -⟩ := hitsStore_eq_true.mp hi
      rw [hread] at hentry
      split at hentry
      · obtain rfl := Option.some.inj hentry
        exact hstore (by rw [TraceEntry.storesTo, hw, hb]; simp)
      · simp at hentry

/-- A move in which no store is performed on the block. -/
theorem storer_of_none {m : Move (Simulator S n) (Event n)} {b : Block}
    (hg : grantOf cfg m = none) (hno : ∀ i, ¬ hitsStore cfg R b m i = true) :
    (actionOf cfg R m b).storer = none := by
  rw [actionOf_silent hg hno]
  rfl

theorem not_hitsStore_of_executedBy {m : Move (Simulator S n) (Event n)} (b : Block)
    (h : ∀ i, executedBy i m = none) (i : Fin n) : ¬ hitsStore cfg R b m i = true := by
  simp [hitsStore, h]

/-- What a move executes hits in it or joins the queue, and what it grants leaves the queue. -/
theorem stores_fired (hR : TellsStores R) (htok : s.TokenInv) (hf : Fired cfg R (s.pop e) e s')
    (b : Block) (i : Fin n) :
    (executedBy i ⟨s, e, s'⟩).toList.countP (TraceEntry.storesTo cfg b) +
        s.busQueue.countP (BusRequest.storesTo cfg b i) =
      (actionOf cfg R ⟨s, e, s'⟩ b).storer.toList.count i +
        s'.busQueue.countP (BusRequest.storesTo cfg b i) := by
  have quiet (hexec : ∀ j, executedBy j ⟨s, e, s'⟩ = none)
      (hg : grantOf cfg ⟨s, e, s'⟩ = none) (hqueue : s'.busQueue = s.busQueue) :
      (executedBy i ⟨s, e, s'⟩).toList.countP (TraceEntry.storesTo cfg b) +
          s.busQueue.countP (BusRequest.storesTo cfg b i) =
        (actionOf cfg R ⟨s, e, s'⟩ b).storer.toList.count i +
          s'.busQueue.countP (BusRequest.storesTo cfg b i) := by
    rw [storer_of_none hg (not_hitsStore_of_executedBy b hexec), hexec, hqueue]
    rfl
  cases hf with
  | idle h => exact quiet (fun j => rfl) (grantOf_idle h) rfl
  | @grant t req latency machine free first bus =>
    have hmem : req ∈ s.busQueue := minElement_mem first
    have hqueue := (List.perm_cons_erase hmem).countP_eq (BusRequest.storesTo cfg b i)
    rw [storer_of_grant (grantOf_grant _ free first) (htok.types req hmem), hqueue,
      List.countP_cons]
    have hstorer : (if req.type ≠ .busRd ∧ b = cfg.geometry.block req.addr then some req.coreId
        else none).toList.count i = if BusRequest.storesTo cfg b i req = true then 1 else 0 := by
      by_cases hi : req.coreId = i <;>
        by_cases hs : req.type ≠ .busRd ∧ b = cfg.geometry.block req.addr <;>
        simp [BusRequest.storesTo, hi, hs]
    simp only [hstorer, executedBy, Option.toList_none, List.countP_nil, granted, pop_busQueue]
    omega
  | stalled blocked =>
    rw [pop_blocked] at blocked
    exact quiet (executedBy_idle (.inl blocked)) rfl rfl
  | exhausted running done =>
    rw [pop_traces] at done
    exact quiet (executedBy_idle (.inr done)) rfl rfl
  | @compute t j entry rest running read label =>
    rw [pop_traces] at read
    rw [pop_blocked] at running
    have hload : entry.isWrite = false := by simp [TraceEntry.isWrite, label]
    rw [storer_of_none rfl, executedBy_read running read]
    · by_cases hij : i = j <;> simp [hij, TraceEntry.storesTo, hload, computed]
    · intro k hk
      obtain ⟨entry', hentry, hw, -⟩ := hitsStore_eq_true.mp hk
      rw [executedBy_read running read] at hentry
      split at hentry
      · obtain rfl := Option.some.inj hentry
        simp [hload] at hw
      · simp at hentry
  | @hit t j entry rest running read label resp =>
    rw [pop_traces] at read
    rw [pop_blocked] at running
    rw [storer_of_hit (fun i => executedBy_read running read i) (by rw [← pop_machine s, resp]),
      executedBy_read running read]
    by_cases hij : i = j
    · subst hij
      by_cases hstore : entry.storesTo cfg b = true <;> simp [hit, hstore]
    · by_cases hstore : entry.storesTo cfg b = true <;> simp [hit, hstore, hij, Ne.symm hij]
  | @miss t j entry rest running read label resp =>
    rw [pop_traces] at read
    rw [pop_blocked] at running
    have htells := hR.of_miss resp
    rw [storer_of_none rfl, executedBy_read running read]
    · simp only [missed, pop_busQueue, List.countP_append, List.countP_singleton,
        BusRequest.storesTo, access_response, htells]
      by_cases hij : i = j
      · subst hij
        simp [TraceEntry.storesTo, List.countP_cons, Nat.add_comm]
      · simp [hij, Ne.symm hij]
    · intro k hk
      obtain ⟨entry', hentry, hw, hb, hhit⟩ := hitsStore_eq_true.mp hk
      rw [executedBy_read running read] at hentry
      split at hentry
      · rename_i hkj
        subst hkj
        obtain rfl := Option.some.inj hentry
        rw [hw, pop_machine, ← hb] at resp
        simp [resp] at hhit
      · simp at hentry
  | _ => exact quiet (fun j => rfl) rfl rfl

theorem stores_run (hR : TellsStores R) {traces : Fin n → List TraceEntry}
    {h : List (Move (Simulator S n) (Event n))} (hr : (system cfg R traces).Run h s) (b : Block)
    (i : Fin n) : (executed i h).countP (TraceEntry.storesTo cfg b) =
      (storesTo cfg R b h).count i + s.busQueue.countP (BusRequest.storesTo cfg b i) := by
  refine hr.history (J := TokenInv) (K := fun h s =>
    (executed i h).countP (TraceEntry.storesTo cfg b) =
      (storesTo cfg R b h).count i + s.busQueue.countP (BusRequest.storesTo cfg b i)) ?_ ?_ ?_
  · intro s hs
    exact tokenInv_reached hR.missFills hs
  · intro s hs
    subst hs
    rfl
  · intro h s e s' hstep htok ih
    obtain ⟨-, -, hf⟩ := fired_of_step hstep
    have hmove := stores_fired hR htok hf b i
    rw [executed_cons, List.countP_append, storesTo_cons, List.count_append]
    omega

/-- In every state the stores of a core to a block that have been executed are those that have
hit or been granted the bus and those that wait for it, each once. Unless an upgrade has been
overtaken, those that have hit or been granted are in the data: once in every valid copy, and
once in the memory if no copy is dirty. At the end these are the stores of the trace. -/
theorem stores_held_once (p : ProtocolName) (hp : p ≠ .dragon) (cfg : Config)
    (traces : Fin n → List TraceEntry) {h : List (Move (Simulator p.State n) (Event n))}
    {s : Simulator p.State n} (hr : (system cfg p.rules traces).Run h s) (b : Block) (i : Fin n) :
    (executed i h).countP (TraceEntry.storesTo cfg b) =
      (storesTo cfg p.rules b h).count i + s.busQueue.countP (BusRequest.storesTo cfg b i) ∧
    (s.ended = true → s.busQueue = [] ∧ executed i h = traces i) ∧
    ∀ reflect, (∀ m ∈ h, overtakes cfg m = false) → ReadsKept cfg p reflect h →
      (∀ j, s.machine.state j b ≠ invalid →
        ((contents cfg p.rules reflect b h).copy j).count i +
          s.busQueue.countP (BusRequest.storesTo cfg b i) =
            (executed i h).countP (TraceEntry.storesTo cfg b)) ∧
      (¬ s.machine.Dirty p.rules b →
        (contents cfg p.rules reflect b h).memory.count i +
          s.busQueue.countP (BusRequest.storesTo cfg b i) =
            (executed i h).countP (TraceEntry.storesTo cfg b)) := by
  have hbalance := stores_run (ProtocolName.tellsStores hp) hr b i
  refine ⟨hbalance, ?_, ?_⟩
  · intro hend
    exact ⟨(idle_of_ended p.missFills hr.reached hend).2.2,
      executed_of_ended p.missFills hr hend i⟩
  · intro reflect hup hread
    have hcurrent := upToDate_run p reflect hr (.inr hup) hread b
    refine ⟨?_, ?_⟩
    · intro j hvalid
      rw [hcurrent.copy j hvalid, hbalance]
    · intro hclean
      rw [hcurrent.memory fun j hj => hclean ⟨j, hj⟩, hbalance]

/-- Cores 0 and 1 store to one block. -/
def bothStore (_ : Fin 2) : List TraceEntry := [⟨1, 0⟩]

/-- The copy that is left at the end is core 1's, with a store of each core in it. -/
theorem stores_held_once_both :
    ∃ (h : List (Move (Simulator MESIState 2) (Event 2))) (s : Simulator MESIState 2),
      (system tinyConfig (ProtocolName.rules .mesi) bothStore).Run h s ∧ s.ended = true ∧
      s.machine.state 1 (tinyConfig.geometry.block 0) ≠ invalid ∧
      ∀ i, ((contents tinyConfig (ProtocolName.rules .mesi) false (tinyConfig.geometry.block 0)
        h).copy 1).count i = 1 := by
  obtain ⟨h, s, hr, ht⟩ := exists_run tinyConfig (ProtocolName.rules .mesi) bothStore
    [.fetch 0 0, .busArbitration 0, .fetch 0 1, .busRelease 101, .busArbitration 101,
      .coreUnblock 101 0, .fetch 101 0, .busRelease 104, .coreUnblock 104 1, .fetch 104 1]
    (fun h s => s.ended && h.all (fun m => !overtakes tinyConfig m) &&
      h.all (fun m => !readsDirty tinyConfig (ProtocolName.rules .mesi) m) &&
      s.machine.state 1 (tinyConfig.geometry.block 0) != invalid) (by decide +kernel)
  simp only [Bool.and_eq_true, List.all_eq_true, Bool.not_eq_true', bne_iff_ne] at ht
  obtain ⟨⟨⟨hend, hup⟩, hread⟩, hvalid⟩ := ht
  refine ⟨h, s, hr, hend, hvalid, ?_⟩
  intro i
  obtain ⟨-, hended, hheld⟩ := stores_held_once .mesi (by decide) tinyConfig bothStore hr
    (tinyConfig.geometry.block 0) i
  obtain ⟨hqueue, hexecuted⟩ := hended hend
  have hcopy := (hheld false hup (.inr (.inr (.inr hread)))).1 1 hvalid
  rw [hqueue, hexecuted, List.countP_nil, Nat.add_zero] at hcopy
  rw [hcopy]
  rfl

end Simulator
end CoherenceFormal
