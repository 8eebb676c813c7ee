import CoherenceFormal.DragonInvariant
import CoherenceFormal.FetchHistory

/-!
# Which Dragon stores are performed

A store that finds a valid copy when it is fetched is performed, by the hit or by
the bus update. A store that misses asks for a plain BUS_RD, the handler fills the
line in a clean state, and the core goes on with its next entry: the write itself
is never made.
-/

namespace CoherenceFormal
open LineState Snooping
set_option autoImplicit false

variable {n : Nat}

/-! ### One store on one block -/

/-- The writer `i` has the modified copy, and every other copy is a clean sharer. -/
def StorePerformed (copies : Fin n → DragonState) (i : Fin n) : Prop :=
  (copies i = .modified ∧ ∀ j, j ≠ i → copies j = .invalid) ∨
  (copies i = .sharedModified ∧ ∀ j, j ≠ i → copies j = .sharedClean ∨ copies j = .invalid)

instance (copies : Fin n → DragonState) (i : Fin n) : Decidable (StorePerformed copies i) :=
  inferInstanceAs (Decidable (_ ∨ _))

theorem storePerformed_hit {copies : Fin n → DragonState} {i : Fin n}
    (hc : Coherent (Mutual DragonProtocol.tolerates) copies) (hv : copies i ≠ .invalid)
    (hs : dragon.isShared (copies i) = false) :
    StorePerformed (Function.update copies i (dragon.writeHit (copies i))) i := by
  have written : ∀ st, st ≠ .invalid → dragon.isShared st = false →
      dragon.writeHit st = .modified := by decide
  have alone : ∀ a c, a ≠ .invalid → dragon.isShared a = false →
      DragonProtocol.tolerates a c = true → c = .invalid := by decide
  left
  constructor
  · rw [Function.update_self]
    exact written _ hv hs
  · intro j hj
    rw [Function.update_of_ne hj]
    exact alone _ _ hv hs (hc (Ne.symm hj)).1

theorem storePerformed_upgrade {copies : Fin n → DragonState} {r : Fin n}
    (hc : Coherent (Mutual DragonProtocol.tolerates) copies)
    (own : DragonProtocol.ready .busUpgr (copies r)) :
    StorePerformed (broadcast copies r (dragon.upgrState (otherCopy copies r))
      (snoopState dragon .busUpgr)) r := by
  have cleaned : ∀ a c, DragonProtocol.ready .busUpgr a → Mutual DragonProtocol.tolerates a c →
      snoopState dragon .busUpgr c = .sharedClean ∨ snoopState dragon .busUpgr c = .invalid := by
    decide
  cases ho : otherCopy copies r with
  | true =>
    right
    refine ⟨broadcast_self _ _ _ _, ?_⟩
    intro j hj
    rw [broadcast_of_ne _ hj]
    exact cleaned _ _ own (hc (Ne.symm hj))
  | false =>
    left
    refine ⟨broadcast_self _ _ _ _, ?_⟩
    intro j hj
    rw [broadcast_of_ne _ hj]
    have hinv : copies j = .invalid := by
      by_contra hv
      rw [otherCopy_of_valid hj hv] at ho
      exact absurd ho (by decide)
    rw [hinv]
    rfl

theorem not_storePerformed_fill (copies : Fin n → DragonState) (r : Fin n)
    (type : BusTransactionType) (shared : Bool) (f : DragonState → DragonState) :
    ¬ StorePerformed (broadcast copies r (dragon.fillState type shared) f) r := by
  have clean : ∀ type shared, dragon.fillState type shared ≠ .modified ∧
      dragon.fillState type shared ≠ .sharedModified := by decide
  rintro (⟨h, -⟩ | ⟨h, -⟩)
  · rw [broadcast_self] at h
    exact (clean type shared).1 h
  · rw [broadcast_self] at h
    exact (clean type shared).2 h

/-- A transaction leaves a modified copy exactly when it is an update. -/
theorem storePerformed_granted_iff {copies copies' : Fin n → DragonState} {a : BlockAction n}
    {r : Fin n} {type : BusTransactionType}
    (hstep : BlockStep dragon DragonProtocol.ready copies a copies')
    (hg : a.granted = some (r, type)) (hc : Coherent (Mutual DragonProtocol.tolerates) copies) :
    StorePerformed copies' r ↔ type = .busUpgr := by
  cases hstep with
  | upgrade r' own =>
    obtain ⟨rfl, htype⟩ := Prod.mk.inj (Option.some.inj hg)
    exact iff_of_true (storePerformed_upgrade hc own) htype.symm
  | fill r' type' fills own =>
    obtain ⟨rfl, rfl⟩ := Prod.mk.inj (Option.some.inj hg)
    exact iff_of_false (not_storePerformed_fill _ _ _ _ _)
      (BusTransactionType.ne_busUpgr_of_fill fills)
  | _ => simp [BlockAction.granted] at hg

/-! ### Stores of a run -/

namespace Simulator

variable {cfg : Config} {s s' : Simulator DragonState n} {e : Event n}

theorem storePerformed_of_hit (htok : s.TokenInv) (he : e ∈ s.eventQueue)
    (hf : Fired cfg dragon (s.pop e) e s') {t : Nat} {i : Fin n} {entry : TraceEntry}
    (hlabel : e = .fetch t i) (hread : (s.traces i).head? = some entry)
    (hstore : entry.isWrite = true) (hhit : (s.access cfg dragon i entry).1.isHit = true)
    (hc : Coherent (Mutual DragonProtocol.tolerates)
      (s.machine.copies (cfg.geometry.block entry.val))) :
    s.machine.state i (cfg.geometry.block entry.val) ≠ .invalid ∧
      StorePerformed (s'.machine.copies (cfg.geometry.block entry.val)) i := by
  subst hlabel
  obtain ⟨hv, hs, hcopies⟩ := storeHit_copies htok he hf hread hstore hhit
  refine ⟨hv, ?_⟩
  rw [hcopies]
  exact storePerformed_hit hc hv hs

theorem storePerformed_grant_iff {traces : Fin n → List TraceEntry}
    (hr : (system cfg dragon traces).Reached s) (hf : Fired cfg dragon (s.pop e) e s')
    {req : BusRequest n} (hg : grantOf cfg ⟨s, e, s'⟩ = some req) :
    StorePerformed (s'.machine.copies (cfg.geometry.block req.addr)) req.coreId ↔
      req.type = .busUpgr := by
  have htok := tokenInv_reached dragon_missFills hr
  obtain ⟨a, ha⟩ := actsOn_fired htok (dragon_ready_reached hr) hf (cfg.geometry.block req.addr)
  have hgranted : a.granted = some (req.coreId, req.type) := by
    rw [ha.granted, grantFor, hg, Option.bind_some, if_pos rfl]
  exact storePerformed_granted_iff ha.step hgranted (dragon_coherent hr _)

theorem FetchedBy.busUpgr_iff {req : BusRequest n} {f : Move (Simulator DragonState n) (Event n)}
    {entry : TraceEntry} (h : FetchedBy cfg dragon req f entry) :
    req.type = .busUpgr ↔
      f.before.machine.state req.coreId (cfg.geometry.block entry.val) ≠ .invalid := by
  have hmissed := h.missed
  rcases respond_cases dragon entry.isWrite
      (f.before.machine.state req.coreId (cfg.geometry.block entry.val)) with
    ⟨hr, -⟩ | ⟨hr, hv, -⟩ | ⟨hr, hi⟩
  · simp [hr] at hmissed
  · rw [hr] at hmissed
    exact iff_of_true (ProtocolResponse.mk.inj hmissed).2.symm hv
  · rw [hr] at hmissed
    have htype : dragon.missAction entry.isWrite = req.type := (ProtocolResponse.mk.inj hmissed).2
    refine iff_of_false ?_ (fun hv => hv hi)
    rw [← htype]
    simp [dragon]

/-- A store is performed by the step that completes it exactly when its Fetch found
the block valid in the core's own cache. -/
theorem dragon_store_performed_iff (cfg : Config) (traces : Fin n → List TraceEntry)
    (later earlier : List (Move (Simulator DragonState n) (Event n)))
    (m f : Move (Simulator DragonState n) (Event n)) {s : Simulator DragonState n} {i : Fin n}
    {entry : TraceEntry} (hr : (system cfg dragon traces).Run (later ++ m :: earlier) s)
    (hc : CompletesStore cfg dragon earlier m i entry f) :
    StorePerformed (m.after.machine.copies (cfg.geometry.block entry.val)) i ↔
      f.before.machine.state i (cfg.geometry.block entry.val) ≠ .invalid := by
  obtain ⟨hbefore, hstep⟩ := hr.before_move
  have htok := tokenInv_reached dragon_missFills hbefore.reached
  obtain ⟨he, -, hfired⟩ := fired_of_step hstep
  cases hc with
  | hit label read store hit =>
    obtain ⟨hv, hp⟩ := storePerformed_of_hit htok he hfired label read store hit
      (dragon_coherent hbefore.reached _)
    exact iff_of_true hp hv
  | @grant req f granted core fetch read store =>
    subst core
    have hmem := grantOf_mem granted
    obtain ⟨f', entry', hf', hfetched⟩ :=
      requestsFetched_run dragon_missFills hbefore req hmem
    obtain rfl := Option.some.inj (fetch.symm.trans hf')
    obtain rfl := Option.some.inj (read.symm.trans hfetched.read)
    have hiff := storePerformed_grant_iff hbefore.reached hfired granted
    rw [hfetched.addr] at hiff
    exact hiff.trans hfetched.busUpgr_iff

def twoStores (_ : Fin 1) : List TraceEntry := [⟨1, 0⟩, ⟨1, 0⟩]

/-- The second store of a core to one block hits the copy that the first one filled. -/
theorem dragon_store_performed_second :
    ∃ (h : List (Move (Simulator DragonState 1) (Event 1)))
      (m : Move (Simulator DragonState 1) (Event 1)),
      (system tinyConfig dragon twoStores).Run (m :: h) m.after ∧
      CompletesStore tinyConfig dragon h m 0 ⟨1, 0⟩ m ∧
      StorePerformed (m.after.machine.copies (tinyConfig.geometry.block 0)) 0 := by
  obtain ⟨h, m, hr, ht⟩ := exists_last_move tinyConfig dragon twoStores
    [.fetch 0 0, .busArbitration 0, .busRelease 101, .coreUnblock 101 0, .fetch 101 0]
    (fun _ m => m.label == .fetch 101 0 && (m.before.traces 0).head? == some ⟨1, 0⟩ &&
      (m.before.access tinyConfig dragon 0 ⟨1, 0⟩).1.isHit &&
      m.before.machine.state 0 (tinyConfig.geometry.block 0) != .invalid) (by decide +kernel)
  simp only [Bool.and_eq_true, beq_iff_eq, bne_iff_ne] at ht
  obtain ⟨⟨⟨hlabel, hread⟩, hhit⟩, hv⟩ := ht
  have hc : CompletesStore tinyConfig dragon h m 0 ⟨1, 0⟩ m := .hit hlabel hread rfl hhit
  exact ⟨h, m, hr, hc, (dragon_store_performed_iff _ _ [] h m m hr hc).mpr hv⟩

/-- The first one misses: its BUS_RD leaves the writer's line EXCLUSIVE. -/
theorem dragon_store_lost :
    ∃ (h : List (Move (Simulator DragonState 1) (Event 1)))
      (m f : Move (Simulator DragonState 1) (Event 1)),
      (system tinyConfig dragon twoStores).Run (m :: h) m.after ∧
      CompletesStore tinyConfig dragon h m 0 ⟨1, 0⟩ f ∧
      m.after.machine.state 0 (tinyConfig.geometry.block 0) = .exclusive ∧
      ¬ StorePerformed (m.after.machine.copies (tinyConfig.geometry.block 0)) 0 := by
  obtain ⟨h, m, hr, ht⟩ := exists_last_move tinyConfig dragon twoStores
    [.fetch 0 0, .busArbitration 0]
    (fun h m => (grantOf tinyConfig m).isSome &&
      (lastFetch h 0).any (fun f => (f.before.traces 0).head? == some ⟨1, 0⟩) &&
      m.after.machine.state 0 (tinyConfig.geometry.block 0) == .exclusive) (by decide +kernel)
  simp only [Bool.and_eq_true, beq_iff_eq, Option.any_eq_true, Option.isSome_iff_exists] at ht
  obtain ⟨⟨⟨req, hg⟩, f, hf, hread⟩, hx⟩ := ht
  refine ⟨h, m, f, hr, .grant hg (Fin.fin_one_eq_zero _) hf hread rfl, hx, ?_⟩
  rintro (⟨hm, -⟩ | ⟨hm, -⟩)
  · cases hx.symm.trans hm
  · cases hx.symm.trans hm

end Simulator
end CoherenceFormal
