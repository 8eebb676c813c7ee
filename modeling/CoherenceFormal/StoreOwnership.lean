import CoherenceFormal.UpgradeRace
import CoherenceFormal.SingleWriter
import CoherenceFormal.FetchHistory

/-!
# Stores under the invalidation protocols

A store completes in the Fetch step when it hits a line that no other cache shares, and
otherwise in the grant of its BUS_RDX or BUS_UPGR, whatever has happened to the block
while the request was waiting. Either way the writer is left with the only copy.
-/

namespace CoherenceFormal
open LineState Snooping
set_option autoImplicit false

variable {S : Type} [LineState S] {n : Nat}

/-- The copy of `i` is in state `modified`, and no other copy is valid. -/
def SoleOwner (modified : S) (copies : Fin n → S) (i : Fin n) : Prop :=
  copies i = modified ∧ ∀ j, j ≠ i → copies j = invalid

instance (modified : S) (copies : Fin n → S) (i : Fin n) :
    Decidable (SoleOwner modified copies i) := inferInstanceAs (Decidable (_ ∧ _))

/-- What the tables say about stores. -/
structure OwningLaws (R : ProtocolRules S) (modified : S) (compatible : S → S → Prop) : Prop where
  invalidating : Invalidating R
  compat : CompatLaws R fillReady compatible
  miss : R.missAction true = .busRdx
  hit : ∀ st, st ≠ invalid → R.isShared st = false → R.writeHit st = modified
  upgrade : ∀ shared, R.upgrState shared = modified
  fill : ∀ shared, R.fillState .busRdx shared = modified
  alone : ∀ a c, a ≠ invalid → R.isShared a = false → compatible a c → c = invalid

theorem mesi_owningLaws : OwningLaws mesi .modified (Mutual MESIProtocol.tolerates) :=
  ⟨mesi_invalidating, mesi_compatLaws, by decide, by decide, by decide, by decide, by decide⟩

theorem smart_owningLaws : OwningLaws smart .modified (Mutual MESIProtocol.tolerates) :=
  ⟨smart_invalidating, smart_compatLaws, mesi_owningLaws.miss, mesi_owningLaws.hit,
    mesi_owningLaws.upgrade, mesi_owningLaws.fill, mesi_owningLaws.alone⟩

theorem mesif_owningLaws : OwningLaws mesif .modified (Mutual MESIFProtocol.tolerates) :=
  ⟨mesif_invalidating, mesif_compatLaws, by decide, by decide, by decide, by decide, by decide⟩

theorem moesi_owningLaws : OwningLaws moesi .modified (Mutual MOESIProtocol.tolerates) :=
  ⟨moesi_invalidating, moesi_compatLaws, by decide, by decide, by decide, by decide, by decide⟩

/-- The MODIFIED member of a protocol's states. -/
def ProtocolName.modified : (p : ProtocolName) → p.State
  | .mesi => MESIState.modified
  | .dragon => DragonState.modified
  | .mesif => MESIFState.modified
  | .smart => MESIState.modified
  | .moesi => MOESIState.modified

theorem ProtocolName.owningLaws {p : ProtocolName} (hp : p ≠ .dragon) :
    ∃ compatible, OwningLaws p.rules p.modified compatible := by
  cases p with
  | mesi => exact ⟨_, mesi_owningLaws⟩
  | dragon => exact absurd rfl hp
  | mesif => exact ⟨_, mesif_owningLaws⟩
  | smart => exact ⟨_, smart_owningLaws⟩
  | moesi => exact ⟨_, moesi_owningLaws⟩

/-! ### One block -/

section
variable {R : ProtocolRules S} {modified : S} {compatible : S → S → Prop}
  (laws : OwningLaws R modified compatible)
include laws

theorem soleOwner_hit {copies : Fin n → S} (hc : Coherent compatible copies) {i : Fin n}
    (hv : copies i ≠ invalid) (hs : R.isShared (copies i) = false) :
    SoleOwner modified (Function.update copies i (R.writeHit (copies i))) i := by
  refine ⟨by rw [Function.update_self, laws.hit _ hv hs], ?_⟩
  intro j hj
  rw [Function.update_of_ne hj]
  exact laws.alone _ _ hv hs (hc (Ne.symm hj))

theorem soleOwner_broadcast (copies : Fin n → S) (r : Fin n) {type : BusTransactionType}
    (htype : type = .busRdx ∨ type = .busUpgr) :
    SoleOwner modified (broadcast copies r modified (snoopState R type)) r := by
  refine ⟨broadcast_self _ _ _ _, ?_⟩
  intro j hj
  rw [broadcast_of_ne _ hj]
  exact laws.invalidating.invalidates _ _ htype

/-- The transaction of a store, however stale the request was. -/
theorem soleOwner_granted {copies copies' : Fin n → S} {a : BlockAction n}
    (h : BlockStep R fillReady copies a copies') {r : Fin n} {type : BusTransactionType}
    (hg : a.granted = some (r, type)) (htype : type = .busRdx ∨ type = .busUpgr) :
    SoleOwner modified copies' r := by
  cases h with
  | upgrade r' own =>
    obtain ⟨rfl, rfl⟩ := Prod.mk.inj (Option.some.inj hg)
    rw [laws.upgrade]
    exact soleOwner_broadcast laws copies r' (.inr rfl)
  | fill r' type' fills own =>
    obtain ⟨rfl, rfl⟩ := Prod.mk.inj (Option.some.inj hg)
    have hrdx : type' = .busRdx := by
      rcases htype with h | h
      · exact h
      · rcases fills with h' | h' <;> simp [h'] at h
    subst hrdx
    rw [laws.fill]
    exact soleOwner_broadcast laws copies r' (.inl rfl)
  | _ => simp [BlockAction.granted] at hg

/-- A store that misses asks for BUS_RDX, or for BUS_UPGR. -/
theorem store_request_type {st : S} {type : BusTransactionType}
    (h : respond R true st = ⟨false, type⟩) : type = .busRdx ∨ type = .busUpgr := by
  rcases Simulator.respond_cases R true st with ⟨hr, -⟩ | ⟨hr, -⟩ | ⟨hr, -⟩
  · simp [hr] at h
  · rw [hr] at h
    exact .inr (ProtocolResponse.mk.inj h).2.symm
  · rw [hr, laws.miss] at h
    exact .inl (ProtocolResponse.mk.inj h).2.symm

end

/-! ### Stores of a run -/

namespace Simulator

/-- The step that completes a store leaves the writer's line MODIFIED and no other cache
with a valid line of the block. -/
theorem store_obtains_ownership (p : ProtocolName) (hp : p ≠ .dragon) (cfg : Config)
    (traces : Fin n → List TraceEntry)
    (later earlier : List (Move (Simulator p.State n) (Event n)))
    (m f : Move (Simulator p.State n) (Event n)) {s : Simulator p.State n} {i : Fin n}
    {entry : TraceEntry} (hr : (system cfg p.rules traces).Run (later ++ m :: earlier) s)
    (hc : CompletesStore cfg p.rules earlier m i entry f) :
    SoleOwner p.modified (m.after.machine.copies (cfg.geometry.block entry.val)) i := by
  obtain ⟨compatible, laws⟩ := p.owningLaws hp
  obtain ⟨hbefore, hstep⟩ := hr.before_move
  have htok := tokenInv_reached p.missFills hbefore.reached
  have hready := fillReady_reached p.missFills hbefore.reached
  obtain ⟨he, -, hfired⟩ := fired_of_step hstep
  cases hc with
  | hit label read store hit =>
    rw [label] at he hfired
    obtain ⟨hv, hs, hcopies⟩ := storeHit_copies htok he hfired read store hit
    rw [hcopies]
    exact soleOwner_hit laws (coherent_reached p.missFills laws.compat
      (fun s hs => fillReady_reached p.missFills hs) hbefore.reached _) hv hs
  | @grant req f granted core fetch read store =>
    subst core
    obtain ⟨f', entry', hf', hfetched⟩ :=
      requestsFetched_run p.missFills hbefore req (grantOf_mem granted)
    obtain rfl := Option.some.inj (fetch.symm.trans hf')
    obtain rfl := Option.some.inj (read.symm.trans hfetched.read)
    have htype := store_request_type laws (store ▸ hfetched.missed)
    obtain ⟨a, ha⟩ := actsOn_fired htok hready hfired (cfg.geometry.block req.addr)
    have hgranted : a.granted = some (req.coreId, req.type) := by
      rw [ha.granted, grantFor, granted, Option.bind_some, if_pos rfl]
    rw [← hfetched.addr]
    exact soleOwner_granted laws ha.step hgranted htype

/-- Core 1 obtains the block by an upgrade of a line that core 0 has invalidated. -/
theorem store_obtains_ownership_stale :
    ∃ (h : List (Move (Simulator MESIState 3) (Event 3)))
      (m f : Move (Simulator MESIState 3) (Event 3)),
      (system tinyConfig (ProtocolName.rules .mesi) racingStores).Run (m :: h) m.after ∧
      CompletesStore tinyConfig (ProtocolName.rules .mesi) h m 1 ⟨1, 0⟩ f ∧
      m.before.machine.state 1 (tinyConfig.geometry.block 0) = .invalid ∧
      SoleOwner MESIState.modified (m.after.machine.copies (tinyConfig.geometry.block 0)) 1 := by
  obtain ⟨h, m, hr, ht⟩ := exists_last_move tinyConfig (ProtocolName.rules .mesi) racingStores
    [.fetch 0 0, .busArbitration 0, .fetch 0 1, .fetch 0 2, .busRelease 101, .busArbitration 101,
      .coreUnblock 101 0, .fetch 101 0, .busRelease 104, .busArbitration 104, .coreUnblock 104 1,
      .fetch 104 1, .busRelease 205, .busArbitration 205, .busRelease 205, .busArbitration 205]
    (fun h (m : Move (Simulator MESIState 3) (Event 3)) =>
      (grantOf tinyConfig m).any (·.coreId == 1) &&
      (lastFetch h 1).any (fun f => (f.before.traces 1).head? == some ⟨1, 0⟩) &&
      m.before.machine.state 1 (tinyConfig.geometry.block 0) == .invalid) (by decide +kernel)
  rw [Bool.and_eq_true, Bool.and_eq_true] at ht
  obtain ⟨⟨hgrant, hfetch⟩, hinvalid⟩ := ht
  obtain ⟨req, hg, hcore⟩ := (Option.any_eq_true _ _).mp hgrant
  obtain ⟨f, hf, hread⟩ := (Option.any_eq_true _ _).mp hfetch
  have hc : CompletesStore tinyConfig (ProtocolName.rules .mesi) h m 1 ⟨1, 0⟩ f :=
    .grant hg (beq_iff_eq.mp hcore) hf (beq_iff_eq.mp hread) rfl
  have howner := store_obtains_ownership .mesi (by decide) tinyConfig racingStores [] h m f
    hr hc
  exact ⟨h, m, f, hr, hc, beq_iff_eq.mp hinvalid, howner⟩

end Simulator
end CoherenceFormal
