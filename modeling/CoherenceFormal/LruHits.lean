import CoherenceFormal.StackDistance
import CoherenceFormal.StatisticsLedger

/-!
# The hits of private blocks

Without sharing a valid line is never shared, so an access hits when its block is there, and
LRU decides that by the accesses of the core alone. The hit counter of a core is therefore a
function of its trace: neither the protocol nor the arbitration nor the other cores change it,
and neither more ways per set nor sets that divide the old ones lower it.
-/

namespace CoherenceFormal
open LineState Recency Snooping
set_option autoImplicit false

/-- How many of the accesses, newest first, find their block among the `assoc` most recent ones
of its set. -/
def lruHits (assoc : Nat) : List Block → Nat
  | [] => 0
  | b :: A => lruHits assoc A + if b ∈ lruSet assoc A b.set then 1 else 0

section
variable {f f' : Nat → Block}

/-- The distance to the last access of a block, counted in what its set's blocks are named by. -/
theorem mem_lruSet_map (hf : f.Injective) {assoc x : Nat} {A : List Nat} :
    f x ∈ lruSet assoc (A.map f) (f x).set ↔ x ∈ A ∧
      ((A.takeWhile (· ≠ x)).filter fun y => (f y).set = (f x).set).toFinset.card < assoc := by
  have hwhile : (A.map f).takeWhile (· ≠ f x) = (A.takeWhile (· ≠ x)).map f := by
    rw [List.takeWhile_map]
    simp only [Function.comp_def, ne_eq, hf.eq_iff]
  have himage (l : List Nat) : (l.map f).toFinset = l.toFinset.image f := by
    ext b
    simp
  rw [mem_lruSet_iff, List.mem_map_of_injective hf, hwhile, List.filter_map, himage,
    Finset.card_image_of_injective _ hf]
  rfl

/-- What LRU keeps it also keeps with more ways, in sets that divide its own. -/
theorem lruHits_mono (hf : f.Injective) (hf' : f'.Injective)
    (hsets : ∀ x y, (f' x).set = (f' y).set → (f x).set = (f y).set) {assoc assoc' : Nat}
    (h : assoc ≤ assoc') (A : List Nat) : lruHits assoc (A.map f) ≤ lruHits assoc' (A.map f') := by
  induction A with
  | nil => exact Nat.le_refl 0
  | cons x A ih =>
    have hkept : f x ∈ lruSet assoc (A.map f) (f x).set →
        f' x ∈ lruSet assoc' (A.map f') (f' x).set := by
      intro hx
      rw [mem_lruSet_map hf] at hx
      rw [mem_lruSet_map hf']
      refine ⟨hx.1, Nat.lt_of_le_of_lt ?_ (Nat.lt_of_lt_of_le hx.2 h)⟩
      apply Finset.card_le_card
      intro y hy
      simp only [List.mem_toFinset, List.mem_filter, decide_eq_true_eq] at hy ⊢
      exact ⟨hy.1, hsets y x hy.2⟩
    rw [List.map_cons, List.map_cons, lruHits, lruHits]
    by_cases hb : f x ∈ lruSet assoc (A.map f) (f x).set
    · rw [if_pos hb, if_pos (hkept hb)]
      omega
    · rw [if_neg hb]
      omega

end

/-! ### Lines that are never shared -/

variable {S : Type} [LineState S] {n : Nat}

/-- A core that is alone with a block never has a shared copy of it. -/
structure UnsharedLaws (R : ProtocolRules S) : Prop where
  invalid : R.isShared invalid = false
  write : ∀ st, st ≠ LineState.invalid → R.isShared st = false → R.isShared (R.writeHit st) = false
  upgrade : R.isShared (R.upgrState false) = false
  fill : ∀ type, R.isShared (R.fillState type false) = false

theorem mesi_unsharedLaws : UnsharedLaws mesi := ⟨rfl, by decide, by decide, by decide⟩

theorem smart_unsharedLaws : UnsharedLaws smart :=
  ⟨rfl, mesi_unsharedLaws.write, mesi_unsharedLaws.upgrade, mesi_unsharedLaws.fill⟩

theorem mesif_unsharedLaws : UnsharedLaws mesif := ⟨rfl, by decide, by decide, by decide⟩

theorem moesi_unsharedLaws : UnsharedLaws moesi := ⟨rfl, by decide, by decide, by decide⟩

theorem dragon_unsharedLaws : UnsharedLaws dragon := ⟨rfl, by decide, by decide, by decide⟩

theorem ProtocolName.unsharedLaws (p : ProtocolName) : UnsharedLaws p.rules := by
  cases p with
  | mesi => exact mesi_unsharedLaws
  | dragon => exact dragon_unsharedLaws
  | mesif => exact mesif_unsharedLaws
  | smart => exact smart_unsharedLaws
  | moesi => exact moesi_unsharedLaws

theorem unshared_blockStep {R : ProtocolRules S} (laws : UnsharedLaws R)
    {ready : BusTransactionType → S → Prop} {copies copies' : Fin n → S} {a : BlockAction n}
    (hstep : BlockStep R ready copies a copies')
    (hsole : ∀ r type, a.granted = some (r, type) → ∀ j, j ≠ r → copies j = invalid)
    (h : ∀ i, R.isShared (copies i) = false) (i : Fin n) : R.isShared (copies' i) = false := by
  have alone (r : Fin n) (hr : ∀ j, j ≠ r → copies j = invalid) : otherCopy copies r = false := by
    apply List.any_eq_false.mpr
    intro j _
    by_cases hj : j = r <;> simp [hj, hr]
  cases hstep with
  | silent => exact h i
  | store j valid unshared =>
    by_cases hij : i = j
    · subst hij
      rw [Function.update_self]
      exact laws.write _ valid unshared
    · rw [Function.update_of_ne hij]
      exact h i
  | evict j =>
    by_cases hij : i = j
    · rw [hij, Function.update_self]
      exact laws.invalid
    · rw [Function.update_of_ne hij]
      exact h i
  | upgrade r own =>
    have hr := hsole r _ rfl
    by_cases hir : i = r
    · rw [hir, broadcast_self, alone r hr]
      exact laws.upgrade
    · rw [broadcast_of_ne _ hir, hr i hir, snoopState_invalid]
      exact laws.invalid
  | fill r type fills own =>
    have hr := hsole r _ rfl
    by_cases hir : i = r
    · rw [hir, broadcast_self, alone r hr]
      exact laws.fill type
    · rw [broadcast_of_ne _ hir, hr i hir, snoopState_invalid]
      exact laws.invalid

namespace Simulator
variable {cfg : Config} {traces : Fin n → List TraceEntry} {p : ProtocolName}
  {h : List (Move (Simulator p.State n) (Event n))} {s s' : Simulator p.State n} {e : Event n}

theorem private_unshared (hns : NoSharing cfg traces)
    (hr : (system cfg p.rules traces).Reached s) (i : Fin n) (b : Block) :
    p.rules.isShared (s.machine.state i b) = false := by
  refine hr.invariant_of (J := (system cfg p.rules traces).Reached)
    (I := fun s => ∀ i, p.rules.isShared (s.machine.copies b i) = false)
    (fun s hs => hs) ?_ ?_ i
  · intro s hs i
    subst hs
    exact p.unsharedLaws.invalid
  · intro s e s' hstep hs hold i
    obtain ⟨-, -, hf⟩ := fired_of_step hstep
    obtain ⟨a, ha⟩ := actsOn_fired (tokenInv_reached p.missFills hs)
      (fillReady_reached p.missFills hs) hf b
    refine unshared_blockStep p.unsharedLaws ha.step ?_ hold i
    intro r type hg j hj
    obtain ⟨req, hgrant, rfl, rfl, -⟩ := grantFor_eq_some (ha.granted.symm.trans hg)
    have hinv := private_soleInv hns hs
    have hsole := hinv.sole hns (hinv.queue req (grantOf_mem hgrant)) j hj
    change s.machine.state j _ = invalid
    rw [Machine.state_eq_lineState, hsole]
    rfl

/-- An access finds its block valid when LRU still has it. -/
theorem private_valid_iff (hp : p ≠ .smart) (hns : NoSharing cfg traces)
    (hr : (system cfg p.rules traces).Run h s) {i : Fin n}
    (hidle : ∀ req ∈ s.busQueue, req.coreId ≠ i) (b : Block) :
    s.machine.state i b ≠ invalid ↔ b ∈ lruSet cfg.geometry.assoc (accesses cfg i h) b.set := by
  have hmoves : ∀ m ∈ h, LeavesOrder cfg i b.set m := fun m hm =>
    private_move hns (hr.move hm).1 i b.set
  obtain ⟨A, hA, hfollows⟩ := lruInv_run p.missFills (ProtocolName.lru hp) hr hmoves
  obtain rfl := hA.eq_accesses hidle
  rw [valid_iff_line (private_noInvalidLine hns hr.reached i b)]
  exact hfollows.mem_iff

theorem access_cacheHits {R : ProtocolRules S} (s : Simulator S n) (j : Fin n)
    (entry : TraceEntry) (i : Fin n) : ((s.access cfg R j entry).2.cStats i).cacheHits =
      (s.machine.cStats i).cacheHits := by
  obtain ⟨shared, hstats⟩ := access_cStats cfg R s j entry
  rw [hstats]
  by_cases hij : i = j
  · subst hij
    rw [Function.update_self]
    split <;> cases shared <;> cases entry.isWrite <;> rfl
  · rw [Function.update_of_ne hij]

/-- A move counts a hit of core `i` if it is an access that finds its block valid. -/
theorem hits_fired {R : ProtocolRules S} {s s' : Simulator S n} {e : Event n}
    (hunshared : ∀ i b, R.isShared (s.machine.state i b) = false)
    (hf : Fired cfg R (s.pop e) e s') (i : Fin n) :
    (s'.machine.cStats i).cacheHits = (s.machine.cStats i).cacheHits +
      if ∃ b ∈ accessOf cfg i ⟨s, e, s'⟩, s.machine.state i b ≠ invalid then 1 else 0 := by
  have quiet (hnone : accessOf cfg i ⟨s, e, s'⟩ = none)
      (hstats : (s'.machine.cStats i).cacheHits = (s.machine.cStats i).cacheHits) :
      (s'.machine.cStats i).cacheHits = (s.machine.cStats i).cacheHits +
        if ∃ b ∈ accessOf cfg i ⟨s, e, s'⟩, s.machine.state i b ≠ invalid then 1 else 0 := by
    simp [hnone, hstats]
  cases hf with
  | idle h => exact quiet rfl rfl
  | grant free first bus =>
    obtain ⟨received, sent, hstats⟩ := (handleBusTransaction_cStats bus).1 i
    refine quiet rfl ?_
    rw [granted, hstats]
    rfl
  | stalled blocked =>
    rw [pop_blocked] at blocked
    exact quiet (accessOf_idle (.inl blocked) i) rfl
  | exhausted running done =>
    rw [pop_traces] at done
    exact quiet (accessOf_idle (.inr done) i) rfl
  | @compute t j entry rest running read label =>
    rw [pop_traces] at read
    rw [pop_blocked] at running
    refine quiet (accessOf_compute running read label i) ?_
    by_cases hij : i = j
    · subst hij
      simp [computed, Machine.updStats]
    · simp [computed, Machine.updStats, hij]
  | @hit t j entry rest running read label resp =>
    rw [pop_traces] at read
    rw [pop_blocked] at running
    by_cases hij : i = j
    · subst hij
      have hvalid : s.machine.state i (cfg.geometry.block entry.val) ≠ invalid := by
        intro hdead
        rw [pop_machine, hdead] at resp
        simp [respond] at resp
      rw [accessOf_self running read label, if_pos ⟨_, rfl, hvalid⟩]
      simp [hit, Machine.updStats, access_cacheHits]
    · rw [accessOf_other hij]
      simp [hit, Machine.updStats, hij, access_cacheHits]
  | @miss t j entry rest running read label resp =>
    rw [pop_traces] at read
    rw [pop_blocked] at running
    by_cases hij : i = j
    · subst hij
      have hinvalid : s.machine.state i (cfg.geometry.block entry.val) = invalid := by
        by_contra hvalid
        rw [pop_machine] at resp
        simp [respond, hvalid, hunshared] at resp
      rw [accessOf_self running read label]
      simp [missed, Machine.updStats, access_cacheHits, hinvalid]
    · rw [accessOf_other hij]
      simp [missed, Machine.updStats, hij, access_cacheHits]
  | _ => exact quiet rfl rfl

theorem hits_run (hp : p ≠ .smart) (hns : NoSharing cfg traces)
    (hr : (system cfg p.rules traces).Run h s) (i : Fin n) :
    (s.machine.cStats i).cacheHits = lruHits cfg.geometry.assoc (accesses cfg i h) := by
  induction hr with
  | start hs =>
    subst hs
    rfl
  | @next h s s' e hr hs ih =>
    obtain ⟨he, -, hf⟩ := fired_of_step hs
    rw [hits_fired (private_unshared hns hr.reached) hf i, ih]
    cases hb : accessOf cfg i ⟨s, e, s'⟩ with
    | none =>
      rw [accesses_of_none hb]
      simp
    | some b =>
      have hidle : ∀ req ∈ s.busQueue, req.coreId ≠ i := by
        obtain ⟨entry, hentry, -⟩ := Option.map_eq_some_iff.mp hb
        obtain ⟨t, hfetch⟩ := fetch_of_executedBy (Option.filter_eq_some_iff.mp hentry).1
        rw [show e = .fetch t i from hfetch] at he
        intro req hreq
        exact Ne.symm ((tokenInv_reached p.missFills hr.reached).fetch_not_waiting he hreq)
      rw [accesses_of_some hb, lruHits]
      simp [private_valid_iff hp hns hr hidle]

/-- The blocks that a trace accesses, in order. -/
def traceBlocks (cfg : Config) (entries : List TraceEntry) : List Block :=
  (entries.filter (·.label ≠ 2)).map fun entry => cfg.geometry.block entry.val

omit [LineState S] in
theorem accesses_eq (cfg : Config) (i : Fin n) (h : List (Move (Simulator S n) (Event n))) :
    accesses cfg i h = (traceBlocks cfg (executed i h)).reverse := by
  induction h with
  | nil => rfl
  | cons m h ih =>
    have hexecuted : executed i (m :: h) = executed i h ++ (executedBy i m).toList := by
      rw [executed, List.reverse_cons, List.filterMap_append]
      cases hm : executedBy i m <;> simp [executed, hm]
    rw [hexecuted]
    cases hm : executedBy i m with
    | none =>
      rw [accesses_of_none (by simp [accessOf, hm]), ih]
      simp
    | some entry =>
      by_cases hlabel : entry.label = 2
      · rw [accesses_of_none (by simp [accessOf, hm, hlabel]), ih]
        simp [traceBlocks, hlabel]
      · have haccess : accessOf cfg i m = some (cfg.geometry.block entry.val) := by
          simp [accessOf, hm, hlabel]
        rw [accesses_of_some haccess, ih]
        simp [traceBlocks, hlabel]

/-- Without sharing the hits of a core are a function of its trace: those of an LRU cache that
the core has for itself. -/
theorem private_hits (p : ProtocolName) (hp : p ≠ .smart) (cfg : Config)
    (traces : Fin n → List TraceEntry) (hns : NoSharing cfg traces)
    {h : List (Move (Simulator p.State n) (Event n))} {s : Simulator p.State n}
    (hr : (system cfg p.rules traces).Run h s) (hend : s.ended = true) (i : Fin n) :
    (s.machine.cStats i).cacheHits =
      lruHits cfg.geometry.assoc (traceBlocks cfg (traces i)).reverse := by
  rw [hits_run hp hns hr i, accesses_eq, executed_of_ended p.missFills hr hend]

theorem private_hits_revisiting :
    ∃ (h : List (Move (Simulator DragonState 2) (Event 2))) (s : Simulator DragonState 2),
      NoSharing tinyConfig revisiting ∧
      (system tinyConfig (ProtocolName.rules .dragon) revisiting).Run h s ∧ s.ended = true ∧
      (s.machine.cStats 0).cacheHits = 1 := by
  have hns : NoSharing tinyConfig revisiting := by
    unfold NoSharing
    decide
  obtain ⟨h, s, hr, hend⟩ := exists_run tinyConfig (ProtocolName.rules .dragon) revisiting
    [.fetch 0 0, .busArbitration 0, .fetch 0 1, .busRelease 101, .busArbitration 101,
      .coreUnblock 101 0, .fetch 101 0, .busRelease 202, .busArbitration 202, .coreUnblock 202 1,
      .fetch 202 1, .busRelease 303, .coreUnblock 303 0, .fetch 303 0, .fetch 304 0]
    (fun _ s => s.ended) (by decide +kernel)
  refine ⟨h, s, hns, hr, hend, ?_⟩
  rw [private_hits .dragon (by decide) tinyConfig revisiting hns hr hend 0]
  decide

end Simulator

namespace Geometry
variable (g : Geometry)

/-- The place of the block with a given number. -/
def place (x : Nat) : Block := ⟨x &&& (g.numSets - 1), x >>> g.setBits⟩

theorem place_blockNumber (addr : Addr) : g.place (g.blockNumber addr) = g.block addr := by
  rw [block, tag_eq_shift]
  rfl

theorem place_injective : g.place.Injective := by
  intro x y hxy
  obtain ⟨hset, htag⟩ := Block.mk.inj hxy
  exact MaskShift.eq_of_mask_of_shift g.numSets_pos g.trailingZeros_setBits.dvd hset htag

end Geometry

/-- The second configuration has the same blocks, and its sets divide those of the first: its
mask keeps every bit that the other mask keeps. -/
structure RefinesSets (cfg cfg' : Config) : Prop where
  bsize : cfg.geometry.bsize = cfg'.geometry.bsize
  mask : (cfg.geometry.numSets - 1) &&& (cfg'.geometry.numSets - 1) = cfg.geometry.numSets - 1

namespace RefinesSets
variable {cfg cfg' : Config}

/-- For powers of two: at least as many sets. -/
theorem of_two_pow {a b : Nat} (hbsize : cfg.geometry.bsize = cfg'.geometry.bsize)
    (ha : cfg.geometry.numSets = 2 ^ a) (hb : cfg'.geometry.numSets = 2 ^ b) (hab : a ≤ b) :
    RefinesSets cfg cfg' := by
  refine ⟨hbsize, ?_⟩
  have hpos := Nat.two_pow_pos a
  have hle := Nat.pow_le_pow_right (n := 2) (by decide) hab
  rw [ha, hb]
  exact Nat.and_two_pow_sub_one_of_lt_two_pow (by omega)

variable (h : RefinesSets cfg cfg')
include h

theorem sets (x y : Nat) (hset : (cfg'.geometry.place x).set = (cfg'.geometry.place y).set) :
    (cfg.geometry.place x).set = (cfg.geometry.place y).set := by
  simp only [Geometry.place] at hset ⊢
  rw [← h.mask, Nat.and_comm (cfg.geometry.numSets - 1), ← Nat.and_assoc, ← Nat.and_assoc, hset]

theorem blockNumber (addr : Addr) :
    cfg.geometry.blockNumber addr = cfg'.geometry.blockNumber addr := by
  rw [Geometry.blockNumber, Geometry.blockNumber, Geometry.offsetBits, Geometry.offsetBits, h.bsize]

theorem noSharing {traces : Fin n → List TraceEntry} (hns : NoSharing cfg traces) :
    NoSharing cfg' traces := by
  unfold NoSharing at hns ⊢
  simpa only [h.blockNumber] using hns

end RefinesSets

/-- The numbers of the blocks that a trace accesses. -/
def blockNumbers (cfg : Config) (entries : List TraceEntry) : List Nat :=
  (entries.filter (·.label ≠ 2)).map fun entry => cfg.geometry.blockNumber entry.val

namespace Simulator

theorem traceBlocks_eq_map (cfg : Config) (entries : List TraceEntry) :
    traceBlocks cfg entries = (blockNumbers cfg entries).map cfg.geometry.place := by
  rw [traceBlocks, blockNumbers, List.map_map]
  apply List.map_congr_left
  intro entry _
  exact (cfg.geometry.place_blockNumber entry.val).symm

/-- More ways, and sets that divide the old ones, never mean fewer hits of private blocks,
whatever the two protocols and arbiters. -/
theorem more_capacity_no_fewer_hits (p p' : ProtocolName) (hp : p ≠ .smart) (hp' : p' ≠ .smart)
    (cfg cfg' : Config) (hsets : RefinesSets cfg cfg')
    (hassoc : cfg.geometry.assoc ≤ cfg'.geometry.assoc) (traces : Fin n → List TraceEntry)
    (hns : NoSharing cfg traces)
    {h : List (Move (Simulator p.State n) (Event n))} {s : Simulator p.State n}
    {h' : List (Move (Simulator p'.State n) (Event n))} {s' : Simulator p'.State n}
    (hr : (system cfg p.rules traces).Run h s) (hend : s.ended = true)
    (hr' : (system cfg' p'.rules traces).Run h' s') (hend' : s'.ended = true) (i : Fin n) :
    (s.machine.cStats i).cacheHits ≤ (s'.machine.cStats i).cacheHits ∧
      (s'.machine.cStats i).cacheMisses ≤ (s.machine.cStats i).cacheMisses := by
  have hnumbers : blockNumbers cfg' (traces i) = blockNumbers cfg (traces i) := by
    unfold blockNumbers
    simp only [hsets.blockNumber]
  have hhits : (s.machine.cStats i).cacheHits ≤ (s'.machine.cStats i).cacheHits := by
    rw [hits_run hp hns hr i, hits_run hp' (hsets.noSharing hns) hr' i, accesses_eq, accesses_eq,
      executed_of_ended p.missFills hr hend, executed_of_ended p'.missFills hr' hend',
      traceBlocks_eq_map, traceBlocks_eq_map, hnumbers, ← List.map_reverse, ← List.map_reverse]
    exact lruHits_mono cfg.geometry.place_injective cfg'.geometry.place_injective hsets.sets hassoc _
  refine ⟨hhits, ?_⟩
  -- both runs have made the same loads and stores
  have hwork : (s'.machine.cStats i).work = (s.machine.cStats i).work := by
    rw [(executedInv_run hr').work, (executedInv_run hr).work, executed_of_ended p'.missFills hr' hend',
      executed_of_ended p.missFills hr hend]
  simp only [Statistics.work, Prod.mk.injEq] at hwork
  have hall := ((ledger_reached p.missFills hr.reached).cores i).accesses
  have hall' := ((ledger_reached p'.missFills hr'.reached).cores i).accesses
  omega

/-- Four loads, the last of which comes back to the first block. -/
def threeBlocks (_ : Fin 1) : List TraceEntry := [⟨0, 0⟩, ⟨0, 4⟩, ⟨0, 8⟩, ⟨0, 0⟩]

/-- `tinyConfig` with two sets, and with reads preferred. -/
def twoSets : Config := ⟨true, ⟨16, 2, 4, Nat.succ_pos 1, Nat.succ_pos 3, by decide, by decide⟩⟩

/-- One set of two ways misses four times, two of them miss three times. -/
theorem more_capacity_no_fewer_hits_threeBlocks :
    ∃ (h : List (Move (Simulator MESIState 1) (Event 1))) (s : Simulator MESIState 1)
      (h' : List (Move (Simulator MOESIState 1) (Event 1))) (s' : Simulator MOESIState 1),
      (system tinyConfig (ProtocolName.rules .mesi) threeBlocks).Run h s ∧ s.ended = true ∧
      (system twoSets (ProtocolName.rules .moesi) threeBlocks).Run h' s' ∧ s'.ended = true ∧
      (s'.machine.cStats 0).cacheMisses = 3 ∧ 3 ≤ (s.machine.cStats 0).cacheMisses := by
  obtain ⟨h, s, hr, hend⟩ := exists_run tinyConfig (ProtocolName.rules .mesi) threeBlocks
    [.fetch 0 0, .busArbitration 0, .busRelease 101, .coreUnblock 101 0, .fetch 101 0,
      .busArbitration 101, .busRelease 202, .coreUnblock 202 0, .fetch 202 0, .busArbitration 202,
      .busRelease 303, .coreUnblock 303 0, .fetch 303 0, .busArbitration 303, .busRelease 404,
      .coreUnblock 404 0, .fetch 404 0]
    (fun _ s => s.ended) (by decide +kernel)
  obtain ⟨h', s', hr', ht'⟩ := exists_run twoSets (ProtocolName.rules .moesi) threeBlocks
    [.fetch 0 0, .busArbitration 0, .busRelease 101, .coreUnblock 101 0, .fetch 101 0,
      .busArbitration 101, .busRelease 202, .coreUnblock 202 0, .fetch 202 0, .busArbitration 202,
      .busRelease 303, .coreUnblock 303 0, .fetch 303 0, .fetch 304 0]
    (fun _ s => s.ended && (s.machine.cStats 0).cacheMisses == 3) (by decide +kernel)
  obtain ⟨hend', hmisses⟩ := Bool.and_eq_true_iff.mp ht'
  have hmisses := beq_iff_eq.mp hmisses
  have hns : NoSharing tinyConfig threeBlocks := fun i j hij => absurd (Subsingleton.elim i j) hij
  have hsets : RefinesSets tinyConfig twoSets :=
    .of_two_pow (a := 0) (b := 1) rfl (by decide) (by decide) (Nat.zero_le 1)
  have hmore := more_capacity_no_fewer_hits .mesi .moesi (by decide) (by decide) tinyConfig twoSets
    hsets (by decide) threeBlocks hns hr hend hr' hend' 0
  refine ⟨h, s, h', s', hr, hend, hr', hend', hmisses, ?_⟩
  rw [← hmisses]
  exact hmore.2

end Simulator
end CoherenceFormal
