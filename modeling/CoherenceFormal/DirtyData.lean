import CoherenceFormal.DragonInvariant

/-!
# Where dirty data goes

A block is dirty while some cache holds it in a state that an eviction would write
back. Stores, upgrades and write fills leave a dirty copy behind, so the last one can
only be lost to an eviction or to a read. MOESI and Dragon keep the supplier of a
read dirty. MESI, SMART and MESIF turn it SHARED, and no handler counts a writeback
for that.
-/

namespace CoherenceFormal
open LineState Snooping
set_option autoImplicit false

variable {S : Type} [LineState S] {n : Nat}

/-! ### One block -/

structure DirtyLaws (R : ProtocolRules S) (ready : BusTransactionType → S → Prop) : Prop where
  invalid : R.isDirty invalid = false
  store : ∀ st, R.isDirty st = true → R.isDirty (R.writeHit st) = true
  upgrade : ∀ shared, R.isDirty (R.upgrState shared) = true
  own : ∀ type st, type = .busRd ∨ type = .busRdx → ready type st → R.isDirty st = false
  write : ∀ st shared, ready .busRdx st → R.isDirty (R.fillState .busRdx shared) = true

/-- The last dirty copy is lost to an eviction, or to a read that cleans it. -/
theorem lost_blockStep {R : ProtocolRules S} {ready : BusTransactionType → S → Prop}
    (laws : DirtyLaws R ready) {copies copies' : Fin n → S} {a : BlockAction n}
    (h : BlockStep R ready copies a copies') {i : Fin n} (hd : R.isDirty (copies i) = true)
    (hn : ∀ j, R.isDirty (copies' j) = false) :
    a = .evict i ∨ ∃ r, i ≠ r ∧ a = .fill r .busRd ∧
      R.isDirty (snoopState R .busRd (copies i)) = false := by
  cases h with
  | silent =>
    have hi := hn i
    rw [hd] at hi
    simp at hi
  | store j valid unshared =>
    have hi := hn i
    by_cases hij : i = j
    · subst hij
      rw [Function.update_self, laws.store _ hd] at hi
      simp at hi
    · rw [Function.update_of_ne hij, hd] at hi
      simp at hi
  | evict j =>
    by_cases hij : i = j
    · exact .inl (by rw [hij])
    · have hi := hn i
      rw [Function.update_of_ne hij, hd] at hi
      simp at hi
  | upgrade r own =>
    have hr := hn r
    rw [broadcast_self, laws.upgrade] at hr
    simp at hr
  | fill r type fills own =>
    have hir : i ≠ r := by
      rintro rfl
      rw [laws.own type _ fills own] at hd
      simp at hd
    rcases fills with rfl | rfl
    · have hi := hn i
      rw [broadcast_of_ne _ hir] at hi
      exact .inr ⟨r, hir, rfl, hi⟩
    · have hr := hn r
      rw [broadcast_self, laws.write _ _ own] at hr
      simp at hr

theorem mesi_dirtyLaws : DirtyLaws mesi fillReady :=
  ⟨rfl, by decide, by decide, by decide, by decide⟩

theorem smart_dirtyLaws : DirtyLaws smart fillReady :=
  ⟨rfl, mesi_dirtyLaws.store, mesi_dirtyLaws.upgrade, mesi_dirtyLaws.own, mesi_dirtyLaws.write⟩

theorem mesif_dirtyLaws : DirtyLaws mesif fillReady :=
  ⟨rfl, by decide, by decide, by decide, by decide⟩

theorem moesi_dirtyLaws : DirtyLaws moesi fillReady :=
  ⟨rfl, by decide, by decide, by decide, by decide⟩

theorem dragon_dirtyLaws : DirtyLaws dragon DragonProtocol.ready :=
  ⟨rfl, by decide, by decide, by decide, by decide⟩

theorem moesi_reads_keep_dirty : ∀ st, moesi.isDirty st = true →
    moesi.isDirty (snoopState moesi .busRd st) = true := by decide

theorem dragon_reads_keep_dirty : ∀ st, dragon.isDirty st = true →
    dragon.isDirty (snoopState dragon .busRd st) = true := by decide

/-- A BUS_RD leaves no dirty copy of its block. -/
structure CleaningReads (R : ProtocolRules S) : Prop where
  snoop : ∀ st, R.isDirty (snoopState R .busRd st) = false
  fill : ∀ shared, R.isDirty (R.fillState .busRd shared) = false

theorem mesi_cleaningReads : CleaningReads mesi := ⟨by decide, by decide⟩

theorem smart_cleaningReads : CleaningReads smart :=
  ⟨mesi_cleaningReads.snoop, mesi_cleaningReads.fill⟩

theorem mesif_cleaningReads : CleaningReads mesif := ⟨by decide, by decide⟩

theorem MESIProtocol.dirty_alone : ∀ a c, MESIProtocol.tolerates a c = true →
    mesi.isDirty a = true → mesi.isDirty c = false := by decide

theorem MESIFProtocol.dirty_alone : ∀ a c, MESIFProtocol.tolerates a c = true →
    mesif.isDirty a = true → mesif.isDirty c = false := by decide

/-! ### Steps of the simulator -/

/-- Some cache holds the block in a state that an eviction writes back. -/
def Machine.Dirty (R : ProtocolRules S) (m : Machine S n) (b : Block) : Prop :=
  ∃ i, R.isDirty (m.state i b) = true

instance (R : ProtocolRules S) (m : Machine S n) (b : Block) : Decidable (m.Dirty R b) :=
  inferInstanceAs (Decidable (∃ _, _))

namespace Simulator

variable {cfg : Config} {R : ProtocolRules S} {ready : BusTransactionType → S → Prop}
  {s s' : Simulator S n} {e : Event n}

/-- The move grants a fill that evicts block `b` from a cache that holds it dirty. -/
def EvictsDirty (cfg : Config) (R : ProtocolRules S) (m : Move (Simulator S n) (Event n))
    (b : Block) (req : BusRequest n) : Prop :=
  grantOf cfg m = some req ∧ (req.type = .busRd ∨ req.type = .busRdx) ∧
    m.before.machine.victim R cfg.geometry req.coreId req.addr = some b ∧
    R.isDirty (m.before.machine.state req.coreId b) = true

/-- The move grants a read of block `b`, which cleans the dirty copy of core `i`. -/
def CleansOnRead (cfg : Config) (R : ProtocolRules S) (m : Move (Simulator S n) (Event n))
    (b : Block) (req : BusRequest n) (i : Fin n) : Prop :=
  grantOf cfg m = some req ∧ req.type = .busRd ∧ b = cfg.geometry.block req.addr ∧
    i ≠ req.coreId ∧ R.isDirty (m.before.machine.state i b) = true ∧
    R.isDirty (snoopState R .busRd (m.before.machine.state i b)) = false

theorem lost_fired (laws : DirtyLaws R ready) (htok : s.TokenInv)
    (hready : s.RequestsReady cfg ready) (hf : Fired cfg R (s.pop e) e s') {b : Block}
    (hd : s.machine.Dirty R b) (hn : ¬ s'.machine.Dirty R b) :
    (∃ req, EvictsDirty cfg R ⟨s, e, s'⟩ b req) ∨
      ∃ req i, CleansOnRead cfg R ⟨s, e, s'⟩ b req i := by
  obtain ⟨i, hi⟩ := hd
  have hclean (j : Fin n) : R.isDirty (s'.machine.state j b) = false := by
    by_contra hj
    exact hn ⟨j, by simpa using hj⟩
  obtain ⟨a, ha⟩ := actsOn_fired htok hready hf b
  rcases lost_blockStep laws ha.step hi hclean with rfl | ⟨r, hir, rfl, hcleaned⟩
  · obtain ⟨req, hg, rfl, hu, hv⟩ := ha.evicted i rfl
    have htype : req.type = .busRd ∨ req.type = .busRdx := by
      rcases htok.types req (grantOf_mem hg) with h | h | h
      · exact .inl h
      · exact .inr h
      · exact absurd h hu
    exact .inl ⟨req, hg, htype, hv, hi⟩
  · obtain ⟨req, hg, hb, rfl, htype⟩ := grantFor_eq_some ha.granted.symm
    exact .inr ⟨req, i, hg, htype, hb, hir, hi, hcleaned⟩

theorem EvictsDirty.fill {b : Block} {req : BusRequest n} (htok : s.TokenInv)
    (hf : Fired cfg R (s.pop e) e s') (h : EvictsDirty cfg R ⟨s, e, s'⟩ b req) :
    FillSpec R cfg.geometry s.machine req.coreId req.type req.addr s'.machine := by
  obtain ⟨hg, htype, -⟩ := h
  rcases granted_spec htok hf hg with ⟨hu, -⟩ | ⟨-, hspec⟩
  · exact absurd hu (BusTransactionType.ne_busUpgr_of_fill htype)
  · exact hspec

theorem EvictsDirty.victimDirty {m : Move (Simulator S n) (Event n)} {b : Block}
    {req : BusRequest n} (h : EvictsDirty cfg R m b req) :
    m.before.machine.victimDirty R cfg.geometry req.coreId req.addr = true := by
  obtain ⟨-, -, hv, hd⟩ := h
  rw [Machine.victimDirty, hv]
  exact hd

/-- The block that an eviction takes is not the one that is filled. -/
theorem EvictsDirty.ne_requested (laws : DirtyLaws R ready) (hready : s.RequestsReady cfg ready)
    {b : Block} {req : BusRequest n} (h : EvictsDirty cfg R ⟨s, e, s'⟩ b req) :
    b ≠ cfg.geometry.block req.addr := by
  obtain ⟨hg, htype, -, hd⟩ := h
  rintro rfl
  have hown := laws.own _ _ htype (hready req (grantOf_mem hg))
  change R.isDirty (s.machine.state req.coreId _) = true at hd
  rw [hown] at hd
  simp at hd

theorem EvictsDirty.removed_iff (laws : DirtyLaws R ready) (htok : s.TokenInv)
    (hready : s.RequestsReady cfg ready) (hf : Fired cfg R (s.pop e) e s') {b : Block}
    {req : BusRequest n} (h : EvictsDirty cfg R ⟨s, e, s'⟩ b req) (j : Fin n) (c : Block) :
    (s.machine.line j c).isSome = true ∧ s'.machine.line j c = none ↔
      j = req.coreId ∧ c = b := by
  have hne := h.ne_requested laws hready
  have hspec := h.fill htok hf
  obtain ⟨-, -, hv, hd⟩ := h
  change s.machine.victim R cfg.geometry req.coreId req.addr = some b at hv
  change R.isDirty (s.machine.state req.coreId b) = true at hd
  constructor
  · rintro ⟨hsome, hnone⟩
    rw [hspec.lines, hv] at hnone
    by_cases hc : c = cfg.geometry.block req.addr
    · by_cases hj : j = req.coreId <;> simp_all
    · by_cases hjc : j = req.coreId ∧ b = c
      · exact ⟨hjc.1, hjc.2.symm⟩
      · simp [hc, hjc] at hnone
        simp [hnone] at hsome
  · rintro ⟨rfl, rfl⟩
    constructor
    · by_contra hnone
      rw [Machine.state_eq, Option.not_isSome_iff_eq_none.mp hnone] at hd
      simp [laws.invalid] at hd
    · rw [hspec.lines, if_neg hne, if_pos ⟨rfl, hv⟩]

theorem dirty_kept_or_evicted (laws : DirtyLaws R ready)
    (keeps : ∀ st, R.isDirty st = true → R.isDirty (snoopState R .busRd st) = true)
    (htok : s.TokenInv) (hready : s.RequestsReady cfg ready) (hf : Fired cfg R (s.pop e) e s')
    {b : Block} (hd : s.machine.Dirty R b) :
    s'.machine.Dirty R b ∨ ∃ req, EvictsDirty cfg R ⟨s, e, s'⟩ b req := by
  by_cases hkept : s'.machine.Dirty R b
  · exact .inl hkept
  · right
    rcases lost_fired laws htok hready hf hd hkept with hev | ⟨req, i, -, -, -, -, hi, hcleaned⟩
    · exact hev
    · rw [keeps _ hi] at hcleaned
      simp at hcleaned

/-- Dirty data moves between caches and leaves them only by a counted eviction. -/
theorem dirty_kept_or_written_back (p : ProtocolName) (hp : p = .moesi ∨ p = .dragon)
    (cfg : Config) (traces : Fin n → List TraceEntry) {s s' : Simulator p.State n} {e : Event n}
    (hr : (system cfg p.rules traces).Reached s)
    (hstep : (system cfg p.rules traces).step s e s') (b : Block)
    (hd : s.machine.Dirty p.rules b) :
    s'.machine.Dirty p.rules b ∨ ∃ req, grantOf cfg ⟨s, e, s'⟩ = some req ∧
      s.machine.victim p.rules cfg.geometry req.coreId req.addr = some b ∧
      (∀ j c, (s.machine.line j c).isSome = true ∧ s'.machine.line j c = none ↔
        j = req.coreId ∧ c = b) ∧
      s'.machine.gStats.busWritebacks = s.machine.gStats.busWritebacks + 1 := by
  obtain ⟨-, -, hf⟩ := fired_of_step hstep
  have htok := tokenInv_reached p.missFills hr
  obtain ⟨ready, laws, keeps, hready⟩ : ∃ ready, DirtyLaws p.rules ready ∧
      (∀ st, p.rules.isDirty st = true → p.rules.isDirty (snoopState p.rules .busRd st) = true) ∧
      s.RequestsReady cfg ready := by
    rcases hp with rfl | rfl
    · exact ⟨fillReady, moesi_dirtyLaws, moesi_reads_keep_dirty, fillReady_reached moesi_missFills hr⟩
    · exact ⟨_, dragon_dirtyLaws, dragon_reads_keep_dirty, dragon_ready_reached hr⟩
  rcases dirty_kept_or_evicted laws keeps htok hready hf hd with hkept | ⟨req, hev⟩
  · exact .inl hkept
  · have hspec := hev.fill htok hf
    have hvict := hev.victimDirty
    refine .inr ⟨req, hev.1, hev.2.2.1, hev.removed_iff laws htok hready hf, ?_⟩
    change s.machine.victimDirty _ _ _ _ = true at hvict
    rw [hspec.writebacks, hvict, if_pos rfl]

/-- A store and two loads that fill the two ways of a set and then evict the store. -/
def storeThenLoads (_ : Fin 1) : List TraceEntry := [⟨1, 0⟩, ⟨0, 4⟩, ⟨0, 8⟩]

def storeThenLoadsEvents : List (Event 1) :=
  [.fetch 0 0, .busArbitration 0, .busRelease 101, .coreUnblock 101 0, .fetch 101 0,
    .busArbitration 101, .busRelease 202, .coreUnblock 202 0, .fetch 202 0, .busArbitration 202]

theorem dirty_kept_or_written_back_evicted :
    ∃ (h : List (Move (Simulator MOESIState 1) (Event 1)))
      (m : Move (Simulator MOESIState 1) (Event 1)),
      (system tinyConfig (ProtocolName.rules .moesi) storeThenLoads).Run (m :: h) m.after ∧
      m.before.machine.Dirty (ProtocolName.rules .moesi) ⟨0, 0⟩ ∧
      ¬ m.after.machine.Dirty (ProtocolName.rules .moesi) ⟨0, 0⟩ ∧
      m.after.machine.gStats.busWritebacks = m.before.machine.gStats.busWritebacks + 1 := by
  obtain ⟨h, m, hr, ht⟩ := exists_last_move tinyConfig (ProtocolName.rules .moesi) storeThenLoads
    storeThenLoadsEvents
    (fun _ m => decide (m.before.machine.Dirty (ProtocolName.rules .moesi) ⟨0, 0⟩) &&
      !decide (m.after.machine.Dirty (ProtocolName.rules .moesi) ⟨0, 0⟩)) (by decide +kernel)
  simp only [Bool.and_eq_true, decide_eq_true_eq, Bool.not_eq_true', decide_eq_false_iff_not] at ht
  obtain ⟨hd, hn⟩ := ht
  refine ⟨h, m, hr, hd, hn, ?_⟩
  cases hr with
  | next hr hstep =>
    rcases dirty_kept_or_written_back .moesi (.inl rfl) _ _ hr.reached hstep ⟨0, 0⟩ hd with
      hkept | ⟨req, -, -, -, hwb⟩
    · exact absurd hkept hn
    · exact hwb

/-! ### Reads that clean -/

/-- The last dirty copy of `b` disappears in the move. -/
def Lost (R : ProtocolRules S) (m : Move (Simulator S n) (Event n)) (b : Block) : Prop :=
  m.before.machine.Dirty R b ∧ ¬ m.after.machine.Dirty R b

/-- Every block lost in the move has a writeback of its own: the counter goes up by
one, a block moves to memory besides the one that is filled, and no other block is
lost. -/
def LossesWrittenBack (cfg : Config) (R : ProtocolRules S)
    (m : Move (Simulator S n) (Event n)) : Prop :=
  ∀ b, Lost R m b →
    m.after.machine.gStats.busWritebacks = m.before.machine.gStats.busWritebacks + 1 ∧
    m.after.machine.gStats.totalDataTrafficBytes =
      m.before.machine.gStats.totalDataTrafficBytes + cfg.geometry.bsize + cfg.geometry.bsize ∧
    ∀ b', Lost R m b' → b' = b

/-- The move grants a BUS_RD for a block that another cache holds dirty. -/
def readsDirty (cfg : Config) (R : ProtocolRules S) (m : Move (Simulator S n) (Event n)) : Bool :=
  (grantOf cfg m).any fun req => req.type == .busRd && (List.finRange n).any fun i =>
    i != req.coreId && R.isDirty (m.before.machine.state i (cfg.geometry.block req.addr))

theorem readsDirty_eq_true {m : Move (Simulator S n) (Event n)} :
    readsDirty cfg R m = true ↔ ∃ req, grantOf cfg m = some req ∧ req.type = .busRd ∧
      ∃ i, i ≠ req.coreId ∧
        R.isDirty (m.before.machine.state i (cfg.geometry.block req.addr)) = true := by
  simp [readsDirty, Option.any_eq_true]

/-- A granted BUS_RD for a dirty block loses it. -/
theorem lost_of_read (hclean : CleaningReads R) (htok : s.TokenInv)
    (hf : Fired cfg R (s.pop e) e s') {req : BusRequest n}
    (hg : grantOf cfg ⟨s, e, s'⟩ = some req) (htype : req.type = .busRd) {i : Fin n}
    (hd : R.isDirty (s.machine.state i (cfg.geometry.block req.addr)) = true) :
    Lost R ⟨s, e, s'⟩ (cfg.geometry.block req.addr) := by
  refine ⟨⟨i, hd⟩, ?_⟩
  rintro ⟨j, hj⟩
  rcases granted_spec htok hf hg with ⟨hu, -⟩ | ⟨-, hspec⟩
  · simp [htype] at hu
  · have hcopies := congrFun (hspec.copies (cfg.geometry.block req.addr)) j
    rw [if_pos rfl, htype] at hcopies
    change R.isDirty (s'.machine.copies _ j) = true at hj
    rw [hcopies] at hj
    by_cases hjr : j = req.coreId
    · rw [hjr, broadcast_self, hclean.fill] at hj
      simp at hj
    · rw [broadcast_of_ne _ hjr, hclean.snoop] at hj
      simp at hj

/-- A block with one dirty copy is lost when that copy is evicted. -/
theorem lost_of_evicts (laws : DirtyLaws R ready) (htok : s.TokenInv)
    (hready : s.RequestsReady cfg ready) (hf : Fired cfg R (s.pop e) e s') {b : Block}
    {req : BusRequest n} (h : EvictsDirty cfg R ⟨s, e, s'⟩ b req)
    (hone : ∀ j, j ≠ req.coreId → R.isDirty (s.machine.state j b) = false) :
    Lost R ⟨s, e, s'⟩ b := by
  refine ⟨⟨req.coreId, h.2.2.2⟩, ?_⟩
  rintro ⟨j, hj⟩
  have hcopies := congrFun ((h.fill htok hf).copies b) j
  rw [if_neg (h.ne_requested laws hready), if_pos h.2.2.1] at hcopies
  change R.isDirty (s'.machine.copies b j) = true at hj
  rw [hcopies] at hj
  by_cases hjr : j = req.coreId
  · rw [hjr, Function.update_self, laws.invalid] at hj
    simp at hj
  · rw [Function.update_of_ne hjr] at hj
    have hfalse := hone j hjr
    change R.isDirty (s.machine.copies b j) = false at hfalse
    rw [hfalse] at hj
    simp at hj

theorem lossesWrittenBack_of_not_readsDirty (laws : DirtyLaws R ready) (htok : s.TokenInv)
    (hready : s.RequestsReady cfg ready) (hf : Fired cfg R (s.pop e) e s')
    (hno : readsDirty cfg R ⟨s, e, s'⟩ = false) : LossesWrittenBack cfg R ⟨s, e, s'⟩ := by
  have evicted (b : Block) (hb : Lost R ⟨s, e, s'⟩ b) :
      ∃ req, EvictsDirty cfg R ⟨s, e, s'⟩ b req := by
    rcases lost_fired laws htok hready hf hb.1 hb.2 with
      hev | ⟨req, i, hg, htype, rfl, hne, hd, -⟩
    · exact hev
    · have hread := readsDirty_eq_true.mpr ⟨req, hg, htype, i, hne, hd⟩
      rw [hno] at hread
      simp at hread
  intro b hb
  obtain ⟨req, hev⟩ := evicted b hb
  have hspec := hev.fill htok hf
  have hvict := hev.victimDirty
  change s.machine.victimDirty _ _ _ _ = true at hvict
  refine ⟨?_, ?_, ?_⟩
  · rw [hspec.writebacks, hvict, if_pos rfl]
  · rw [hspec.traffic, hvict, if_pos rfl]
  · intro b' hb'
    obtain ⟨req', hev'⟩ := evicted b' hb'
    obtain rfl := Option.some.inj (hev.1.symm.trans hev'.1)
    exact Option.some.inj (hev'.2.2.1.symm.trans hev.2.2.1)

theorem not_lossesWrittenBack_of_readsDirty (laws : DirtyLaws R ready) (hclean : CleaningReads R)
    (htok : s.TokenInv) (hready : s.RequestsReady cfg ready) (hf : Fired cfg R (s.pop e) e s')
    (hone : ∀ b i j, i ≠ j → R.isDirty (s.machine.state i b) = true →
      R.isDirty (s.machine.state j b) = false)
    (hread : readsDirty cfg R ⟨s, e, s'⟩ = true) : ¬ LossesWrittenBack cfg R ⟨s, e, s'⟩ := by
  intro hall
  obtain ⟨req, hg, htype, i, hne, hd⟩ := readsDirty_eq_true.mp hread
  obtain ⟨hwb, -, honly⟩ := hall _ (lost_of_read hclean htok hf hg htype hd)
  rcases granted_spec htok hf hg with ⟨hu, -⟩ | ⟨hfill, hspec⟩
  · simp [htype] at hu
  · -- the counter can only have moved for the requester's own victim
    rw [hspec.writebacks] at hwb
    have hvict : s.machine.victimDirty R cfg.geometry req.coreId req.addr = true := by
      by_contra hvict
      simp [hvict] at hwb
    obtain ⟨v, hv, hvd⟩ := (Option.any_eq_true _ _).mp hvict
    have hev : EvictsDirty cfg R ⟨s, e, s'⟩ v req := ⟨hg, hfill, hv, hvd⟩
    have hlost := lost_of_evicts laws htok hready hf hev
      fun j hj => hone v req.coreId j (Ne.symm hj) hvd
    exact hev.ne_requested laws hready (honly v hlost)

/-- Every block that loses its last MODIFIED copy in a step is written back in it,
exactly when the step is not the grant of a BUS_RD for a block that another cache
holds MODIFIED. -/
theorem losses_written_back_iff (p : ProtocolName) (hp : p = .mesi ∨ p = .smart ∨ p = .mesif)
    (cfg : Config) (traces : Fin n → List TraceEntry) {s s' : Simulator p.State n} {e : Event n}
    (hr : (system cfg p.rules traces).Reached s)
    (hstep : (system cfg p.rules traces).step s e s') :
    LossesWrittenBack cfg p.rules ⟨s, e, s'⟩ ↔ readsDirty cfg p.rules ⟨s, e, s'⟩ = false := by
  obtain ⟨-, -, hf⟩ := fired_of_step hstep
  have htok := tokenInv_reached p.missFills hr
  have hready := fillReady_reached p.missFills hr
  obtain ⟨laws, hclean, hone⟩ : DirtyLaws p.rules fillReady ∧ CleaningReads p.rules ∧
      ∀ b i j, i ≠ j → p.rules.isDirty (s.machine.state i b) = true →
        p.rules.isDirty (s.machine.state j b) = false := by
    rcases hp with rfl | rfl | rfl
    · exact ⟨mesi_dirtyLaws, mesi_cleaningReads, fun b i j hij =>
        MESIProtocol.dirty_alone _ _ (mutual_reached mesi_missFills mesi_compatLaws hr b hij)⟩
    · exact ⟨smart_dirtyLaws, smart_cleaningReads, fun b i j hij =>
        MESIProtocol.dirty_alone _ _ (mutual_reached smart_missFills smart_compatLaws hr b hij)⟩
    · exact ⟨mesif_dirtyLaws, mesif_cleaningReads, fun b i j hij =>
        MESIFProtocol.dirty_alone _ _ (mutual_reached mesif_missFills mesif_compatLaws hr b hij)⟩
  constructor
  · intro hall
    by_contra hread
    exact not_lossesWrittenBack_of_readsDirty laws hclean htok hready hf hone
      (by simpa using hread) hall
  · exact lossesWrittenBack_of_not_readsDirty laws htok hready hf

theorem losses_written_back_evicted :
    ∃ (h : List (Move (Simulator MESIState 1) (Event 1)))
      (m : Move (Simulator MESIState 1) (Event 1)),
      (system tinyConfig (ProtocolName.rules .mesi) storeThenLoads).Run (m :: h) m.after ∧
      Lost (ProtocolName.rules .mesi) m ⟨0, 0⟩ ∧
      LossesWrittenBack tinyConfig (ProtocolName.rules .mesi) m := by
  obtain ⟨h, m, hr, ht⟩ := exists_last_move tinyConfig (ProtocolName.rules .mesi) storeThenLoads
    storeThenLoadsEvents
    (fun _ m => decide (m.before.machine.Dirty (ProtocolName.rules .mesi) ⟨0, 0⟩) &&
      !decide (m.after.machine.Dirty (ProtocolName.rules .mesi) ⟨0, 0⟩) &&
      !readsDirty tinyConfig (ProtocolName.rules .mesi) m) (by decide +kernel)
  simp only [Bool.and_eq_true, decide_eq_true_eq, Bool.not_eq_true', decide_eq_false_iff_not] at ht
  obtain ⟨hlost, hread⟩ := ht
  refine ⟨h, m, hr, hlost, ?_⟩
  cases hr with
  | next hr hstep =>
    exact (losses_written_back_iff .mesi (.inl rfl) _ _ hr.reached hstep).mpr hread

/-- Core 1 reads the block that core 0 has modified: both copies end SHARED, and no
writeback is counted. -/
theorem modified_copy_dropped :
    ∃ (h : List (Move (Simulator MESIState 2) (Event 2)))
      (m : Move (Simulator MESIState 2) (Event 2)),
      (system tinyConfig mesi storeAndLoad).Run (m :: h) m.after ∧
      Lost mesi m ⟨0, 0⟩ ∧ (∀ i, m.after.machine.state i ⟨0, 0⟩ = .shared) ∧
      m.after.machine.gStats.busWritebacks = m.before.machine.gStats.busWritebacks := by
  obtain ⟨h, m, hr, ht⟩ := exists_last_move tinyConfig mesi storeAndLoad
    [.fetch 0 0, .busArbitration 0, .fetch 0 1, .busRelease 101, .busArbitration 101]
    (fun _ m => decide (m.before.machine.Dirty mesi ⟨0, 0⟩) &&
      !decide (m.after.machine.Dirty mesi ⟨0, 0⟩) &&
      decide (∀ i, m.after.machine.state i ⟨0, 0⟩ = .shared) &&
      m.after.machine.gStats.busWritebacks == m.before.machine.gStats.busWritebacks)
    (by decide +kernel)
  simp only [Bool.and_eq_true, beq_iff_eq, decide_eq_true_eq, Bool.not_eq_true',
    decide_eq_false_iff_not] at ht
  obtain ⟨⟨hlost, hshared⟩, hwb⟩ := ht
  exact ⟨h, m, hr, hlost, hshared, hwb⟩

end Simulator
end CoherenceFormal
