import CoherenceFormal.Calls
import CoherenceFormal.Shared.Lockstep

/-!
# MESIF and MOESI against MESI

Two protocols stay in step when the states of one map to the states of the other in
every branch of the handlers. `Refines` lists what that takes; the caches then agree
up to the map, and the statistics agree but for what the laws leave open: fewer
cache-to-cache transfers, and a writeback for each evicted line that only the first
protocol takes for dirty.
-/

namespace CoherenceFormal
open LineState FiniteMap
set_option autoImplicit false

variable {S T : Type}

def CacheLine.map (φ : S → T) (line : CacheLine S) : CacheLine T := ⟨line.tag, φ line.state⟩

/-! ### Sets and caches in step -/

/-- The same recency list, and the same lines up to `φ`. -/
structure CacheSet.InStep (φ : S → T) (set : CacheSet S) (set' : CacheSet T) : Prop where
  lruOrder : set.lruOrder = set'.lruOrder
  lookup : ∀ tag, set'.lines.lookup tag = (set.lines.lookup tag).map (CacheLine.map φ)

namespace CacheSet.InStep
variable {φ : S → T} {set : CacheSet S} {set' : CacheSet T}

theorem size_eq (h : InStep φ set set') : size set.lines = size set'.lines := by
  have hkeys : set.lines.keys = set'.lines.keys := by
    ext tag
    rw [Finmap.mem_keys, Finmap.mem_keys, ← Finmap.lookup_isSome, ← Finmap.lookup_isSome,
      h.lookup, Option.isSome_map]
  rw [size, size, hkeys]

theorem find (h : InStep φ set set') (tag : Nat) :
    InStep φ (set.find tag).2 (set'.find tag).2 := by
  unfold CacheSet.find
  rw [h.lookup tag]
  cases set.lines.lookup tag with
  | none => exact h
  | some line => exact ⟨by simp [h.lruOrder], h.lookup⟩

theorem setState (h : InStep φ set set') (tag : Nat) (st : S) :
    InStep φ (set.setState tag st) (set'.setState tag (φ st)) := by
  refine ⟨h.lruOrder, ?_⟩
  intro a
  simp only [CacheSet.setState, lookup_modify, h.lookup]
  split
  · cases set.lines.lookup a <;> rfl
  · rfl

variable [LineState S] [LineState T]

theorem install (h : InStep φ set set') (hinv : φ invalid = invalid) (tag : Nat) :
    InStep φ (set.install tag) (set'.install tag) := by
  refine ⟨by simp [CacheSet.install, h.lruOrder], ?_⟩
  intro a
  simp only [CacheSet.install, lookup_insert_eq, h.lookup]
  split
  · simp [CacheLine.map, hinv]
  · rfl

theorem evictAt (h : InStep φ set set') (hinv : φ invalid = invalid) (tag pos : Nat) :
    Option.Rel (fun x y => InStep φ x.1 y.1 ∧ y.2 = x.2.map (CacheLine.map φ))
      (set.evictAt tag pos) (set'.evictAt tag pos) := by
  unfold CacheSet.evictAt
  rw [h.lruOrder]
  cases set'.lruOrder[pos]? with
  | none => exact .none
  | some victim =>
    apply Option.Rel.some
    constructor
    · apply install _ hinv
      refine ⟨rfl, ?_⟩
      intro a
      simp only [lookup_erase_eq, h.lookup]
      split <;> rfl
    · change some ((set'.lines.lookup victim).getD blankLine) =
        some (CacheLine.map φ ((set.lines.lookup victim).getD blankLine))
      rw [h.lookup]
      cases set.lines.lookup victim with
      | none => simp [blankLine, CacheLine.map, hinv]
      | some line => rfl

theorem allocate (h : InStep φ set set') (hinv : φ invalid = invalid) {r : Replacement S}
    {r' : Replacement T} (hpos : r.victimPos set = r'.victimPos set') (assoc tag : Nat) :
    Option.Rel (fun x y => InStep φ x.1 y.1 ∧ y.2 = x.2.map (CacheLine.map φ))
      (r.allocate assoc set tag) (r'.allocate assoc set' tag) := by
  rw [r.allocate_eq, r'.allocate_eq, h.size_eq, hpos]
  split
  · exact h.evictAt hinv tag _
  · exact .some ⟨h.install hinv tag, rfl⟩

end CacheSet.InStep

def Cache.InStep (φ : S → T) (cache : Cache S) (cache' : Cache T) : Prop :=
  ∀ k, CacheSet.InStep φ (cache.sets k) (cache'.sets k)

namespace Cache.InStep
variable {φ : S → T} {cache : Cache S} {cache' : Cache T}

theorem setAt (h : InStep φ cache cache') (k : Nat) {set : CacheSet S} {set' : CacheSet T}
    (hset : CacheSet.InStep φ set set') : InStep φ (cache.setAt k set) (cache'.setAt k set') := by
  intro j
  change CacheSet.InStep φ (Function.update cache.sets k set j) (Function.update cache'.sets k set' j)
  rw [Function.update_apply, Function.update_apply]
  split
  · exact hset
  · exact h j

theorem line (h : InStep φ cache cache') (b : Block) :
    cache'.line b = (cache.line b).map (CacheLine.map φ) :=
  (h b.set).lookup b.tag

theorem getLine (h : InStep φ cache cache') (g : Geometry) (addr : Addr) :
    InStep φ (cache.getLine g addr).2 (cache'.getLine g addr).2 :=
  h.setAt _ ((h _).find _)

theorem setLineState (h : InStep φ cache cache') (g : Geometry) (addr : Addr) (st : S) :
    InStep φ (cache.setLineState g addr st) (cache'.setLineState g addr (φ st)) :=
  h.setAt _ ((h _).setState _ st)

variable [LineState S] [LineState T]

theorem allocate (h : InStep φ cache cache') (hinv : φ invalid = invalid) {r : Replacement S}
    {r' : Replacement T} {g : Geometry} {addr : Addr}
    (hpos : r.victimPos (cache.sets (g.setIdx addr)) = r'.victimPos (cache'.sets (g.setIdx addr))) :
    Option.Rel (fun x y => InStep φ x.1 y.1 ∧ y.2 = x.2.map (CacheLine.map φ))
      (cache.allocate r g addr) (cache'.allocate r' g addr) := by
  apply Lockstep.rel_map ((h (g.setIdx addr)).allocate hinv hpos g.assoc (g.tag addr))
  intro x y hrel
  exact ⟨h.setAt _ hrel.1, hrel.2⟩

end Cache.InStep

/-! ### Machines in step -/

/-- The global counters of two machines of block size `bsize`, the first of which has
written back `k` lines more. -/
structure GlobalStatistics.InStep (bsize k : Nat) (gs gs' : GlobalStatistics) : Prop where
  invalidations : gs.totalInvalidations = gs'.totalInvalidations
  reads : gs.busReads = gs'.busReads
  readx : gs.busReadx = gs'.busReadx
  upgrades : gs.busUpgrades = gs'.busUpgrades
  writebacks : gs.busWritebacks = gs'.busWritebacks + k
  traffic : gs.totalDataTrafficBytes = gs'.totalDataTrafficBytes + bsize * k
  transfers : gs.cacheToCacheTransfers ≤ gs'.cacheToCacheTransfers

structure Machine.InStep {n : Nat} (φ : S → T) (bsize k : Nat) (m : Machine S n)
    (m' : Machine T n) : Prop where
  caches : ∀ i, Cache.InStep φ (m.caches i) (m'.caches i)
  cStats : m.cStats = m'.cStats
  gStats : m.gStats.InStep bsize k m'.gStats

variable [LineState S] [LineState T] {n : Nat}

/-- `φ` maps the handlers of `R` to those of `R'`. Lines in a `surplus` state are
dirty for `R` only. -/
structure Refines (R : ProtocolRules S) (R' : ProtocolRules T) (φ : S → T) (surplus : S → Bool) :
    Prop where
  invalid_iff : ∀ st, φ st = invalid ↔ st = invalid
  isShared : ∀ st, R'.isShared (φ st) = R.isShared st
  writeHit : ∀ st, φ (R.writeHit st) = R'.writeHit (φ st)
  missAction : ∀ isWrite, R'.missAction isWrite = R.missAction isWrite
  isSupplier : ∀ st, R.isSupplier st = true → R'.isSupplier (φ st) = true
  snoop : ∀ type st, st ≠ invalid → φ (R.snoop type st) = R'.snoop type (φ st)
  countsReceived : ∀ type, R'.countsReceived type = R.countsReceived type
  countsSent : R'.countsSent = R.countsSent
  upgrLatency : R'.upgrLatency = R.upgrLatency
  upgrTraffic : R'.upgrTraffic = R.upgrTraffic
  upgrState : ∀ sharedSignal, φ (R.upgrState sharedSignal) = R'.upgrState sharedSignal
  countsRead : ∀ type, R'.countsRead type = R.countsRead type
  fillState : ∀ type sharedSignal, φ (R.fillState type sharedSignal) = R'.fillState type sharedSignal
  isDirty : ∀ st, R.isDirty st = (R'.isDirty (φ st) || surplus st)
  surplus_clean : ∀ st, surplus st = true → R'.isDirty (φ st) = false
  victimPos : ∀ set set', CacheSet.InStep φ set set' →
    R.replacement.victimPos set = R'.replacement.victimPos set'

namespace Machine.InStep
variable {φ : S → T} {bsize k : Nat} {m : Machine S n} {m' : Machine T n}

omit [LineState S] [LineState T] in
theorem setCache (h : InStep φ bsize k m m') (i : Fin n) {cache : Cache S} {cache' : Cache T}
    (hcache : Cache.InStep φ cache cache') :
    InStep φ bsize k (m.setCache i cache) (m'.setCache i cache') := by
  refine ⟨?_, h.cStats, h.gStats⟩
  intro j
  change Cache.InStep φ (Function.update m.caches i cache j) (Function.update m'.caches i cache' j)
  rw [Function.update_apply, Function.update_apply]
  split
  · exact hcache
  · exact h.caches j

omit [LineState S] [LineState T] in
theorem updStats (h : InStep φ bsize k m m') (i : Fin n) (f : Statistics → Statistics) :
    InStep φ bsize k (m.updStats i f) (m'.updStats i f) := by
  refine ⟨h.caches, ?_, h.gStats⟩
  simp [Machine.updStats, h.cStats]

omit [LineState S] [LineState T] in
theorem updGlobal (h : InStep φ bsize k m m') {k₁ : Nat} {f f' : GlobalStatistics → GlobalStatistics}
    (hf : (f m.gStats).InStep bsize k₁ (f' m'.gStats)) :
    InStep φ bsize k₁ (m.updGlobal f) (m'.updGlobal f') :=
  ⟨h.caches, h.cStats, hf⟩

end Machine.InStep

/-- The accumulators of the two snooping loops. -/
structure Snooped.InStep (φ : S → T) (bsize k : Nat) (acc : Snooped S n) (acc' : Snooped T n) :
    Prop where
  machine : acc.machine.InStep φ bsize k acc'.machine
  sharedSignal : acc.sharedSignal = acc'.sharedSignal
  supplierFound : acc.supplierFound = true → acc'.supplierFound = true

section
variable {R : ProtocolRules S} {R' : ProtocolRules T} {φ : S → T} {surplus : S → Bool}
  (laws : Refines R R' φ surplus) {g : Geometry} {k : Nat} {m : Machine S n} {m' : Machine T n}
include laws

theorem Refines.request (h : m.InStep φ g.bsize k m') (id : Fin n) (addr : Addr) (isWrite : Bool) :
    (handleProcessorRequest R g m id addr isWrite).1 =
        (handleProcessorRequest R' g m' id addr isWrite).1 ∧
      (handleProcessorRequest R g m id addr isWrite).2.InStep φ g.bsize k
        (handleProcessorRequest R' g m' id addr isWrite).2 := by
  have hfound := h.setCache id ((h.caches id).getLine g addr)
  simp only [handleProcessorRequest, Cache.getLine_fst, (h.caches id).line (g.block addr)]
  cases (m.caches id).line (g.block addr) with
  | none => exact ⟨by simp [laws.missAction], hfound⟩
  | some line =>
    simp only [Option.map_some, CacheLine.map, laws.invalid_iff, laws.isShared]
    split
    · exact ⟨by simp [laws.missAction], hfound⟩
    · split
      · exact ⟨rfl, hfound⟩
      · refine ⟨rfl, ?_⟩
        cases isWrite with
        | false =>
          simp only [Bool.false_eq_true, if_false, laws.isShared]
          exact hfound.updStats id _
        | true =>
          simp only [if_true, ← laws.writeHit, laws.isShared]
          apply Machine.InStep.updStats
          exact hfound.setCache id ((hfound.caches id).setLineState g addr _)

theorem Refines.countInvalidation (h : m.InStep φ g.bsize k m') (type : BusTransactionType)
    (i reqId : Fin n) : (countInvalidation R type m i reqId).InStep φ g.bsize k
      (countInvalidation R' type m' i reqId) := by
  simp only [CoherenceFormal.countInvalidation, laws.countsReceived, laws.countsSent]
  split
  · have counted {m : Machine S n} {m' : Machine T n} (h : m.InStep φ g.bsize k m') :
        (m.updGlobal fun gs => { gs with totalInvalidations := gs.totalInvalidations + 1 }).InStep
          φ g.bsize k
          (m'.updGlobal fun gs =>
            { gs with totalInvalidations := gs.totalInvalidations + 1 }) := by
      refine h.updGlobal ⟨?_, h.gStats.reads, h.gStats.readx, h.gStats.upgrades,
        h.gStats.writebacks, h.gStats.traffic, h.gStats.transfers⟩
      have hinv := h.gStats.invalidations
      change m.gStats.totalInvalidations + 1 = m'.gStats.totalInvalidations + 1
      omega
    split
    · exact counted ((h.updStats i _).updStats reqId _)
    · exact counted (h.updStats i _)
  · exact h

theorem Refines.snoopCore {acc : Snooped S n} {acc' : Snooped T n} (h : acc.InStep φ g.bsize k acc')
    (reqId : Fin n) (type : BusTransactionType) (addr : Addr) (i : Fin n) :
    (snoopCore R g reqId type addr acc i).InStep φ g.bsize k
      (snoopCore R' g reqId type addr acc' i) := by
  have hcache := h.machine.caches i
  have hfound := h.machine.setCache i (hcache.getLine g addr)
  unfold CoherenceFormal.snoopCore
  split
  · exact h
  · simp only [Cache.getLine_fst, hcache.line (g.block addr)]
    cases (acc.machine.caches i).line (g.block addr) with
    | none => exact ⟨hfound, h.sharedSignal, h.supplierFound⟩
    | some line =>
      simp only [Option.map_some, CacheLine.map, laws.invalid_iff]
      split
      · exact ⟨hfound, h.sharedSignal, h.supplierFound⟩
      · rename_i hvalid
        rw [← laws.snoop type line.state hvalid]
        refine ⟨?_, rfl, ?_⟩
        · apply laws.countInvalidation
          exact hfound.setCache i ((hfound.caches i).setLineState g addr _)
        · intro hfound
          rcases Bool.or_eq_true_iff.mp hfound with hold | hnew
          · exact Bool.or_eq_true_iff.mpr (.inl (h.supplierFound hold))
          · exact Bool.or_eq_true_iff.mpr (.inr (laws.isSupplier _ hnew))

theorem Refines.snoopAll (h : m.InStep φ g.bsize k m') (reqId : Fin n) (type : BusTransactionType)
    (addr : Addr) : (snoopAll R g m reqId type addr).InStep φ g.bsize k
      (snoopAll R' g m' reqId type addr) := by
  have base : Snooped.InStep φ g.bsize k ⟨m, false, false⟩ ⟨m', false, false⟩ :=
    ⟨h, rfl, fun hfalse => hfalse⟩
  have loop := Lockstep.rel_foldl (r := Snooped.InStep φ g.bsize k)
    (fun acc acc' i hacc => laws.snoopCore hacc reqId type addr i) (List.finRange n) base
  exact loop

/-- The counters of a fill, before it is known what is evicted. -/
theorem Refines.countFill {gs gs' : GlobalStatistics} (h : gs.InStep g.bsize k gs')
    (type : BusTransactionType) {supplier supplier' : Bool}
    (hsup : supplier = true → supplier' = true) :
    (countFill R g type supplier gs).InStep g.bsize k (countFill R' g type supplier' gs') := by
  have htransfers := h.transfers
  have htraffic := h.traffic
  refine ⟨h.invalidations, ?_, ?_, h.upgrades, h.writebacks, ?_, ?_⟩
  · simp [CoherenceFormal.countFill, laws.countsRead, h.reads]
  · simp [CoherenceFormal.countFill, laws.countsRead, h.readx]
  · change gs.totalDataTrafficBytes + g.bsize = gs'.totalDataTrafficBytes + g.bsize + g.bsize * k
    omega
  · change gs.cacheToCacheTransfers + (if supplier then 1 else 0) ≤
      gs'.cacheToCacheTransfers + if supplier' then 1 else 0
    cases supplier with
    | false =>
      simp only [Bool.false_eq_true, if_false]
      omega
    | true =>
      rw [if_pos rfl, if_pos (hsup rfl)]
      omega

end

theorem GlobalStatistics.InStep.countWriteback {g : Geometry} {k : Nat} {gs gs' : GlobalStatistics}
    (h : gs.InStep g.bsize k gs') :
    (countWriteback g gs).InStep g.bsize k (countWriteback g gs') := by
  have hwb := h.writebacks
  have htraffic := h.traffic
  refine ⟨h.invalidations, h.reads, h.readx, h.upgrades, ?_, ?_, h.transfers⟩
  · change gs.busWritebacks + 1 = gs'.busWritebacks + 1 + k
    omega
  · change gs.totalDataTrafficBytes + g.bsize = gs'.totalDataTrafficBytes + g.bsize + g.bsize * k
    omega

/-- A writeback of the first protocol only. -/
theorem GlobalStatistics.InStep.countWriteback_left {g : Geometry} {k : Nat}
    {gs gs' : GlobalStatistics} (h : gs.InStep g.bsize k gs') :
    (CoherenceFormal.countWriteback g gs).InStep g.bsize (k + 1) gs' := by
  have hwb := h.writebacks
  have htraffic := h.traffic
  refine ⟨h.invalidations, h.reads, h.readx, h.upgrades, ?_, ?_, h.transfers⟩
  · change gs.busWritebacks + 1 = gs'.busWritebacks + (k + 1)
    omega
  · change gs.totalDataTrafficBytes + g.bsize = gs'.totalDataTrafficBytes + g.bsize * (k + 1)
    rw [Nat.mul_succ]
    omega

/-- The call evicts a line whose state passes the test. -/
def Call.Evicts (R : ProtocolRules S) (g : Geometry) (test : S → Bool) (m : Machine S n) :
    Call n → Bool
  | .request _ _ _ => false
  | .transaction reqId type addr => type ≠ .writeback && type ≠ .busUpgr &&
      (m.victim R g reqId addr).any fun v => test (m.state reqId v)

/-- The lines in a state that passes the test which a sequence of calls evicts. -/
def evictions (R : ProtocolRules S) (g : Geometry) (test : S → Bool) :
    Machine S n → List (Call n) → Nat
  | _, [] => 0
  | m, c :: rest => (if c.Evicts R g test m then 1 else 0) + match c.perform R g m with
    | none => 0
    | some first => evictions R g test first.2 rest

/-- What `allocate` evicts after the snoops is what the call evicts. -/
theorem Call.evicts_eq {R : ProtocolRules S} {g : Geometry} {m : Machine S n} {reqId : Fin n}
    {type : BusTransactionType} {addr : Addr} {cache : Cache S} {evicted : Option (CacheLine S)}
    (test : S → Bool) (hw : type ≠ .writeback) (hu : type ≠ .busUpgr)
    (halloc : ((snoopAll R g m reqId type addr).machine.caches reqId).allocate R.replacement g
      addr = some (cache, evicted)) :
    (Call.transaction reqId type addr).Evicts R g test m =
      evicted.any fun line => test line.state := by
  rw [snoopAll_caches, if_pos rfl] at halloc
  obtain ⟨hev, -⟩ := Cache.line_allocate halloc
  change evicted = (m.victim R g reqId addr).map _ at hev
  rw [hev, evicted_any test]
  simp [Call.Evicts, hw, hu]

theorem fill_latency_le (g : Geometry) {supplier supplier' : Bool}
    (hsup : supplier = true → supplier' = true) (hle : 1 + 2 * (g.bsize / 4) ≤ 101) :
    (if supplier' then 1 + 2 * (g.bsize / 4) else 101) ≤
      if supplier then 1 + 2 * (g.bsize / 4) else 101 := by
  cases supplier with
  | true => rw [hsup rfl]
  | false =>
    simp only [Bool.false_eq_true, if_false]
    split <;> omega

theorem snoopAll_transfers (R : ProtocolRules S) (g : Geometry) (m : Machine S n) (reqId : Fin n)
    (type : BusTransactionType) (addr : Addr) :
    (snoopAll R g m reqId type addr).machine.gStats.cacheToCacheTransfers =
      m.gStats.cacheToCacheTransfers := by
  obtain ⟨k, hk⟩ := snoopAll_gStats R g m reqId type addr
  rw [hk]

theorem fill_transfers_eq {R : ProtocolRules S} {R' : ProtocolRules T} {g : Geometry}
    {m : Machine S n} {m' : Machine T n} {reqId : Fin n} {type : BusTransactionType} {addr : Addr}
    (hsame : (snoopAll R g m reqId type addr).supplierFound =
      (snoopAll R' g m' reqId type addr).supplierFound)
    (heq : m.gStats.cacheToCacheTransfers = m'.gStats.cacheToCacheTransfers) :
    (snoopAll R g m reqId type addr).machine.gStats.cacheToCacheTransfers +
        (if (snoopAll R g m reqId type addr).supplierFound then 1 else 0) =
      (snoopAll R' g m' reqId type addr).machine.gStats.cacheToCacheTransfers +
        if (snoopAll R' g m' reqId type addr).supplierFound then 1 else 0 := by
  rw [snoopAll_transfers, snoopAll_transfers, heq, hsame]

/-- The replies of the two protocols to one call: the same response, or a latency of the
first that is no shorter, provided a cache supplies a block no slower than the memory. -/
def Reply.Slower (g : Geometry) : Reply → Reply → Prop
  | .response r, .response r' => r = r'
  | .latency t, .latency t' => 1 + 2 * (g.bsize / 4) ≤ 101 → t' ≤ t
  | _, _ => False

section
variable {R : ProtocolRules S} {R' : ProtocolRules T} {φ : S → T} {surplus : S → Bool}
  (laws : Refines R R' φ surplus) {g : Geometry} {k : Nat} {m : Machine S n} {m' : Machine T n}
include laws

theorem Refines.map_invalid : φ invalid = invalid := (laws.invalid_iff invalid).mpr rfl

/-- A dirty line of `R'` is dirty for `R`, and one more writeback of `R` is a surplus line. -/
theorem Refines.evicted (evicted : Option (CacheLine S)) :
    ((evicted.any fun line => R.isDirty line.state) =
        (((evicted.map (CacheLine.map φ)).any fun line => R'.isDirty line.state) ||
          evicted.any fun line => surplus line.state)) ∧
      ((evicted.any fun line => surplus line.state) = true →
        ((evicted.map (CacheLine.map φ)).any fun line => R'.isDirty line.state) = false) := by
  cases evicted with
  | none => simp
  | some line =>
    simp only [Option.any_some, Option.map_some, CacheLine.map]
    exact ⟨laws.isDirty line.state, laws.surplus_clean line.state⟩

/-- What one transaction does to two machines in step. Where both protocols find a supplier
or neither does, and no surplus line is evicted, it costs them the same. -/
def Refines.TransactionInStep (R : ProtocolRules S) (R' : ProtocolRules T) (φ : S → T)
    (surplus : S → Bool) (g : Geometry) (k : Nat) (m : Machine S n) (m' : Machine T n)
    (reqId : Fin n) (type : BusTransactionType) (addr : Addr) : Prop :=
  Option.Rel (fun x y => x.2.InStep φ g.bsize
      (k + if (Call.transaction reqId type addr).Evicts R g surplus m then 1 else 0) y.2 ∧
      Reply.Slower g (.latency x.1) (.latency y.1) ∧
      ((CoherenceFormal.snoopAll R g m reqId type addr).supplierFound =
          (CoherenceFormal.snoopAll R' g m' reqId type addr).supplierFound →
        (Call.transaction reqId type addr).Evicts R g surplus m = false →
        m.gStats.cacheToCacheTransfers = m'.gStats.cacheToCacheTransfers →
        x.1 = y.1 ∧ x.2.gStats.cacheToCacheTransfers = y.2.gStats.cacheToCacheTransfers))
    (handleBusTransaction R g m reqId type addr) (handleBusTransaction R' g m' reqId type addr)

theorem Refines.upgrade (h : m.InStep φ g.bsize k m') (reqId : Fin n) (addr : Addr) :
    TransactionInStep R R' φ surplus g k m m' reqId .busUpgr addr := by
  have hsnoop := laws.snoopAll h reqId .busUpgr addr
  have hmachine := hsnoop.machine
  have hcounted : (countUpgrade R (CoherenceFormal.snoopAll R g m reqId .busUpgr addr).machine.gStats).InStep
      g.bsize k
      (countUpgrade R' (CoherenceFormal.snoopAll R' g m' reqId .busUpgr addr).machine.gStats) := by
    obtain ⟨hinv, hreads, hreadx, hupgr, hwb, htraffic, htransfers⟩ := hmachine.gStats
    refine ⟨hinv, hreads, hreadx, congrArg (· + 1) hupgr, hwb, ?_, htransfers⟩
    simp only [countUpgrade, laws.upgrTraffic]
    omega
  have hnone : (Call.transaction reqId .busUpgr addr).Evicts R g surplus m = false := by
    simp [Call.Evicts]
  unfold TransactionInStep
  simp only [hnone, handleBusTransaction, reduceCtorEq, if_false, if_true, Bool.false_eq_true,
    Nat.add_zero, Machine.updGlobal_caches, Cache.getLine_fst,
    (hmachine.caches reqId).line (g.block addr)]
  cases ((CoherenceFormal.snoopAll R g m reqId .busUpgr addr).machine.caches reqId).line
      (g.block addr) with
  | none => exact .none
  | some line =>
    apply Option.Rel.some
    refine ⟨?_, ?_, ?_⟩
    · simp only
      rw [← laws.upgrState, hsnoop.sharedSignal]
      apply (hmachine.updGlobal hcounted).setCache
      exact ((hmachine.caches reqId).getLine g addr).setLineState g addr _
    · intro _
      exact Nat.le_of_eq laws.upgrLatency
    · intro _ _ htransfers
      refine ⟨laws.upgrLatency.symm, ?_⟩
      have hleft := snoopAll_transfers R g m reqId .busUpgr addr
      have hright := snoopAll_transfers R' g m' reqId .busUpgr addr
      exact hleft.trans (htransfers.trans hright.symm)

theorem Refines.fill (h : m.InStep φ g.bsize k m') (reqId : Fin n) {type : BusTransactionType}
    (hw : type ≠ .writeback) (hu : type ≠ .busUpgr) (addr : Addr) :
    TransactionInStep R R' φ surplus g k m m' reqId type addr := by
  have hsnoop := laws.snoopAll h reqId type addr
  have hmachine := hsnoop.machine
  have hcounted := hmachine.updGlobal
    (laws.countFill hmachine.gStats type hsnoop.supplierFound)
  have halloc := (hmachine.caches reqId).allocate laws.map_invalid
    (laws.victimPos _ _ (hmachine.caches reqId (g.setIdx addr)))
  have hlatency := fill_latency_le g hsnoop.supplierFound
  unfold TransactionInStep
  simp only [handleBusTransaction, hw, hu, if_false, Machine.updGlobal_caches]
  generalize hx : ((CoherenceFormal.snoopAll R g m reqId type addr).machine.caches reqId).allocate
    R.replacement g addr = x at halloc ⊢
  generalize ((CoherenceFormal.snoopAll R' g m' reqId type addr).machine.caches reqId).allocate
    R'.replacement g addr = y at halloc ⊢
  cases halloc with
  | none => exact .none
  | @some result result' hrel =>
    obtain ⟨cache, evicted⟩ := result
    obtain ⟨cache', evicted'⟩ := result'
    obtain ⟨hcache, rfl⟩ : Cache.InStep φ cache cache' ∧
      evicted' = evicted.map (CacheLine.map φ) := hrel
    have hevicts := Call.evicts_eq surplus hw hu hx
    have hfilled := hcounted.setCache reqId (hcache.setLineState g addr
      (R.fillState type (CoherenceFormal.snoopAll R g m reqId type addr).sharedSignal))
    have hstate : φ (R.fillState type
        (CoherenceFormal.snoopAll R g m reqId type addr).sharedSignal) =
        R'.fillState type (CoherenceFormal.snoopAll R' g m' reqId type addr).sharedSignal := by
      rw [laws.fillState, hsnoop.sharedSignal]
    rw [hstate] at hfilled
    obtain ⟨hdirty, hclean⟩ := laws.evicted evicted
    simp only [hevicts, hdirty]
    cases hsur : evicted.any fun line => surplus line.state with
    | true =>
      -- dirty for `R` alone
      simp only [hclean hsur, Bool.or_true, if_true, Bool.false_eq_true, if_false]
      refine .some ⟨⟨hfilled.caches, hfilled.cStats, hfilled.gStats.countWriteback_left⟩, ?_, ?_⟩
      · intro hle
        exact Nat.le_trans (hlatency hle) (Nat.le_add_right _ _)
      · intro _ hnot
        simp at hnot
    | false =>
      simp only [Bool.or_false, Bool.false_eq_true, if_false, Nat.add_zero]
      split
      · refine .some ⟨hfilled.updGlobal hfilled.gStats.countWriteback, ?_, ?_⟩
        · intro hle
          exact Nat.add_le_add_right (hlatency hle) 100
        · intro hsame _ heq
          exact ⟨by rw [hsame], fill_transfers_eq hsame heq⟩
      · refine .some ⟨hfilled, hlatency, ?_⟩
        intro hsame _ heq
        exact ⟨by rw [hsame], fill_transfers_eq hsame heq⟩

theorem Refines.transaction (h : m.InStep φ g.bsize k m') (reqId : Fin n)
    (type : BusTransactionType) (addr : Addr) :
    TransactionInStep R R' φ surplus g k m m' reqId type addr := by
  by_cases hw : type = .writeback
  · subst hw
    have hmachine := (laws.snoopAll h reqId .writeback addr).machine
    have hnone : (Call.transaction reqId .writeback addr).Evicts R g surplus m = false := rfl
    unfold TransactionInStep
    simp only [handleBusTransaction, hnone, Bool.false_eq_true, if_false, if_true, Nat.add_zero]
    refine .some ⟨hmachine.updGlobal hmachine.gStats.countWriteback, fun _ => Nat.le_refl _, ?_⟩
    intro _ _ heq
    refine ⟨rfl, ?_⟩
    have hleft := snoopAll_transfers R g m reqId .writeback addr
    have hright := snoopAll_transfers R' g m' reqId .writeback addr
    exact hleft.trans (heq.trans hright.symm)
  · by_cases hu : type = .busUpgr
    · subst hu
      exact laws.upgrade h reqId addr
    · exact laws.fill h reqId hw hu addr

theorem Refines.perform (h : m.InStep φ g.bsize k m') (c : Call n) :
    Option.Rel (fun x y => x.2.InStep φ g.bsize
        (k + if c.Evicts R g surplus m then 1 else 0) y.2 ∧ Reply.Slower g x.1 y.1)
      (c.perform R g m) (c.perform R' g m') := by
  cases c with
  | request id addr isWrite =>
    obtain ⟨hresp, hmachine⟩ := laws.request h id addr isWrite
    exact .some ⟨hmachine, hresp⟩
  | transaction reqId type addr =>
    exact Lockstep.rel_map (laws.transaction h reqId type addr) fun x y hxy =>
      ⟨hxy.1, hxy.2.1⟩

/-- The two protocols stay in step over any sequence of calls. -/
theorem Refines.runCalls (h : m.InStep φ g.bsize k m') (calls : List (Call n)) :
    Option.Rel (fun x y => x.2.InStep φ g.bsize (k + evictions R g surplus m calls) y.2 ∧
        List.Forall₂ (Reply.Slower g) x.1 y.1)
      (runCalls R g m calls) (runCalls R' g m' calls) := by
  induction calls generalizing m m' k with
  | nil => exact .some ⟨h, .nil⟩
  | cons c rest ih =>
    apply Lockstep.rel_bind (laws.perform h c)
    intro first first' hfirst hrel
    apply Lockstep.rel_map (ih hrel.1)
    intro x y hxy
    refine ⟨?_, .cons hrel.2 hxy.2⟩
    rw [evictions, hfirst, ← Nat.add_assoc]
    exact hxy.1

end

omit [LineState S] [LineState T] in
theorem Machine.inStep_init (φ : S → T) (bsize : Nat) :
    (Machine.init : Machine S n).InStep φ bsize 0 Machine.init where
  caches := fun _ _ => ⟨rfl, fun _ => rfl⟩
  cStats := rfl
  gStats := ⟨rfl, rfl, rfl, rfl, rfl, rfl, Nat.le_refl _⟩

/-! ### The two comparisons -/

def MESIFState.toMESI : MESIFState → MESIState
  | .invalid => .invalid
  | .shared => .shared
  | .exclusive => .exclusive
  | .modified => .modified
  | .forward => .shared

def MOESIState.toMESI : MOESIState → MESIState
  | .invalid => .invalid
  | .shared => .shared
  | .exclusive => .exclusive
  | .modified => .modified
  | .owned => .shared

theorem mesif_refines : Refines mesif mesi MESIFState.toMESI (fun _ => false) where
  invalid_iff := by decide
  isShared := by decide
  writeHit := by decide
  missAction := by decide
  isSupplier := by decide
  snoop := by decide
  countsReceived := by decide
  countsSent := rfl
  upgrLatency := rfl
  upgrTraffic := rfl
  upgrState := by decide
  countsRead := by decide
  fillState := by decide
  isDirty := by decide
  surplus_clean := by decide
  victimPos := fun set set' h => congrArg (fun l => l.length - 1) h.lruOrder

theorem moesi_refines : Refines moesi mesi MOESIState.toMESI (· == .owned) where
  invalid_iff := by decide
  isShared := by decide
  writeHit := by decide
  missAction := by decide
  isSupplier := by decide
  snoop := by decide
  countsReceived := by decide
  countsSent := rfl
  upgrLatency := rfl
  upgrTraffic := rfl
  upgrState := by decide
  countsRead := by decide
  fillState := by decide
  isDirty := by decide
  surplus_clean := by decide
  victimPos := fun set set' h => congrArg (fun l => l.length - 1) h.lruOrder

/-- What is never a surplus is never evicted as one. -/
theorem evictions_none (R : ProtocolRules S) (g : Geometry) (m : Machine S n)
    (calls : List (Call n)) : evictions R g (fun _ => false) m calls = 0 := by
  induction calls generalizing m with
  | nil => rfl
  | cons c rest ih =>
    have hnot : c.Evicts R g (fun _ => false) m = false := by
      cases c with
      | request id addr isWrite => rfl
      | transaction reqId type addr =>
        rw [Call.Evicts]
        cases m.victim R g reqId addr <;> simp
    rw [evictions, hnot]
    cases c.perform R g m with
    | none => rfl
    | some first => simp [ih]

/-- MESIF is MESI with FORWARD read as SHARED: the same lines and recency lists, the same
responses and counters, but no more cache-to-cache transfers and no shorter latencies. -/
theorem mesif_refines_mesi (g : Geometry) (calls : List (Call n))
    (hres : Along mesi g (Call.Resident g) Machine.init calls) :
    ∃ replies m replies' m', runCalls mesif g Machine.init calls = some (replies, m) ∧
      runCalls mesi g Machine.init calls = some (replies', m') ∧
      (∀ i k, CacheSet.InStep MESIFState.toMESI ((m.caches i).sets k) ((m'.caches i).sets k)) ∧
      List.Forall₂ (Reply.Slower g) replies replies' ∧
      m.cStats = m'.cStats ∧
      m.gStats.totalInvalidations = m'.gStats.totalInvalidations ∧
      m.gStats.busReads = m'.gStats.busReads ∧
      m.gStats.busReadx = m'.gStats.busReadx ∧
      m.gStats.busUpgrades = m'.gStats.busUpgrades ∧
      m.gStats.busWritebacks = m'.gStats.busWritebacks ∧
      m.gStats.totalDataTrafficBytes = m'.gStats.totalDataTrafficBytes ∧
      m.gStats.cacheToCacheTransfers ≤ m'.gStats.cacheToCacheTransfers := by
  have hsome : (runCalls mesi g Machine.init calls).isSome :=
    runCalls_isSome Machine.listed_init hres
  obtain ⟨⟨replies, m⟩, ⟨replies', m'⟩, hrun, hrun', hstep, hreplies⟩ := Lockstep.exists_of_rel
    (mesif_refines.runCalls (Machine.inStep_init MESIFState.toMESI g.bsize) calls) hsome
  rw [evictions_none] at hstep
  obtain ⟨hinv, hreads, hreadx, hupgr, hwb, htraffic, htransfers⟩ := hstep.gStats
  exact ⟨replies, m, replies', m', hrun, hrun', hstep.caches, hreplies, hstep.cStats, hinv, hreads,
    hreadx, hupgr, hwb, htraffic, htransfers⟩

theorem mesif_refines_mesi_evicting :
    Along mesi tinyConfig.geometry (Call.Resident tinyConfig.geometry) Machine.init evictingCalls ∧
    ∃ replies m replies' m',
      runCalls mesif tinyConfig.geometry Machine.init evictingCalls = some (replies, m) ∧
      runCalls mesi tinyConfig.geometry Machine.init evictingCalls = some (replies', m') ∧
      m.cStats = m'.cStats ∧ m.gStats.busWritebacks = m'.gStats.busWritebacks := by
  have hres : Along mesi tinyConfig.geometry (Call.Resident tinyConfig.geometry) Machine.init
      evictingCalls := by decide +kernel
  obtain ⟨replies, m, replies', m', hrun, hrun', -, -, hstats, -, -, -, -, hwb, -⟩ :=
    mesif_refines_mesi tinyConfig.geometry evictingCalls hres
  exact ⟨hres, replies, m, replies', m', hrun, hrun', hstats, hwb⟩

/-- MOESI is MESI with OWNED read as SHARED, except that it writes back each OWNED line
it evicts and makes no more cache-to-cache transfers. -/
theorem moesi_refines_mesi (g : Geometry) (calls : List (Call n))
    (hres : Along mesi g (Call.Resident g) Machine.init calls) :
    ∃ replies m replies' m', runCalls moesi g Machine.init calls = some (replies, m) ∧
      runCalls mesi g Machine.init calls = some (replies', m') ∧
      (∀ i k, CacheSet.InStep MOESIState.toMESI ((m.caches i).sets k) ((m'.caches i).sets k)) ∧
      List.Forall₂ (Reply.Slower g) replies replies' ∧
      m.cStats = m'.cStats ∧
      m.gStats.totalInvalidations = m'.gStats.totalInvalidations ∧
      m.gStats.busReads = m'.gStats.busReads ∧
      m.gStats.busReadx = m'.gStats.busReadx ∧
      m.gStats.busUpgrades = m'.gStats.busUpgrades ∧
      m.gStats.busWritebacks = m'.gStats.busWritebacks +
        evictions moesi g (· == .owned) Machine.init calls ∧
      m.gStats.totalDataTrafficBytes = m'.gStats.totalDataTrafficBytes +
        g.bsize * evictions moesi g (· == .owned) Machine.init calls ∧
      m.gStats.cacheToCacheTransfers ≤ m'.gStats.cacheToCacheTransfers := by
  have hsome : (runCalls mesi g Machine.init calls).isSome :=
    runCalls_isSome Machine.listed_init hres
  obtain ⟨⟨replies, m⟩, ⟨replies', m'⟩, hrun, hrun', hstep, hreplies⟩ := Lockstep.exists_of_rel
    (moesi_refines.runCalls (Machine.inStep_init MOESIState.toMESI g.bsize) calls) hsome
  rw [Nat.zero_add] at hstep
  obtain ⟨hinv, hreads, hreadx, hupgr, hwb, htraffic, htransfers⟩ := hstep.gStats
  exact ⟨replies, m, replies', m', hrun, hrun', hstep.caches, hreplies, hstep.cStats, hinv, hreads,
    hreadx, hupgr, hwb, htraffic, htransfers⟩

/-- Core 0 owns block 0 after core 1 has read it, and evicts it. -/
def ownedEviction : List (Call 2) :=
  [.transaction 0 .busRdx 0, .transaction 1 .busRd 0, .transaction 0 .busRd 4,
    .transaction 0 .busRd 8]

theorem moesi_refines_mesi_evicting :
    Along mesi tinyConfig.geometry (Call.Resident tinyConfig.geometry) Machine.init ownedEviction ∧
    ∃ replies m replies' m',
      runCalls moesi tinyConfig.geometry Machine.init ownedEviction = some (replies, m) ∧
      runCalls mesi tinyConfig.geometry Machine.init ownedEviction = some (replies', m') ∧
      m.gStats.busWritebacks = m'.gStats.busWritebacks + 1 := by
  have hres : Along mesi tinyConfig.geometry (Call.Resident tinyConfig.geometry) Machine.init
      ownedEviction := by decide +kernel
  have hone : evictions moesi tinyConfig.geometry (· == .owned) Machine.init ownedEviction = 1 := by
    decide +kernel
  obtain ⟨replies, m, replies', m', hrun, hrun', -, -, -, -, -, -, -, hwb, -⟩ :=
    moesi_refines_mesi tinyConfig.geometry ownedEviction hres
  rw [hone] at hwb
  exact ⟨hres, replies, m, replies', m', hrun, hrun', hwb⟩

end CoherenceFormal
