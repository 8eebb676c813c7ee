import CoherenceFormal.Protocol

/-!
# What the handlers do to the lines

Both handlers are described through `Machine.line`, the line of a core for a
block. `find` reorders the recency lists but changes no line, and a transaction
changes the lines of the requested block, in the requester's cache the victim's
line, and nothing else.
-/

namespace CoherenceFormal
open LineState
set_option autoImplicit false

variable {S : Type} [LineState S] {n : Nat}

namespace Machine

def line (m : Machine S n) (i : Fin n) (b : Block) : Option (CacheLine S) := (m.caches i).line b

def state (m : Machine S n) (i : Fin n) (b : Block) : S := (m.caches i).state b

/-- Some other core has a copy: the shared signal of a transaction of `r`. -/
def sharedSignal (m : Machine S n) (r : Fin n) (b : Block) : Bool :=
  (List.finRange n).any fun i => i ≠ r && m.state i b ≠ invalid

omit [LineState S] in
@[simp] theorem setCache_caches (m : Machine S n) (i : Fin n) (cache : Cache S) :
    (m.setCache i cache).caches = Function.update m.caches i cache := rfl

omit [LineState S] in
@[simp] theorem setCache_gStats (m : Machine S n) (i : Fin n) (cache : Cache S) :
    (m.setCache i cache).gStats = m.gStats := rfl

omit [LineState S] in
@[simp] theorem updStats_caches (m : Machine S n) (i : Fin n) (f : Statistics → Statistics) :
    (m.updStats i f).caches = m.caches := rfl

omit [LineState S] in
@[simp] theorem updStats_gStats (m : Machine S n) (i : Fin n) (f : Statistics → Statistics) :
    (m.updStats i f).gStats = m.gStats := rfl

omit [LineState S] in
@[simp] theorem updGlobal_caches (m : Machine S n) (f : GlobalStatistics → GlobalStatistics) :
    (m.updGlobal f).caches = m.caches := rfl

omit [LineState S] in
@[simp] theorem updGlobal_gStats (m : Machine S n) (f : GlobalStatistics → GlobalStatistics) :
    (m.updGlobal f).gStats = f m.gStats := rfl

theorem state_eq (m : Machine S n) (i : Fin n) (b : Block) :
    m.state i b = ((m.line i b).map CacheLine.state).getD invalid := rfl

end Machine

/-! ### Processor requests -/

/-- The response to a request that finds the line in state `st`. -/
def respond (R : ProtocolRules S) (isWrite : Bool) (st : S) : ProtocolResponse :=
  if st = invalid then ⟨false, R.missAction isWrite⟩
  else if isWrite && R.isShared st then ⟨false, .busUpgr⟩
  else ⟨true, .none⟩

/-- The state it leaves the line in. -/
def afterRequest (R : ProtocolRules S) (isWrite : Bool) (st : S) : S :=
  if isWrite = true ∧ st ≠ invalid ∧ R.isShared st = false then R.writeHit st else st

/-- A request that does not hit leaves the state as it is. -/
theorem afterRequest_of_miss {R : ProtocolRules S} {isWrite : Bool} {st : S}
    (h : (respond R isWrite st).isHit = false) : afterRequest R isWrite st = st := by
  unfold afterRequest
  rw [if_neg]
  rintro ⟨-, hi, hs⟩
  simp [respond, hi, hs] at h

theorem handleProcessorRequest_response (R : ProtocolRules S) (g : Geometry) (m : Machine S n)
    (id : Fin n) (addr : Addr) (isWrite : Bool) :
    (handleProcessorRequest R g m id addr isWrite).1 =
      respond R isWrite (m.state id (g.block addr)) := by
  rw [Machine.state_eq, Machine.line]
  simp only [handleProcessorRequest, Cache.getLine_fst]
  cases (m.caches id).line (g.block addr) with
  | none => simp [respond]
  | some line =>
    simp only [Option.map_some, Option.getD_some, respond]
    split
    · rfl
    · split <;> rfl

theorem handleProcessorRequest_gStats (R : ProtocolRules S) (g : Geometry) (m : Machine S n)
    (id : Fin n) (addr : Addr) (isWrite : Bool) :
    (handleProcessorRequest R g m id addr isWrite).2.gStats = m.gStats := by
  simp only [handleProcessorRequest]
  split
  · rfl
  · split
    · rfl
    · split
      · rfl
      · cases isWrite <;> rfl

/-- A request looks its line up in the cache of its core and may write to it. -/
theorem handleProcessorRequest_found (R : ProtocolRules S) (g : Geometry) (m : Machine S n)
    (id : Fin n) (addr : Addr) (isWrite : Bool) :
    ∃ cache, (handleProcessorRequest R g m id addr isWrite).2.caches =
        Function.update m.caches id cache ∧
      (cache = ((m.caches id).getLine g addr).2 ∨
        ∃ st, cache = ((m.caches id).getLine g addr).2.setLineState g addr st) := by
  simp only [handleProcessorRequest]
  split
  · exact ⟨_, rfl, .inl rfl⟩
  · rename_i line _
    split
    · exact ⟨_, rfl, .inl rfl⟩
    · split
      · exact ⟨_, rfl, .inl rfl⟩
      · cases isWrite with
        | false => exact ⟨_, rfl, .inl rfl⟩
        | true =>
          refine ⟨((m.caches id).getLine g addr).2.setLineState g addr (R.writeHit line.state), ?_,
            .inr ⟨_, rfl⟩⟩
          rw [if_pos rfl, if_pos rfl, Machine.updStats_caches, Machine.setCache_caches,
            Machine.setCache_caches, Function.update_idem, Function.update_self]

/-- Only the cache of the requesting core is written. -/
theorem handleProcessorRequest_caches (R : ProtocolRules S) (g : Geometry) (m : Machine S n)
    (id : Fin n) (addr : Addr) (isWrite : Bool) :
    ∃ cache, (handleProcessorRequest R g m id addr isWrite).2.caches =
        Function.update m.caches id cache ∧
      ∀ b, cache.line b = if b = g.block addr
        then (m.line id b).map fun l => { l with state := afterRequest R isWrite l.state }
        else m.line id b := by
  simp only [handleProcessorRequest, Cache.getLine_fst]
  cases hl : (m.caches id).line (g.block addr) with
  | none =>
    refine ⟨_, rfl, ?_⟩
    intro b
    by_cases hb : b = g.block addr <;> simp [hb, Machine.line, hl]
  | some line =>
    -- a request that writes nothing has only gone through `find`
    have quiet (h : afterRequest R isWrite line.state = line.state) (b : Block) :
        ((m.caches id).getLine g addr).2.line b = if b = g.block addr
          then (m.line id b).map fun l => { l with state := afterRequest R isWrite l.state }
          else m.line id b := by
      by_cases hb : b = g.block addr <;> simp [hb, Machine.line, hl, h]
    simp only
    split
    · rename_i hi
      exact ⟨_, rfl, quiet (by simp [afterRequest, hi])⟩
    · rename_i hi
      split
      · rename_i hs
        exact ⟨_, rfl, quiet (by simp_all [afterRequest])⟩
      · rename_i hs
        cases isWrite with
        | false => exact ⟨_, rfl, quiet (by simp [afterRequest])⟩
        | true =>
          refine ⟨((m.caches id).getLine g addr).2.setLineState g addr (R.writeHit line.state),
            by simp, ?_⟩
          intro b
          rw [Cache.line_setLineState, Cache.line_getLine]
          by_cases hb : b = g.block addr
          · have hw : afterRequest R true line.state = R.writeHit line.state := by
              simp_all [afterRequest]
            simp [hb, Machine.line, hl, hw]
          · simp [hb, Machine.line]

theorem line_handleProcessorRequest (R : ProtocolRules S) (g : Geometry) (m : Machine S n)
    (id : Fin n) (addr : Addr) (isWrite : Bool) (j : Fin n) (b : Block) :
    (handleProcessorRequest R g m id addr isWrite).2.line j b =
      if j = id ∧ b = g.block addr
      then (m.line j b).map fun l => { l with state := afterRequest R isWrite l.state }
      else m.line j b := by
  obtain ⟨cache, hcaches, hline⟩ := handleProcessorRequest_caches R g m id addr isWrite
  rw [Machine.line, hcaches]
  by_cases hj : j = id
  · subst hj
    simp [hline]
  · simp [hj, Machine.line]

/-! ### Snooping -/

/-- The state in which a transaction of another core leaves a line. -/
def snoopState (R : ProtocolRules S) (type : BusTransactionType) (st : S) : S :=
  if st = invalid then invalid else R.snoop type st

/-- The effect of the snooping loop on one cache. -/
def snoopCache (R : ProtocolRules S) (g : Geometry) (type : BusTransactionType) (addr : Addr)
    (cache : Cache S) : Cache S :=
  match cache.line (g.block addr) with
  | none => (cache.getLine g addr).2
  | some line =>
    if line.state = invalid then (cache.getLine g addr).2
    else (cache.getLine g addr).2.setLineState g addr (R.snoop type line.state)

theorem line_snoopCache (R : ProtocolRules S) (g : Geometry) (type : BusTransactionType)
    (addr : Addr) (cache : Cache S) (b : Block) :
    (snoopCache R g type addr cache).line b = if b = g.block addr
      then (cache.line b).map fun l => { l with state := snoopState R type l.state }
      else cache.line b := by
  unfold snoopCache
  cases hl : cache.line (g.block addr) with
  | none => by_cases hb : b = g.block addr <;> simp [hb, hl]
  | some line =>
    by_cases hi : line.state = invalid
    · have hs : snoopState R type line.state = line.state := by simp [snoopState, hi]
      simp only [hi, if_true, Cache.line_getLine]
      by_cases hb : b = g.block addr <;> simp [hb, hl, hs]
    · have hs : snoopState R type line.state = R.snoop type line.state := by simp [snoopState, hi]
      by_cases hb : b = g.block addr <;> simp [hb, hl, hi, hs, Cache.line_setLineState]

/-- So does a snoop, in the cache it looks into. -/
theorem snoopCache_found (R : ProtocolRules S) (g : Geometry) (type : BusTransactionType)
    (addr : Addr) (cache : Cache S) : snoopCache R g type addr cache = (cache.getLine g addr).2 ∨
      ∃ st, snoopCache R g type addr cache = (cache.getLine g addr).2.setLineState g addr st := by
  unfold snoopCache
  split
  · exact .inl rfl
  · split
    · exact .inl rfl
    · exact .inr ⟨_, rfl⟩

theorem countInvalidation_caches (R : ProtocolRules S) (type : BusTransactionType)
    (m : Machine S n) (i reqId : Fin n) : (countInvalidation R type m i reqId).caches = m.caches := by
  unfold countInvalidation
  split
  · split <;> rfl
  · rfl

theorem snoopCore_caches (R : ProtocolRules S) (g : Geometry) (reqId : Fin n)
    (type : BusTransactionType) (addr : Addr) (acc : Snooped S n) (i : Fin n) :
    (snoopCore R g reqId type addr acc i).machine.caches = Function.update acc.machine.caches i
      (if i = reqId then acc.machine.caches i
        else snoopCache R g type addr (acc.machine.caches i)) := by
  unfold snoopCore snoopCache
  by_cases hi : i = reqId
  · simp [hi]
  · simp only [hi, if_false, Cache.getLine_fst]
    cases (acc.machine.caches i).line (g.block addr) with
    | none => rfl
    | some line =>
      simp only
      split
      · rfl
      · simp [countInvalidation_caches]

theorem snoopCore_sharedSignal (R : ProtocolRules S) (g : Geometry) (reqId : Fin n)
    (type : BusTransactionType) (addr : Addr) (acc : Snooped S n) (i : Fin n) :
    (snoopCore R g reqId type addr acc i).sharedSignal =
      (acc.sharedSignal || (i ≠ reqId && acc.machine.state i (g.block addr) ≠ invalid)) := by
  rw [Machine.state_eq, Machine.line]
  unfold snoopCore
  by_cases hi : i = reqId
  · simp [hi]
  · simp only [hi, if_false, Cache.getLine_fst]
    cases (acc.machine.caches i).line (g.block addr) with
    | none => simp
    | some line =>
      by_cases hs : line.state = invalid <;> simp [hi, hs]

theorem countInvalidation_gStats (R : ProtocolRules S) (type : BusTransactionType)
    (m : Machine S n) (i reqId : Fin n) :
    ∃ k, (countInvalidation R type m i reqId).gStats =
      { m.gStats with totalInvalidations := m.gStats.totalInvalidations + k } := by
  unfold countInvalidation
  split
  · cases R.countsSent <;> exact ⟨1, rfl⟩
  · exact ⟨0, rfl⟩

/-- A snoop touches no global counter but `total_invalidations`. -/
theorem snoopCore_gStats (R : ProtocolRules S) (g : Geometry) (reqId : Fin n)
    (type : BusTransactionType) (addr : Addr) (acc : Snooped S n) (i : Fin n) :
    ∃ k, (snoopCore R g reqId type addr acc i).machine.gStats = { acc.machine.gStats with
      totalInvalidations := acc.machine.gStats.totalInvalidations + k } := by
  unfold snoopCore
  by_cases hi : i = reqId
  · exact ⟨0, by simp [hi]⟩
  · simp only [hi, if_false]
    cases ((acc.machine.caches i).getLine g addr).1 with
    | none => exact ⟨0, rfl⟩
    | some line =>
      simp only
      split
      · exact ⟨0, rfl⟩
      · exact countInvalidation_gStats R type _ i reqId

theorem snoopAll_caches (R : ProtocolRules S) (g : Geometry) (m : Machine S n) (reqId : Fin n)
    (type : BusTransactionType) (addr : Addr) (j : Fin n) :
    (snoopAll R g m reqId type addr).machine.caches j =
      if j = reqId then m.caches j else snoopCache R g type addr (m.caches j) := by
  have hloop := IndexLoop.get_foldl (snoopCore R g reqId type addr)
    (fun acc i => acc.machine.caches i)
    (fun i cache => if i = reqId then cache else snoopCache R g type addr cache)
    (fun acc i => by simp [snoopCore_caches])
    (fun acc i j hj => by simp [snoopCore_caches, hj])
    (List.finRange n) (List.nodup_finRange n) ⟨m, false, false⟩ j
  rw [if_pos (List.mem_finRange j)] at hloop
  exact hloop

theorem snoopAll_sharedSignal (R : ProtocolRules S) (g : Geometry) (m : Machine S n)
    (reqId : Fin n) (type : BusTransactionType) (addr : Addr) :
    (snoopAll R g m reqId type addr).sharedSignal = m.sharedSignal reqId (g.block addr) := by
  have hloop := IndexLoop.flag_foldl (snoopCore R g reqId type addr)
    (fun acc i => acc.machine.caches i) Snooped.sharedSignal
    (fun i cache => i ≠ reqId && cache.state (g.block addr) ≠ invalid)
    (fun acc i j hj => by simp [snoopCore_caches, hj])
    (fun acc i => snoopCore_sharedSignal R g reqId type addr acc i)
    (List.finRange n) (List.nodup_finRange n) ⟨m, false, false⟩
  exact hloop

theorem snoopAll_gStats (R : ProtocolRules S) (g : Geometry) (m : Machine S n) (reqId : Fin n)
    (type : BusTransactionType) (addr : Addr) :
    ∃ k, (snoopAll R g m reqId type addr).machine.gStats =
      { m.gStats with totalInvalidations := m.gStats.totalInvalidations + k } := by
  have loop (l : List (Fin n)) (acc : Snooped S n) :
      ∃ k, (l.foldl (snoopCore R g reqId type addr) acc).machine.gStats = { acc.machine.gStats with
        totalInvalidations := acc.machine.gStats.totalInvalidations + k } := by
    induction l generalizing acc with
    | nil => exact ⟨0, rfl⟩
    | cons i l ih =>
      obtain ⟨k, hk⟩ := ih (snoopCore R g reqId type addr acc i)
      obtain ⟨k', hk'⟩ := snoopCore_gStats R g reqId type addr acc i
      refine ⟨k' + k, ?_⟩
      rw [List.foldl_cons, hk, hk', Nat.add_assoc]
  exact loop _ _

/-! ### Bus transactions -/

/-- The block that a fill of `r` at `addr` would evict. -/
def Machine.victim (R : ProtocolRules S) (g : Geometry) (m : Machine S n) (r : Fin n)
    (addr : Addr) : Option Block :=
  (m.caches r).victim R.replacement g addr

/-- A victim is an entry of the recency list of a full set. -/
theorem Machine.victim_entry {R : ProtocolRules S} {g : Geometry} {m : Machine S n} {r : Fin n}
    {addr : Addr} {v : Block} (h : m.victim R g r addr = some v) :
    v.set = g.setIdx addr ∧
      g.assoc ≤ FiniteMap.size ((m.caches r).sets (g.setIdx addr)).lines ∧
      ((m.caches r).sets (g.setIdx addr)).lruOrder[
        R.replacement.victimPos ((m.caches r).sets (g.setIdx addr))]? = some v.tag := by
  unfold Machine.victim Cache.victim at h
  dsimp only at h
  split at h
  · rename_i hfull
    obtain ⟨tag, htag, rfl⟩ := Option.map_eq_some_iff.mp h
    exact ⟨rfl, hfull, htag⟩
  · simp at h

def Machine.victimDirty (R : ProtocolRules S) (g : Geometry) (m : Machine S n) (r : Fin n)
    (addr : Addr) : Bool :=
  (m.victim R g r addr).any fun v => R.isDirty (m.state r v)

theorem line_snoopAll (R : ProtocolRules S) (g : Geometry) (m : Machine S n) (r : Fin n)
    (type : BusTransactionType) (addr : Addr) (j : Fin n) (b : Block) :
    (snoopAll R g m r type addr).machine.line j b = if j ≠ r ∧ b = g.block addr
      then (m.line j b).map fun l => { l with state := snoopState R type l.state }
      else m.line j b := by
  rw [Machine.line, snoopAll_caches]
  by_cases hj : j = r
  · simp [hj, Machine.line]
  · simp [hj, line_snoopCache, Machine.line]

/-- The three branches of `handleBusTransaction`, after the snooping loop. -/
inductive BusEffect (R : ProtocolRules S) (g : Geometry) (m : Machine S n) (r : Fin n)
    (addr : Addr) : BusTransactionType → Nat → Machine S n → Prop where
  | writeback : BusEffect R g m r addr .writeback 100
      ((snoopAll R g m r .writeback addr).machine.updGlobal (countWriteback g))
  | upgrade (present : (m.line r (g.block addr)).isSome) :
      BusEffect R g m r addr .busUpgr R.upgrLatency
        (((snoopAll R g m r .busUpgr addr).machine.updGlobal (countUpgrade R)).setCache r
          (((m.caches r).getLine g addr).2.setLineState g addr
            (R.upgrState (m.sharedSignal r (g.block addr)))))
  | fill {type : BusTransactionType} {cache : Cache S} {evicted : Option (CacheLine S)}
      (hw : type ≠ .writeback) (hu : type ≠ .busUpgr)
      (allocated : (m.caches r).allocate R.replacement g addr = some (cache, evicted)) :
      BusEffect R g m r addr type
        ((if (snoopAll R g m r type addr).supplierFound then 1 + 2 * (g.bsize / 4) else 101) +
          if m.victimDirty R g r addr then 100 else 0)
        ((((snoopAll R g m r type addr).machine.updGlobal
          (countFill R g type (snoopAll R g m r type addr).supplierFound)).setCache r
            (cache.setLineState g addr (R.fillState type (m.sharedSignal r (g.block addr))))).updGlobal
              (if m.victimDirty R g r addr then countWriteback g else id))

/-- A test on the evicted line, by the block it is evicted from. -/
theorem evicted_any (p : S → Bool) (R : ProtocolRules S) (g : Geometry) (m : Machine S n)
    (r : Fin n) (addr : Addr) :
    (((m.victim R g r addr).map fun v => ((m.caches r).line v).getD blankLine).any
      fun line => p line.state) = (m.victim R g r addr).any fun v => p (m.state r v) := by
  cases m.victim R g r addr with
  | none => rfl
  | some v =>
    simp only [Option.map_some, Option.any_some, Machine.state, Cache.state]
    cases (m.caches r).line v <;> rfl

theorem evicted_dirty (R : ProtocolRules S) (g : Geometry) (m : Machine S n) (r : Fin n)
    (addr : Addr) :
    (((m.victim R g r addr).map fun v => ((m.caches r).line v).getD blankLine).any
      fun line => R.isDirty line.state) = m.victimDirty R g r addr :=
  evicted_any R.isDirty R g m r addr

theorem busEffect_of_bus {R : ProtocolRules S} {g : Geometry} {m m' : Machine S n} {r : Fin n}
    {type : BusTransactionType} {addr : Addr} {latency : Nat}
    (h : handleBusTransaction R g m r type addr = some (latency, m')) :
    BusEffect R g m r addr type latency m' := by
  simp only [handleBusTransaction, Machine.updGlobal_caches, snoopAll_caches, if_true,
    Cache.getLine_fst, snoopAll_sharedSignal] at h
  split at h
  · rename_i hw
    subst hw
    obtain ⟨rfl, rfl⟩ := Prod.mk.inj (Option.some.inj h)
    exact .writeback
  · rename_i hw
    split at h
    · rename_i hu
      subst hu
      split at h
      · simp at h
      · rename_i line hline
        obtain ⟨rfl, rfl⟩ := Prod.mk.inj (Option.some.inj h)
        exact .upgrade (by rw [Machine.line, hline]; rfl)
    · rename_i hu
      split at h
      · simp at h
      · rename_i cache evicted ha
        have hdirty : (evicted.any fun line => R.isDirty line.state) = m.victimDirty R g r addr := by
          rw [(Cache.line_allocate ha).1]
          exact evicted_dirty R g m r addr
        rw [hdirty] at h
        have heffect := BusEffect.fill (r := r) hw hu ha
        split at h
        · rename_i hd
          obtain ⟨rfl, rfl⟩ := Prod.mk.inj (Option.some.inj h)
          rw [if_pos hd, if_pos hd] at heffect
          exact heffect
        · rename_i hd
          obtain ⟨rfl, rfl⟩ := Prod.mk.inj (Option.some.inj h)
          rw [if_neg hd, if_neg hd] at heffect
          exact heffect

structure UpgradeSpec (R : ProtocolRules S) (g : Geometry) (m : Machine S n) (r : Fin n)
    (addr : Addr) (latency : Nat) (m' : Machine S n) : Prop where
  present : (m.line r (g.block addr)).isSome
  latency_eq : latency = R.upgrLatency
  lines : ∀ j b, m'.line j b = if b = g.block addr
    then (m.line j b).map fun l => { l with
      state := if j = r then R.upgrState (m.sharedSignal r b) else snoopState R .busUpgr l.state }
    else m.line j b
  writebacks : m'.gStats.busWritebacks = m.gStats.busWritebacks

theorem upgrade_spec {R : ProtocolRules S} {g : Geometry} {m m' : Machine S n} {r : Fin n}
    {addr : Addr} {latency : Nat}
    (h : handleBusTransaction R g m r .busUpgr addr = some (latency, m')) :
    UpgradeSpec R g m r addr latency m' := by
  cases busEffect_of_bus h with
  | fill _ hu _ => exact absurd rfl hu
  | upgrade present =>
    refine ⟨present, rfl, ?_, ?_⟩
    · intro j b
      by_cases hj : j = r
      · subst hj
        by_cases hb : b = g.block addr
        · simp [hb, Machine.line, Cache.line_setLineState]
        · simp [hb, Machine.line, Cache.line_setLineState]
      · have hs := line_snoopAll R g m r .busUpgr addr j b
        simp only [ne_eq, hj, not_false_eq_true, true_and] at hs
        simpa [Machine.line, hj] using hs
    · obtain ⟨k, hk⟩ := snoopAll_gStats R g m r .busUpgr addr
      simp [hk, countUpgrade]

structure FillSpec (R : ProtocolRules S) (g : Geometry) (m : Machine S n) (r : Fin n)
    (type : BusTransactionType) (addr : Addr) (m' : Machine S n) : Prop where
  lines : ∀ j b, m'.line j b = if b = g.block addr
    then if j = r then some ⟨g.tag addr, R.fillState type (m.sharedSignal r b)⟩
      else (m.line j b).map fun l => { l with state := snoopState R type l.state }
    else if j = r ∧ m.victim R g r addr = some b then none else m.line j b
  writebacks : m'.gStats.busWritebacks =
    m.gStats.busWritebacks + if m.victimDirty R g r addr then 1 else 0
  traffic : m'.gStats.totalDataTrafficBytes = m.gStats.totalDataTrafficBytes + g.bsize +
    if m.victimDirty R g r addr then g.bsize else 0
  room : m.victim R g r addr = none →
    FiniteMap.size ((m.caches r).sets (g.setIdx addr)).lines < g.assoc

theorem fill_spec {R : ProtocolRules S} {g : Geometry} {m m' : Machine S n} {r : Fin n}
    {type : BusTransactionType} {addr : Addr} {latency : Nat}
    (hw : type ≠ .writeback) (hu : type ≠ .busUpgr)
    (h : handleBusTransaction R g m r type addr = some (latency, m')) :
    FillSpec R g m r type addr m' := by
  cases busEffect_of_bus h with
  | writeback => exact absurd rfl hw
  | upgrade => exact absurd rfl hu
  | @fill _ cache evicted _ _ ha =>
    have hlines := (Cache.line_allocate ha).2
    obtain ⟨k, hk⟩ := snoopAll_gStats R g m r type addr
    refine ⟨?_, ?_, ?_, Cache.room_of_allocate ha⟩
    · intro j b
      by_cases hj : j = r
      · subst hj
        simp only [Machine.line, Machine.updGlobal_caches, Machine.setCache_caches,
          Function.update_self, Cache.line_setLineState, hlines]
        by_cases hb : b = g.block addr
        · simp [hb]
        · simp [hb, Machine.victim]
      · have hs := line_snoopAll R g m r type addr j b
        simp only [ne_eq, hj, not_false_eq_true, true_and] at hs
        simpa [Machine.line, hj] using hs
    · cases hd : m.victimDirty R g r addr <;> simp [hk, countFill, countWriteback]
    · cases hd : m.victimDirty R g r addr <;> simp [hk, countFill, countWriteback]

end CoherenceFormal
