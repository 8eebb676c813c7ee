import CoherenceFormal.Calls
import CoherenceFormal.Shared.Reordering

/-!
# Sets do not interact

A handler call works on one set of every cache: the one that its address selects. What it
replies, what it does to that set and what it adds to the counters depends on that set alone.
So calls that select different sets commute, and each set comes out as if the calls for the
other sets had not been made.
-/

namespace CoherenceFormal
open LineState Reordering
set_option autoImplicit false

variable {S : Type} {n : Nat}

def Statistics.add (a b : Statistics) : Statistics where
  computeCycles := a.computeCycles + b.computeCycles
  loadCount := a.loadCount + b.loadCount
  storeCount := a.storeCount + b.storeCount
  cacheHits := a.cacheHits + b.cacheHits
  cacheMisses := a.cacheMisses + b.cacheMisses
  invalidationsSent := a.invalidationsSent + b.invalidationsSent
  invalidationsReceived := a.invalidationsReceived + b.invalidationsReceived
  privateAccesses := a.privateAccesses + b.privateAccesses
  sharedAccesses := a.sharedAccesses + b.sharedAccesses

def GlobalStatistics.add (a b : GlobalStatistics) : GlobalStatistics where
  totalDataTrafficBytes := a.totalDataTrafficBytes + b.totalDataTrafficBytes
  totalInvalidations := a.totalInvalidations + b.totalInvalidations
  busReads := a.busReads + b.busReads
  busReadx := a.busReadx + b.busReadx
  busUpgrades := a.busUpgrades + b.busUpgrades
  busWritebacks := a.busWritebacks + b.busWritebacks
  cacheToCacheTransfers := a.cacheToCacheTransfers + b.cacheToCacheTransfers

theorem Statistics.add_right_comm (a b c : Statistics) : (a.add b).add c = (a.add c).add b := by
  simp only [add, Statistics.mk.injEq]
  omega

theorem GlobalStatistics.add_right_comm (a b c : GlobalStatistics) :
    (a.add b).add c = (a.add c).add b := by
  simp only [add, GlobalStatistics.mk.injEq]
  omega

/-- Set `k` of every cache as in `d`, and the counters of `d` added. -/
def Machine.merge (k : Nat) (m d : Machine S n) : Machine S n where
  caches := fun i => (m.caches i).setAt k ((d.caches i).sets k)
  gStats := m.gStats.add d.gStats
  cStats := fun i => (m.cStats i).add (d.cStats i)

/-- Only set `k`, and nothing counted. -/
def Machine.atSet (k : Nat) (m : Machine S n) : Machine S n where
  caches := fun i => Cache.empty.setAt k ((m.caches i).sets k)
  gStats := {}
  cStats := fun _ => {}

namespace Cache

@[simp] theorem setAt_setAt (cache : Cache S) (k : Nat) (set set' : CacheSet S) :
    (cache.setAt k set).setAt k set' = cache.setAt k set' := by
  simp [setAt]

theorem setAt_comm (cache : Cache S) {j k : Nat} (h : j ≠ k) (set set' : CacheSet S) :
    (cache.setAt j set).setAt k set' = (cache.setAt k set').setAt j set := by
  simp [setAt, Function.update_comm h]

@[simp] theorem setAt_same (cache : Cache S) (k : Nat) : cache.setAt k (cache.sets k) = cache := by
  simp [setAt]

theorem getLine_setAt (g : Geometry) (cache d : Cache S) (addr : Addr) :
    (cache.setAt (g.setIdx addr) (d.sets (g.setIdx addr))).getLine g addr =
      ((d.getLine g addr).1,
        cache.setAt (g.setIdx addr) ((d.getLine g addr).2.sets (g.setIdx addr))) := by
  simp [getLine]

theorem setLineState_setAt (g : Geometry) (cache d : Cache S) (addr : Addr) (state : S) :
    (cache.setAt (g.setIdx addr) (d.sets (g.setIdx addr))).setLineState g addr state =
      cache.setAt (g.setIdx addr) ((d.setLineState g addr state).sets (g.setIdx addr)) := by
  simp [setLineState]

theorem allocate_setAt [LineState S] (r : Replacement S) (g : Geometry) (cache d : Cache S)
    (addr : Addr) :
    (cache.setAt (g.setIdx addr) (d.sets (g.setIdx addr))).allocate r g addr =
      (d.allocate r g addr).map fun result =>
        (cache.setAt (g.setIdx addr) (result.1.sets (g.setIdx addr)), result.2) := by
  simp only [allocate, sets_setAt_self, Option.map_map]
  congr 1
  funext result
  simp

end Cache

namespace Machine
variable {k : Nat} {m d : Machine S n}

theorem merge_atSet (k : Nat) (m : Machine S n) : m.merge k (m.atSet k) = m := by
  simp only [merge, atSet, Cache.sets_setAt_self, Cache.setAt_same]
  rfl

theorem atSet_merge_of_ne {j k : Nat} (h : j ≠ k) (m d : Machine S n) :
    (m.merge k d).atSet j = m.atSet j := by
  simp [merge, atSet, Cache.sets_setAt_of_ne _ h]

theorem merge_comm {j k : Nat} (h : j ≠ k) (m d d' : Machine S n) :
    (m.merge j d).merge k d' = (m.merge k d').merge j d := by
  simp only [merge, Machine.mk.injEq]
  refine ⟨?_, GlobalStatistics.add_right_comm _ _ _, ?_⟩
  · funext i
    exact Cache.setAt_comm _ h _ _
  · funext i
    exact Statistics.add_right_comm _ _ _

theorem setCache_merge (i : Fin n) (cache : Cache S) :
    (m.merge k d).setCache i ((m.caches i).setAt k (cache.sets k)) =
      m.merge k (d.setCache i cache) := by
  simp only [merge, setCache, Machine.mk.injEq, and_true]
  funext j
  by_cases hj : j = i
  · subst hj
    simp
  · simp [hj]

/-- Counting is adding. -/
theorem updStats_merge (i : Fin n) {f : Statistics → Statistics}
    (hf : ∀ a b : Statistics, f (a.add b) = a.add (f b)) :
    (m.merge k d).updStats i f = m.merge k (d.updStats i f) := by
  simp only [merge, updStats, Machine.mk.injEq, true_and]
  funext j
  by_cases hj : j = i
  · subst hj
    simp [hf]
  · simp [hj]

theorem updGlobal_merge {f : GlobalStatistics → GlobalStatistics}
    (hf : ∀ a b : GlobalStatistics, f (a.add b) = a.add (f b)) :
    (m.merge k d).updGlobal f = m.merge k (d.updGlobal f) := by
  simp [merge, updGlobal, hf]

end Machine

/-! ### A handler works on one set -/

section
variable [LineState S] {R : ProtocolRules S} {g : Geometry} {addr : Addr}

omit [LineState S] in
theorem Machine.getLine_merge (m d : Machine S n) (i : Fin n) :
    ((m.merge (g.setIdx addr) d).caches i).getLine g addr = (((d.caches i).getLine g addr).1,
      (m.caches i).setAt (g.setIdx addr) (((d.caches i).getLine g addr).2.sets (g.setIdx addr))) :=
  Cache.getLine_setAt g (m.caches i) (d.caches i) addr

omit [LineState S] in
theorem Machine.setLineState_merge (m d : Machine S n) (i : Fin n) (state : S) :
    ((m.merge (g.setIdx addr) d).caches i).setLineState g addr state = (m.caches i).setAt
      (g.setIdx addr) (((d.caches i).setLineState g addr state).sets (g.setIdx addr)) :=
  Cache.setLineState_setAt g (m.caches i) (d.caches i) addr state

theorem handleProcessorRequest_merge (m d : Machine S n) (id : Fin n) (isWrite : Bool) :
    handleProcessorRequest R g (m.merge (g.setIdx addr) d) id addr isWrite =
      ((handleProcessorRequest R g d id addr isWrite).1,
        m.merge (g.setIdx addr) (handleProcessorRequest R g d id addr isWrite).2) := by
  simp only [handleProcessorRequest, Machine.getLine_merge, Machine.setCache_merge]
  cases ((d.caches id).getLine g addr).1 with
  | none => rfl
  | some line =>
    simp only
    split
    · rfl
    · split
      · rfl
      · simp only [Machine.setLineState_merge, Machine.setCache_merge]
        rw [← apply_ite (m.merge (g.setIdx addr)), Machine.updStats_merge]
        intro a b
        generalize R.isShared _ = shared
        cases shared <;> rfl

theorem countInvalidation_merge {k : Nat} (type : BusTransactionType) (m d : Machine S n)
    (i reqId : Fin n) : countInvalidation R type (m.merge k d) i reqId =
      m.merge k (countInvalidation R type d i reqId) := by
  simp only [countInvalidation]
  split
  · rw [Machine.updStats_merge i (fun _ _ => rfl)]
    split
    · rw [Machine.updStats_merge reqId (fun _ _ => rfl), Machine.updGlobal_merge (fun _ _ => rfl)]
    · rw [Machine.updGlobal_merge (fun _ _ => rfl)]
  · rfl

/-- The loop over the cores with another machine around the set it works on. -/
def Snooped.merge (k : Nat) (m : Machine S n) (acc : Snooped S n) : Snooped S n :=
  { acc with machine := m.merge k acc.machine }

theorem snoopCore_merge (m : Machine S n) (reqId : Fin n) (type : BusTransactionType)
    (acc : Snooped S n) (i : Fin n) :
    snoopCore R g reqId type addr (acc.merge (g.setIdx addr) m) i =
      (snoopCore R g reqId type addr acc i).merge (g.setIdx addr) m := by
  simp only [snoopCore, Snooped.merge]
  split
  · rfl
  · simp only [Machine.getLine_merge, Machine.setCache_merge]
    cases ((acc.machine.caches i).getLine g addr).1 with
    | none => rfl
    | some line =>
      simp only
      split
      · rfl
      · simp only [Machine.setLineState_merge, Machine.setCache_merge, countInvalidation_merge]

theorem snoopAll_merge (m d : Machine S n) (reqId : Fin n) (type : BusTransactionType) :
    snoopAll R g (m.merge (g.setIdx addr) d) reqId type addr =
      (snoopAll R g d reqId type addr).merge (g.setIdx addr) m := by
  have loop (cores : List (Fin n)) (acc : Snooped S n) :
      cores.foldl (snoopCore R g reqId type addr) (acc.merge (g.setIdx addr) m) =
        (cores.foldl (snoopCore R g reqId type addr) acc).merge (g.setIdx addr) m := by
    induction cores generalizing acc with
    | nil => rfl
    | cons i cores ih =>
      rw [List.foldl_cons, snoopCore_merge]
      exact ih _
  exact loop _ ⟨d, false, false⟩

theorem Machine.allocate_merge (m d : Machine S n) (r : Replacement S) (i : Fin n) :
    ((m.merge (g.setIdx addr) d).caches i).allocate r g addr =
      ((d.caches i).allocate r g addr).map fun result =>
        ((m.caches i).setAt (g.setIdx addr) (result.1.sets (g.setIdx addr)), result.2) :=
  Cache.allocate_setAt r g (m.caches i) (d.caches i) addr

theorem handleBusTransaction_merge (m d : Machine S n) (reqId : Fin n)
    (type : BusTransactionType) :
    handleBusTransaction R g (m.merge (g.setIdx addr) d) reqId type addr =
      (handleBusTransaction R g d reqId type addr).map fun result =>
        (result.1, m.merge (g.setIdx addr) result.2) := by
  simp only [handleBusTransaction, snoopAll_merge, Snooped.merge]
  generalize snoopAll R g d reqId type addr = snooped
  have hwriteback (a b : GlobalStatistics) :
      countWriteback g (a.add b) = a.add (countWriteback g b) := by
    simp [countWriteback, GlobalStatistics.add, Nat.add_assoc]
  split
  · rw [Machine.updGlobal_merge hwriteback]
    rfl
  · split
    · rw [Machine.updGlobal_merge (f := countUpgrade R)]
      · simp only [Machine.getLine_merge]
        cases (((snooped.machine.updGlobal (countUpgrade R)).caches reqId).getLine g addr).1 with
        | none => rfl
        | some line =>
          simp only [Cache.setLineState_setAt, Machine.setCache_merge, Option.map_some]
      · intro a b
        simp [countUpgrade, GlobalStatistics.add, Nat.add_assoc]
    · rw [Machine.updGlobal_merge (f := countFill R g type snooped.supplierFound)]
      · simp only [Machine.allocate_merge]
        cases ((snooped.machine.updGlobal (countFill R g type snooped.supplierFound)).caches
            reqId).allocate R.replacement g addr with
        | none => rfl
        | some result =>
          simp only [Option.map_some, Cache.setLineState_setAt, Machine.setCache_merge]
          split
          · rw [Machine.updGlobal_merge hwriteback]
            rfl
          · rfl
      · intro a b
        simp [countFill, GlobalStatistics.add, Nat.add_assoc]

/-! ### Calls -/

/-- The set that a call works on. -/
def Call.set (g : Geometry) : Call n → Nat
  | .request _ addr _ => g.setIdx addr
  | .transaction _ _ addr => g.setIdx addr

omit [LineState S] in
theorem Call.set_lt (c : Call n) : c.set g < g.numSets := by
  cases c with
  | request id addr isWrite => exact g.setIdx_lt addr
  | transaction reqId type addr => exact g.setIdx_lt addr

theorem Call.perform_merge (c : Call n) (m d : Machine S n) :
    c.perform R g (m.merge (c.set g) d) =
      (c.perform R g d).map fun first => (first.1, m.merge (c.set g) first.2) := by
  cases c with
  | request id addr isWrite =>
    simp only [perform, set, handleProcessorRequest_merge, Option.map_some]
  | transaction reqId type addr =>
    simp only [perform, set, handleBusTransaction_merge, Option.map_map]
    rfl

/-- A call needs no more than its set. -/
theorem Call.perform_atSet (c : Call n) (m : Machine S n) :
    c.perform R g m = (c.perform R g (m.atSet (c.set g))).map fun first =>
      (first.1, m.merge (c.set g) first.2) := by
  have h := c.perform_merge (R := R) (g := g) m (m.atSet (c.set g))
  rwa [Machine.merge_atSet] at h

theorem runCalls_merge {k : Nat} {calls : List (Call n)} (hset : ∀ c ∈ calls, c.set g = k)
    (m d : Machine S n) : runCalls R g (m.merge k d) calls =
      (runCalls R g d calls).map fun result => (result.1, m.merge k result.2) := by
  induction calls generalizing d with
  | nil => rfl
  | cons c rest ih =>
    obtain ⟨rfl, hrest⟩ := List.forall_mem_cons.mp hset
    rw [runCalls, runCalls, c.perform_merge]
    cases c.perform R g d with
    | none => rfl
    | some first =>
      simp only [Option.map_some, Option.bind_some, ih hrest, Option.map_map]
      rfl

/-- A call that keeps its reply with the replies of its set. -/
def Call.log (R : ProtocolRules S) (g : Geometry) (c : Call n)
    (s : Machine S n × (Nat → List Reply)) : Option (Machine S n × (Nat → List Reply)) :=
  (c.perform R g s.1).map fun first =>
    (first.2, Function.update s.2 (c.set g) (s.2 (c.set g) ++ [first.1]))

theorem Call.log_atSet (c : Call n) (m : Machine S n) (logs : Nat → List Reply) :
    c.log R g (m, logs) = (c.perform R g (m.atSet (c.set g))).map fun first =>
      (m.merge (c.set g) first.2,
        Function.update logs (c.set g) (logs (c.set g) ++ [first.1])) := by
  simp only [log]
  rw [c.perform_atSet m, Option.map_map]
  rfl

theorem Call.log_commutes {c c' : Call n} (h : c.set g ≠ c'.set g) :
    Commutes (Call.log R g) c c' := by
  rintro ⟨m, logs⟩
  rw [c.log_atSet, c'.log_atSet]
  cases hc : c.perform R g (m.atSet (c.set g)) with
  | none =>
    cases c'.perform R g (m.atSet (c'.set g)) with
    | none => rfl
    | some first' =>
      simp only [Option.map_none, Option.bind_none, Option.map_some, Option.bind_some]
      rw [c.log_atSet, Machine.atSet_merge_of_ne h, hc]
      rfl
  | some first =>
    simp only [Option.map_some, Option.bind_some]
    rw [c'.log_atSet, Machine.atSet_merge_of_ne h.symm]
    cases c'.perform R g (m.atSet (c'.set g)) with
    | none => rfl
    | some first' =>
      simp only [Option.map_some, Option.bind_some]
      rw [c.log_atSet, Machine.atSet_merge_of_ne h, hc]
      simp only [Option.map_some, Option.some.injEq, Prod.mk.injEq]
      refine ⟨Machine.merge_comm h _ _ _, ?_⟩
      rw [Function.update_of_ne h.symm, Function.update_of_ne h, Function.update_comm h]

/-- The replies to the calls for set `k`. -/
def repliesAt (g : Geometry) (k : Nat) (calls : List (Call n)) (replies : List Reply) :
    List Reply :=
  ((calls.zip replies).filter fun reply => reply.1.set g = k).map Prod.snd

theorem performAll_log (calls : List (Call n)) (m : Machine S n) (logs : Nat → List Reply) :
    performAll (Call.log R g) calls (m, logs) = (runCalls R g m calls).map fun result =>
      (result.2, fun k => logs k ++ repliesAt g k calls result.1) := by
  induction calls generalizing m logs with
  | nil => simp [performAll, runCalls, repliesAt]
  | cons c rest ih =>
    rw [performAll, runCalls, Call.log]
    cases c.perform R g m with
    | none => rfl
    | some first =>
      simp only [Option.map_some, Option.bind_some, ih, Option.map_map]
      congr 1
      funext result
      simp only [Function.comp_apply, Prod.mk.injEq, true_and]
      funext k
      by_cases hk : c.set g = k
      · subst hk
        simp [repliesAt]
      · simp [repliesAt, hk, Function.update_of_ne (Ne.symm hk)]

theorem runCalls_length {m : Machine S n} {calls : List (Call n)}
    {result : List Reply × Machine S n} (h : runCalls R g m calls = some result) :
    result.1.length = calls.length := by
  induction calls generalizing m result with
  | nil =>
    obtain rfl := Option.some.inj h
    rfl
  | cons c rest ih =>
    obtain ⟨first, -, hrest⟩ := Option.bind_eq_some_iff.mp h
    obtain ⟨last, hlast, rfl⟩ := Option.map_eq_some_iff.mp hrest
    simp [ih hlast]

omit [LineState S] in
theorem repliesAt_of_set {k : Nat} {calls : List (Call n)} {replies : List Reply}
    (hset : ∀ c ∈ calls, c.set g = k) (hlen : replies.length = calls.length) (j : Nat) :
    repliesAt g j calls replies = if j = k then replies else [] := by
  have hzip : ∀ reply ∈ calls.zip replies, reply.1.set g = k := fun reply hreply =>
    hset reply.1 (List.of_mem_zip hreply).1
  unfold repliesAt
  split
  · rename_i hj
    rw [List.filter_eq_self.mpr fun reply hreply => by simp [hzip reply hreply, hj]]
    exact List.map_snd_zip (Nat.le_of_eq hlen)
  · rename_i hj
    rw [List.filter_eq_nil_iff.mpr fun reply hreply => by simp [hzip reply hreply, Ne.symm hj]]
    rfl

omit [LineState S] in
theorem only_set_eq_nil {k : Nat} (hk : g.numSets ≤ k) (calls : List (Call n)) :
    only (Call.set g) k calls = [] := by
  apply List.filter_eq_nil_iff.mpr
  intro c _ heq
  have hlt := c.set_lt (g := g)
  have heq := of_decide_eq_true heq
  omega

/-! ### Calls, set by set -/

/-- The calls may be reordered as long as those for one set stay in their order. -/
theorem calls_reordered (m : Machine S n) {calls calls' : List (Call n)}
    (h : ∀ k < g.numSets, only (Call.set g) k calls = only (Call.set g) k calls') :
    (runCalls R g m calls).map (fun result => (result.2, fun k => repliesAt g k calls result.1)) =
      (runCalls R g m calls').map fun result =>
        (result.2, fun k => repliesAt g k calls' result.1) := by
  have hsame (k : Nat) : only (Call.set g) k calls = only (Call.set g) k calls' := by
    rcases Nat.lt_or_ge k g.numSets with hk | hk
    · exact h k hk
    · rw [only_set_eq_nil hk, only_set_eq_nil hk]
  have hperform : performAll (Call.log R g) calls (m, fun _ => []) =
      performAll (Call.log R g) calls' (m, fun _ => []) :=
    performAll_eq_of_only (fun _ _ => Call.log_commutes) hsame _
  rwa [performAll_log, performAll_log] at hperform

/-- Four sets of one line of one byte. -/
def fourSets : Geometry := ⟨4, 1, 1, Nat.one_pos, Nat.one_pos, by decide, by decide⟩

def setsInTurn : List (Call 2) :=
  [.transaction 0 .busRd 0, .transaction 1 .busRdx 1, .request 0 0 true, .transaction 1 .busRd 5,
    .transaction 1 .busRd 4]

def setsApart : List (Call 2) :=
  [.transaction 1 .busRdx 1, .transaction 1 .busRd 5, .transaction 0 .busRd 0, .request 0 0 true,
    .transaction 1 .busRd 4]

theorem calls_reordered_apart :
    (∀ k < fourSets.numSets,
      only (Call.set fourSets) k setsInTurn = only (Call.set fourSets) k setsApart) ∧
    (runCalls moesi fourSets (.init : Machine MOESIState 2) setsInTurn).isSome ∧
    (runCalls moesi fourSets .init setsInTurn).map
        (fun result => (result.2, fun k => repliesAt fourSets k setsInTurn result.1)) =
      (runCalls moesi fourSets .init setsApart).map fun result =>
        (result.2, fun k => repliesAt fourSets k setsApart result.1) := by
  have h : ∀ k < fourSets.numSets,
      only (Call.set fourSets) k setsInTurn = only (Call.set fourSets) k setsApart := by decide
  exact ⟨h, by decide +kernel, calls_reordered Machine.init h⟩

namespace Machine

/-- Set `k` from the `k`-th machine for the first `count` sets, with all that these machines
have counted. -/
def mergeSets (part : Nat → Machine S n) : Nat → Machine S n
  | 0 => .init
  | count + 1 => (mergeSets part count).merge count (part count)

omit [LineState S] in
theorem atSet_mergeSets (part : Nat → Machine S n) {k count : Nat} (h : count ≤ k) :
    (mergeSets part count).atSet k = .init := by
  induction count with
  | zero =>
    simp [mergeSets, atSet, init]
  | succ count ih =>
    rw [mergeSets, atSet_merge_of_ne (Nat.ne_of_gt h)]
    exact ih (Nat.le_of_succ_le h)

omit [LineState S] in
theorem mergeSets_congr {part part' : Nat → Machine S n} {count : Nat}
    (h : ∀ k < count, part k = part' k) : mergeSets part count = mergeSets part' count := by
  induction count with
  | zero => rfl
  | succ count ih =>
    rw [mergeSets, mergeSets, h count (Nat.lt_succ_self count),
      ih fun k hk => h k (Nat.lt_succ_of_lt hk)]

end Machine

/-- The calls for a set that no call before them was for. -/
theorem performAll_log_only (calls : List (Call n)) (part : Nat → Machine S n) (count : Nat)
    {logs : Nat → List Reply} (hlogs : logs count = []) :
    performAll (Call.log R g) (only (Call.set g) count calls)
        (Machine.mergeSets part count, logs) =
      (runCalls R g .init (only (Call.set g) count calls)).map fun result =>
        ((Machine.mergeSets part count).merge count result.2,
          Function.update logs count result.1) := by
  have hset : ∀ c ∈ only (Call.set g) count calls, c.set g = count := fun c hc =>
    of_decide_eq_true (List.mem_filter.mp hc).2
  have hrun := runCalls_merge (R := R) hset (Machine.mergeSets part count)
    ((Machine.mergeSets part count).atSet count)
  rw [Machine.merge_atSet, Machine.atSet_mergeSets part (Nat.le_refl count)] at hrun
  rw [performAll_log, hrun, Option.map_map]
  cases hresult : runCalls R g .init (only (Call.set g) count calls) with
  | none => rfl
  | some result =>
    simp only [Option.map_some, Function.comp_apply, Option.some.injEq, Prod.mk.injEq, true_and]
    funext k
    rw [repliesAt_of_set hset (runCalls_length hresult)]
    by_cases hk : k = count
    · subst hk
      simp [hlogs]
    · simp [hk]

theorem performAll_log_byKey (calls : List (Call n)) (count : Nat) (m : Machine S n)
    (logs : Nat → List Reply) :
    performAll (Call.log R g) (byKey (Call.set g) calls count) (.init, fun _ => []) =
        some (m, logs) ↔
      ∃ part : Nat → Machine S n, (∀ k < count,
          runCalls R g .init (only (Call.set g) k calls) = some (logs k, part k)) ∧
        (∀ k, count ≤ k → logs k = []) ∧ m = Machine.mergeSets part count := by
  induction count generalizing m logs with
  | zero =>
    rw [byKey, performAll, Option.some.injEq, Prod.mk.injEq]
    constructor
    · rintro ⟨rfl, rfl⟩
      exact ⟨fun _ => .init, fun k hk => absurd hk (Nat.not_lt_zero k), fun _ _ => rfl, rfl⟩
    · rintro ⟨part, -, hnil, rfl⟩
      exact ⟨rfl, funext fun k => (hnil k (Nat.zero_le k)).symm⟩
  | succ count ih =>
    rw [byKey, performAll_append, Option.bind_eq_some_iff]
    constructor
    · rintro ⟨⟨m₁, logs₁⟩, hfirst, hlast⟩
      obtain ⟨part, hpart, hnil, rfl⟩ := (ih m₁ logs₁).mp hfirst
      rw [performAll_log_only calls part count (hnil count (Nat.le_refl count))] at hlast
      obtain ⟨⟨replies, d⟩, hd, heq⟩ := Option.map_eq_some_iff.mp hlast
      obtain ⟨rfl, rfl⟩ := Prod.mk.inj heq
      have hmerge : Machine.mergeSets (Function.update part count d) count =
          Machine.mergeSets part count :=
        Machine.mergeSets_congr fun k hk => Function.update_of_ne (Nat.ne_of_lt hk) _ _
      refine ⟨Function.update part count d, ?_, ?_, ?_⟩
      · intro k hk
        rcases Nat.lt_succ_iff_lt_or_eq.mp hk with hk | rfl
        · rw [hpart k hk, Function.update_of_ne (Nat.ne_of_lt hk),
            Function.update_of_ne (Nat.ne_of_lt hk)]
        · rw [hd, Function.update_self, Function.update_self]
      · intro k hk
        rw [Function.update_of_ne (Nat.ne_of_gt hk)]
        exact hnil k (Nat.le_of_succ_le hk)
      · rw [Machine.mergeSets, hmerge, Function.update_self]
    · rintro ⟨part, hpart, hnil, rfl⟩
      refine ⟨(Machine.mergeSets part count, Function.update logs count []),
        (ih _ _).mpr ⟨part, ?_, ?_, rfl⟩, ?_⟩
      · intro k hk
        rw [hpart k (Nat.lt_succ_of_lt hk), Function.update_of_ne (Nat.ne_of_lt hk)]
      · intro k hk
        rcases Nat.eq_or_lt_of_le hk with rfl | hk
        · exact Function.update_self _ _ _
        · rw [Function.update_of_ne (Nat.ne_of_gt hk)]
          exact hnil k hk
      · rw [performAll_log_only calls part count (Function.update_self _ _ _),
          hpart count (Nat.lt_succ_self count), Machine.mergeSets]
        simp

/-- A sequence of calls from empty caches is what its calls for each set are by themselves:
it is defined when they are, gives them their replies, and leaves every set, and the sum of
what was counted, as they do. -/
theorem calls_set_by_set (calls : List (Call n)) :
    ((runCalls R g (.init : Machine S n) calls).isSome ↔ ∀ k < g.numSets,
        (runCalls R g (.init : Machine S n) (only (Call.set g) k calls)).isSome) ∧
      ∀ replies (m : Machine S n), runCalls R g .init calls = some (replies, m) →
        ∃ part : Nat → Machine S n, (∀ k < g.numSets,
            runCalls R g .init (only (Call.set g) k calls) =
              some (repliesAt g k calls replies, part k)) ∧
          m = Machine.mergeSets part g.numSets := by
  have hsorted : performAll (Call.log R g) calls ((.init : Machine S n), fun _ => []) =
      performAll (Call.log R g) (byKey (Call.set g) calls g.numSets) (.init, fun _ => []) :=
    performAll_byKey (fun _ _ => Call.log_commutes) (fun c _ => c.set_lt) _
  rw [performAll_log] at hsorted
  have split (replies : List Reply) (m : Machine S n)
      (h : runCalls R g .init calls = some (replies, m)) : ∃ part : Nat → Machine S n,
        (∀ k < g.numSets, runCalls R g .init (only (Call.set g) k calls) =
          some (repliesAt g k calls replies, part k)) ∧ m = Machine.mergeSets part g.numSets := by
    rw [h] at hsorted
    obtain ⟨part, hpart, -, hm⟩ := (performAll_log_byKey calls g.numSets _ _).mp hsorted.symm
    exact ⟨part, hpart, hm⟩
  refine ⟨⟨?_, ?_⟩, split⟩
  · intro h k hk
    obtain ⟨⟨replies, m⟩, hrun⟩ := Option.isSome_iff_exists.mp h
    obtain ⟨part, hpart, -⟩ := split replies m hrun
    rw [hpart k hk]
    rfl
  · intro h
    have hresult (k : Nat) : ∃ result, k < g.numSets →
        runCalls R g (.init : Machine S n) (only (Call.set g) k calls) = some result := by
      by_cases hk : k < g.numSets
      · obtain ⟨result, hrun⟩ := Option.isSome_iff_exists.mp (h k hk)
        exact ⟨result, fun _ => hrun⟩
      · exact ⟨([], .init), fun hk' => absurd hk' hk⟩
    choose result hrun using hresult
    have hall := (performAll_log_byKey (R := R) calls g.numSets
      (Machine.mergeSets (fun k => (result k).2) g.numSets)
      (fun k => if k < g.numSets then (result k).1 else [])).mpr
        ⟨fun k => (result k).2, fun k hk => by rw [hrun k hk, if_pos hk],
          fun k hk => if_neg (Nat.not_lt_of_ge hk), rfl⟩
    rw [← hsorted] at hall
    obtain ⟨whole, hwhole, -⟩ := Option.map_eq_some_iff.mp hall
    exact Option.isSome_iff_exists.mpr ⟨whole, hwhole⟩

end
end CoherenceFormal
