import CoherenceFormal.RecencyList

/-!
# Sequences of handler calls

A protocol object by itself: any sequence of calls of its two handlers from empty
caches, whether or not the simulator would make it. The one thing a caller has to
see to is that BUS_UPGR names a block resident in the requester's set, as the
handler dereferences what `get_line` returns.

SMART is compared with MESI here. The two differ in the entry that a full set gives
up, and only when the back entry of `lru_order` is a MODIFIED line and another entry
is not.
-/

namespace CoherenceFormal
open LineState FiniteMap
set_option autoImplicit false

inductive Call (n : Nat) where
  | request (id : Fin n) (addr : Addr) (isWrite : Bool)
  | transaction (reqId : Fin n) (type : BusTransactionType) (addr : Addr)
  deriving Repr, DecidableEq

/-- What a handler returns. -/
inductive Reply where
  | response (response : ProtocolResponse)
  | latency (cycles : Nat)
  deriving Repr, DecidableEq

variable {S : Type} {n : Nat}

/-- BUS_UPGR names a resident block. -/
def Call.Resident (g : Geometry) (m : Machine S n) : Call n → Prop
  | .request _ _ _ => True
  | .transaction reqId type addr => type = .busUpgr → (m.line reqId (g.block addr)).isSome

instance (g : Geometry) (m : Machine S n) (c : Call n) : Decidable (c.Resident g m) :=
  match c with
  | .request _ _ _ => inferInstanceAs (Decidable True)
  | .transaction _ _ _ => inferInstanceAs (Decidable (_ → _))

section
variable [LineState S]

def Call.perform (R : ProtocolRules S) (g : Geometry) (m : Machine S n) :
    Call n → Option (Reply × Machine S n)
  | .request id addr isWrite =>
    let result := handleProcessorRequest R g m id addr isWrite
    some (.response result.1, result.2)
  | .transaction reqId type addr =>
    (handleBusTransaction R g m reqId type addr).map fun result => (.latency result.1, result.2)

/-- The replies, in the order of the calls, and the machine they leave. -/
def runCalls (R : ProtocolRules S) (g : Geometry) :
    Machine S n → List (Call n) → Option (List Reply × Machine S n)
  | m, [] => some ([], m)
  | m, c :: rest =>
    (c.perform R g m).bind fun first =>
      (runCalls R g first.2 rest).map fun result => (first.1 :: result.1, result.2)

/-- `P` holds of every call and of the machine it finds. -/
def Along (R : ProtocolRules S) (g : Geometry) (P : Machine S n → Call n → Prop) :
    Machine S n → List (Call n) → Prop
  | _, [] => True
  | m, c :: rest => P m c ∧ match c.perform R g m with
    | none => True
    | some first => Along R g P first.2 rest

def Along.decidable (R : ProtocolRules S) (g : Geometry) (P : Machine S n → Call n → Prop)
    (dec : ∀ m c, Decidable (P m c)) :
    (m : Machine S n) → (calls : List (Call n)) → Decidable (Along R g P m calls)
  | _, [] => inferInstanceAs (Decidable True)
  | m, c :: rest =>
    have : Decidable (match c.perform R g m with
        | none => True
        | some first => Along R g P first.2 rest) :=
      match c.perform R g m with
      | none => inferInstanceAs (Decidable True)
      | some first => Along.decidable R g P dec first.2 rest
    have := dec m c
    inferInstanceAs (Decidable (_ ∧ _))

instance (R : ProtocolRules S) (g : Geometry) (P : Machine S n → Call n → Prop)
    [dec : ∀ m c, Decidable (P m c)] (m : Machine S n) (calls : List (Call n)) :
    Decidable (Along R g P m calls) := Along.decidable R g P dec m calls

variable {R : ProtocolRules S} {g : Geometry} {m : Machine S n} {c : Call n}

theorem Along.tail {P : Machine S n → Call n → Prop} {rest : List (Call n)}
    (h : Along R g P m (c :: rest)) {first : Reply × Machine S n}
    (hfirst : c.perform R g m = some first) : Along R g P first.2 rest := by
  have hrest := h.2
  rw [hfirst] at hrest
  exact hrest

theorem Call.perform_isSome (hl : m.Listed) (hres : c.Resident g m) :
    (c.perform R g m).isSome := by
  cases c with
  | request id addr isWrite => rfl
  | transaction reqId type addr =>
    rw [perform, Option.isSome_map]
    exact handleBusTransaction_isSome R g hl reqId type addr hres

theorem Call.listed_perform (hl : m.Listed) {first : Reply × Machine S n}
    (h : c.perform R g m = some first) : first.2.Listed := by
  cases c with
  | request id addr isWrite =>
    obtain rfl := Option.some.inj h
    exact (listed_cacheLaws R g).when.request hl id addr isWrite
  | transaction reqId type addr =>
    obtain ⟨result, hbus, rfl⟩ := Option.map_eq_some_iff.mp h
    exact (listed_cacheLaws R g).when.bus hl (fun _ => trivial) hbus

theorem Along.imp {P Q : Machine S n → Call n → Prop} {calls : List (Call n)}
    (himp : ∀ m c, P m c → Q m c) (h : Along R g P m calls) : Along R g Q m calls := by
  induction calls generalizing m with
  | nil => trivial
  | cons c rest ih =>
    refine ⟨himp m c h.1, ?_⟩
    cases hfirst : c.perform R g m with
    | none => trivial
    | some first => exact ih (h.tail hfirst)

theorem runCalls_isSome {calls : List (Call n)} (hl : m.Listed)
    (hres : Along R g (Call.Resident g) m calls) : (runCalls R g m calls).isSome := by
  induction calls generalizing m with
  | nil => rfl
  | cons c rest ih =>
    obtain ⟨first, hfirst⟩ := Option.isSome_iff_exists.mp (Call.perform_isSome (R := R) hl hres.1)
    have hrest := ih (Call.listed_perform hl hfirst) (hres.tail hfirst)
    rw [runCalls, hfirst, Option.bind_some, Option.isSome_map]
    exact hrest

end

/-! ### SMART until its choice of a victim matters -/

namespace SmartCacheSet

def LineModified (set : CacheSet MESIState) (tag : Nat) : Prop :=
  (set.lines.lookup tag).map CacheLine.state = some .modified

instance (set : CacheSet MESIState) (tag : Nat) : Decidable (LineModified set tag) :=
  inferInstanceAs (Decidable (_ = _))

/-- The back entry of `lru_order` is a MODIFIED line, and some other entry has no line
or one that is not MODIFIED. -/
def CleanFirst (set : CacheSet MESIState) : Prop :=
  (∃ back ∈ set.lruOrder.getLast?, LineModified set back) ∧
    ∃ tag ∈ set.lruOrder.dropLast, ¬ LineModified set tag

instance (set : CacheSet MESIState) : Decidable (CleanFirst set) :=
  inferInstanceAs (Decidable (_ ∧ _))

theorem clean_iff (set : CacheSet MESIState) (tag : Nat) :
    clean (· == .modified) set.lines tag = true ↔ ¬ LineModified set tag := by
  unfold clean LineModified
  cases set.lines.lookup tag with
  | none => simp [blankLine, invalid]
  | some line => simp

theorem victimPos_of_not_cleanFirst {set : CacheSet MESIState} (h : ¬ CleanFirst set) :
    victimPos (· == .modified) set = set.lruOrder.length - 1 := by
  unfold victimPos
  cases hfind : set.lruOrder.reverse.findIdx? (clean (· == .modified) set.lines) with
  | none => rfl
  | some steps =>
    -- the scan stops at the back entry, or there is a clean one behind a MODIFIED one
    suffices hzero : steps = 0 by
      rw [hzero]
      rfl
    rcases List.eq_nil_or_concat set.lruOrder with hnil | ⟨init, back, hlru⟩
    · simp [hnil] at hfind
    · rw [hlru, List.concat_eq_append, List.reverse_append, List.reverse_singleton,
        List.singleton_append, List.findIdx?_cons] at hfind
      split at hfind
      · exact (Option.some.inj hfind).symm
      · rename_i hback
        rw [clean_iff, not_not] at hback
        obtain ⟨k, hk, -⟩ := Option.map_eq_some_iff.mp hfind
        obtain ⟨hlt, hclean, -⟩ := List.findIdx?_eq_some_iff_getElem.mp hk
        apply absurd _ h
        refine ⟨⟨back, by simp [hlru], hback⟩, init.reverse[k], ?_, (clean_iff _ _).mp hclean⟩
        rw [hlru, List.concat_eq_append, List.dropLast_concat]
        exact List.mem_reverse.mp (List.getElem_mem hlt)

theorem allocate_eq_lru {assoc : Nat} {set : CacheSet MESIState}
    (h : ¬ (assoc ≤ size set.lines ∧ CleanFirst set)) (tag : Nat) :
    smart.replacement.allocate assoc set tag = mesi.replacement.allocate assoc set tag := by
  rw [smart.replacement.allocate_eq, mesi.replacement.allocate_eq]
  split
  · rename_i hfull
    have hpos : smart.replacement.victimPos set = mesi.replacement.victimPos set :=
      victimPos_of_not_cleanFirst fun hclean => h ⟨hfull, hclean⟩
    rw [hpos]
  · rfl

end SmartCacheSet

/-- The call allocates in a full set in which the choice of SMART matters. -/
def Call.EvictsCleanFirst (g : Geometry) (m : Machine MESIState n) : Call n → Prop
  | .request _ _ _ => False
  | .transaction reqId type addr => type ≠ .writeback ∧ type ≠ .busUpgr ∧
      g.assoc ≤ size ((m.caches reqId).sets (g.setIdx addr)).lines ∧
      SmartCacheSet.CleanFirst ((m.caches reqId).sets (g.setIdx addr))

instance (g : Geometry) (m : Machine MESIState n) (c : Call n) :
    Decidable (c.EvictsCleanFirst g m) :=
  match c with
  | .request _ _ _ => inferInstanceAs (Decidable False)
  | .transaction _ _ _ => inferInstanceAs (Decidable (_ ∧ _ ∧ _ ∧ _))

theorem Call.perform_smart {g : Geometry} {m : Machine MESIState n} {c : Call n}
    (h : ¬ c.EvictsCleanFirst g m) : c.perform smart g m = c.perform mesi g m := by
  cases c with
  | request id addr isWrite => rfl
  | transaction reqId type addr =>
    have hsnoop : snoopAll smart g m reqId type addr = snoopAll mesi g m reqId type addr := rfl
    simp only [perform, handleBusTransaction, hsnoop]
    congr 1
    split
    · rfl
    · rename_i hw
      split
      · rfl
      · rename_i hu
        have hset : ((snoopAll mesi g m reqId type addr).machine.caches reqId) =
            m.caches reqId := by
          rw [snoopAll_caches, if_pos rfl]
        have hallocate : (m.caches reqId).allocate smart.replacement g addr =
            (m.caches reqId).allocate mesi.replacement g addr := by
          unfold Cache.allocate
          rw [SmartCacheSet.allocate_eq_lru]
          intro hclean
          exact h ⟨hw, hu, hclean⟩
        rw [Machine.updGlobal_caches, Machine.updGlobal_caches, hset, hallocate]
        rfl

theorem runCalls_smart {g : Geometry} {m : Machine MESIState n} {calls : List (Call n)}
    (h : Along mesi g (fun m c => ¬ c.EvictsCleanFirst g m) m calls) :
    runCalls smart g m calls = runCalls mesi g m calls := by
  induction calls generalizing m with
  | nil => rfl
  | cons c rest ih =>
    rw [runCalls, runCalls, Call.perform_smart h.1]
    cases hfirst : c.perform mesi g m with
    | none => rfl
    | some first => rw [Option.bind_some, Option.bind_some, ih (h.tail hfirst)]

/-- As long as no allocation has evicted from a set in which the choice matters, SMART
and MESI give the same replies and have the same machine. -/
theorem smart_eq_mesi (g : Geometry) (calls : List (Call n))
    (h : Along mesi g (fun m c => c.Resident g m ∧ ¬ c.EvictsCleanFirst g m) Machine.init calls) :
    (runCalls smart g Machine.init calls).isSome ∧
      runCalls smart g Machine.init calls = runCalls mesi g Machine.init calls := by
  have heq : runCalls smart g Machine.init calls = runCalls mesi g Machine.init calls :=
    runCalls_smart (h.imp fun m c hc => hc.2)
  refine ⟨?_, heq⟩
  rw [heq]
  exact runCalls_isSome Machine.listed_init (h.imp fun m c hc => hc.1)

/-- Core 0 fills its set, writes its blocks and evicts the older of them; core 1 joins in
with an upgrade. -/
def evictingCalls : List (Call 2) :=
  [.transaction 0 .busRdx 0, .transaction 0 .busRd 4, .transaction 1 .busRd 4, .request 0 4 true,
    .transaction 0 .busUpgr 4, .transaction 0 .busRd 8]

theorem smart_eq_mesi_evicting :
    Along mesi tinyConfig.geometry
      (fun m c => c.Resident tinyConfig.geometry m ∧ ¬ c.EvictsCleanFirst tinyConfig.geometry m)
      Machine.init evictingCalls ∧
    runCalls smart tinyConfig.geometry Machine.init evictingCalls =
      runCalls mesi tinyConfig.geometry Machine.init evictingCalls := by
  have h : Along mesi tinyConfig.geometry
      (fun m c => c.Resident tinyConfig.geometry m ∧ ¬ c.EvictsCleanFirst tinyConfig.geometry m)
      Machine.init evictingCalls := by decide +kernel
  exact ⟨h, (smart_eq_mesi tinyConfig.geometry evictingCalls h).2⟩

end CoherenceFormal
