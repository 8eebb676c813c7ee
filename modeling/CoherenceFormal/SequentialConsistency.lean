import CoherenceFormal.PerformedStores
import CoherenceFormal.Shared.SerialMemory

/-!
# Sequential consistency

An access completes in its own Fetch when it hits, and in the transaction that it waits for when
it does not. A core is blocked until its access has completed, and a transaction is carried out
in one step, so the order of completion is one order of all loads and stores that each core's
program agrees with. With the data of the copies kept together it is also the order in which a
single memory would have served them.
-/

namespace CoherenceFormal
open LineState SerialMemory
set_option autoImplicit false

variable {S : Type} [LineState S] {n : Nat}

def TraceEntry.access (cfg : Config) (i : Fin n) (entry : TraceEntry) : Access (Fin n) Block :=
  ⟨i, cfg.geometry.block entry.val, entry.isWrite⟩

/-- The access that a request is made for, as far as the bus can tell. -/
def BusRequest.access (cfg : Config) (req : BusRequest n) : Access (Fin n) Block :=
  ⟨req.coreId, cfg.geometry.block req.addr, req.type != .busRd⟩

/-- The loads and stores of a trace. -/
def loadsAndStores (cfg : Config) (i : Fin n) (trace : List TraceEntry) : List (Access (Fin n) Block) :=
  (trace.filter fun entry => entry.label != 2).map (TraceEntry.access cfg i)

omit [LineState S] in
theorem loadsAndStores_append (cfg : Config) (i : Fin n) (first later : List TraceEntry) :
    loadsAndStores cfg i (first ++ later) = loadsAndStores cfg i first ++ loadsAndStores cfg i later := by
  rw [loadsAndStores, List.filter_append, List.map_append]
  rfl

namespace Simulator

variable {cfg : Config} {R : ProtocolRules S} {s s' : Simulator S n} {e : Event n}

/-- The access of core `i` that hits in the move. -/
def hitBy (cfg : Config) (R : ProtocolRules S) (m : Move (Simulator S n) (Event n)) (i : Fin n) :
    Option (Access (Fin n) Block) :=
  ((executedBy i m).filter fun entry => entry.label != 2 &&
    (respond R entry.isWrite (m.before.machine.state i (cfg.geometry.block entry.val))).isHit).map
      (TraceEntry.access cfg i)

/-- The access that the move completes. -/
def completedBy (cfg : Config) (R : ProtocolRules S) (m : Move (Simulator S n) (Event n)) :
    Option (Access (Fin n) Block) :=
  match grantOf cfg m with
  | some req => some (req.access cfg)
  | none => (List.finRange n).findSome? (hitBy cfg R m)

/-- The accesses of a run in the order of their completion, the last one first. -/
def completed (cfg : Config) (R : ProtocolRules S)
    (h : List (Move (Simulator S n) (Event n))) : List (Access (Fin n) Block) :=
  h.filterMap (completedBy cfg R)

/-- The completed accesses, each with the contents of its core's copy. -/
def served (cfg : Config) (R : ProtocolRules S) (reflect : Bool) :
    List (Move (Simulator S n) (Event n)) → List (Served (Fin n) Block)
  | [] => []
  | m :: h => ((completedBy cfg R m).map fun a =>
      ⟨a, (contents cfg R reflect a.loc (m :: h)).copy a.core⟩).toList ++ served cfg R reflect h

/-- The accesses of core `i` that wait for the bus. -/
def waiting (cfg : Config) (s : Simulator S n) (i : Fin n) : List (Access (Fin n) Block) :=
  (s.busQueue.filter (·.coreId == i)).map (BusRequest.access cfg)

theorem completed_cons (m : Move (Simulator S n) (Event n))
    (h : List (Move (Simulator S n) (Event n))) :
    completed cfg R (m :: h) = (completedBy cfg R m).toList ++ completed cfg R h := by
  unfold completed
  cases hm : completedBy cfg R m <;> simp [hm]

theorem map_access_served (reflect : Bool) (h : List (Move (Simulator S n) (Event n))) :
    (served cfg R reflect h).map Served.access = completed cfg R h := by
  induction h with
  | nil => rfl
  | cons m h ih =>
    rw [completed_cons, served, List.map_append, ih]
    cases completedBy cfg R m <;> rfl

theorem completedBy_granted {m : Move (Simulator S n) (Event n)} {req : BusRequest n}
    (hg : grantOf cfg m = some req) : completedBy cfg R m = some (req.access cfg) := by
  simp [completedBy, hg]

theorem completedBy_none {m : Move (Simulator S n) (Event n)} (hg : grantOf cfg m = none)
    (hno : ∀ i, hitBy cfg R m i = none) : completedBy cfg R m = none := by
  simp [completedBy, hg, hno]

theorem hitBy_of_none {m : Move (Simulator S n) (Event n)} {i : Fin n}
    (h : executedBy i m = none) : hitBy cfg R m i = none := by
  simp [hitBy, h]

theorem completedBy_hit {m : Move (Simulator S n) (Event n)} {j : Fin n} {entry : TraceEntry}
    (hread : ∀ i, executedBy i m = if i = j then some entry else none) (hlabel : entry.label ≠ 2)
    (hhit : (respond R entry.isWrite
      (m.before.machine.state j (cfg.geometry.block entry.val))).isHit = true) :
    completedBy cfg R m = some (entry.access cfg j) := by
  have hg : grantOf cfg m = none := grantOf_of_executedBy (i := j) (by rw [hread, if_pos rfl])
  have hj : hitBy cfg R m j = some (entry.access cfg j) := by
    simp [hitBy, hread, hlabel, hhit]
  simp only [completedBy, hg]
  rw [List.findSome?_eq_some_iff]
  obtain ⟨before, after, hsplit⟩ := List.append_of_mem (List.mem_finRange j)
  refine ⟨before, j, after, hsplit, hj, ?_⟩
  intro i hi
  apply hitBy_of_none
  rw [hread, if_neg]
  rintro rfl
  have hnodup := List.nodup_finRange n
  rw [hsplit] at hnodup
  exact (List.nodup_append.mp hnodup).2.2 i hi i List.mem_cons_self rfl

/-- What a move does to the accesses of the cores. -/
inductive Serves (cfg : Config) (R : ProtocolRules S) (m : Move (Simulator S n) (Event n)) : Prop
    where
  | grant {req : BusRequest n} (granted : grantOf cfg m = some req)
      (none : ∀ i, executedBy i m = none)
      (queue : m.after.busQueue = m.before.busQueue.erase req)
  | hit {t : Nat} {j : Fin n} {entry : TraceEntry}
      (pending : .fetch t j ∈ m.before.eventQueue)
      (read : ∀ i, executedBy i m = if i = j then some entry else none) (label : entry.label ≠ 2)
      (resp : respond R entry.isWrite
        (m.before.machine.state j (cfg.geometry.block entry.val)) = ⟨true, .none⟩)
      (queue : m.after.busQueue = m.before.busQueue)
  | miss {j : Fin n} {entry : TraceEntry} {req : BusRequest n}
      (read : ∀ i, executedBy i m = if i = j then some entry else none) (label : entry.label ≠ 2)
      (resp : (respond R entry.isWrite
        (m.before.machine.state j (cfg.geometry.block entry.val))).isHit = false)
      (access : req.access cfg = entry.access cfg j)
      (queue : m.after.busQueue = m.before.busQueue ++ [req])
  | quiet (grant : grantOf cfg m = none)
      (idle : ∀ i entry, executedBy i m = some entry → entry.label = 2)
      (queue : m.after.busQueue = m.before.busQueue)

theorem serves_fired (hR : TellsStores R) (he : e ∈ s.eventQueue)
    (hf : Fired cfg R (s.pop e) e s') : Serves cfg R ⟨s, e, s'⟩ := by
  cases hf with
  | idle h =>
    exact .quiet (grantOf_idle h) (fun i entry h => by simp [executedBy] at h) rfl
  | @grant t req latency machine free first bus =>
    exact .grant (grantOf_grant _ free first) (fun i => rfl) rfl
  | stalled blocked =>
    rw [pop_blocked] at blocked
    refine .quiet rfl (fun i entry h => ?_) rfl
    rw [executedBy_idle (.inl blocked)] at h
    simp at h
  | exhausted running done =>
    rw [pop_traces] at done
    refine .quiet rfl (fun i entry h => ?_) rfl
    rw [executedBy_idle (.inr done)] at h
    simp at h
  | compute running read label =>
    rw [pop_traces] at read
    rw [pop_blocked] at running
    refine .quiet rfl (fun i entry h => ?_) rfl
    rw [executedBy_read running read] at h
    split at h
    · obtain rfl := Option.some.inj h
      exact label
    · simp at h
  | @hit t j entry rest running read label resp =>
    rw [pop_traces] at read
    rw [pop_blocked] at running
    rw [pop_machine] at resp
    exact .hit he (executedBy_read running read) label resp rfl
  | @miss t j entry rest running read label resp =>
    rw [pop_traces] at read
    rw [pop_blocked] at running
    rw [pop_machine] at resp
    refine .miss (executedBy_read running read) label resp ?_ rfl
    simp [BusRequest.access, TraceEntry.access, access_response, hR.of_miss resp]
  | _ => exact .quiet rfl (fun i entry h => by simp [executedBy] at h) rfl

theorem completedBy_miss {m : Move (Simulator S n) (Event n)} {j : Fin n} {entry : TraceEntry}
    (hread : ∀ i, executedBy i m = if i = j then some entry else none)
    (hmiss : (respond R entry.isWrite
      (m.before.machine.state j (cfg.geometry.block entry.val))).isHit = false) :
    completedBy cfg R m = none := by
  refine completedBy_none (grantOf_of_executedBy (i := j) (by rw [hread, if_pos rfl])) ?_
  intro i
  by_cases hij : i = j
  · subst hij
    simp [hitBy, hread, hmiss]
  · exact hitBy_of_none (by rw [hread, if_neg hij])

theorem completedBy_quiet {m : Move (Simulator S n) (Event n)} (hg : grantOf cfg m = none)
    (hidle : ∀ i entry, executedBy i m = some entry → entry.label = 2) :
    completedBy cfg R m = none := by
  apply completedBy_none hg
  intro i
  cases hread : executedBy i m with
  | none => exact hitBy_of_none hread
  | some entry => simp [hitBy, hread, hidle i entry hread]

/-! ### Program order -/

omit [LineState S] in
theorem waiting_eq_nil {i : Fin n} (h : ∀ req ∈ s.busQueue, i ≠ req.coreId) :
    waiting cfg s i = [] := by
  rw [waiting, List.filter_eq_nil_iff.mpr]
  · rfl
  · intro req hreq
    simpa using (h req hreq).symm

omit [LineState S] in
/-- The request that is taken out of the queue is the only one of its core. -/
theorem waiting_erase (htok : s.TokenInv) {req : BusRequest n} (hreq : req ∈ s.busQueue)
    (hq : s'.busQueue = s.busQueue.erase req) (i : Fin n) :
    waiting cfg s i = (if req.coreId = i then [req.access cfg] else []) ++ waiting cfg s' i := by
  have hrest : s'.busQueue.filter (·.coreId == i) = (s.busQueue.filter (·.coreId == i)).erase req := by
    rw [hq, List.erase_filter]
  rw [waiting, waiting, hrest]
  by_cases hi : req.coreId = i
  · have hone : (s.busQueue.filter (·.coreId == i)).length = 1 := by
      rw [← List.countP_eq_length_filter, ← hi]
      exact (InSituation.of_request (htok.situated req.coreId) hreq).2.2.1
    obtain ⟨a, ha⟩ := List.length_eq_one_iff.mp hone
    have hmem : req ∈ s.busQueue.filter (·.coreId == i) := List.mem_filter.mpr ⟨hreq, by simp [hi]⟩
    rw [ha] at hmem ⊢
    obtain rfl := List.mem_singleton.mp hmem
    simp [hi]
  · rw [List.erase_of_not_mem, if_neg hi, List.nil_append]
    simp [hi]

theorem program_serves {m : Move (Simulator S n) (Event n)} (htok : m.before.TokenInv)
    (h : Serves cfg R m) (i : Fin n) :
    ofCore i (completedBy cfg R m).toList ++ waiting cfg m.after i =
      waiting cfg m.before i ++ loadsAndStores cfg i (executedBy i m).toList := by
  cases h with
  | @grant req granted none queue =>
    rw [completedBy_granted granted, none, waiting_erase htok (grantOf_mem granted) queue]
    simp only [Option.toList_some, Option.toList_none, ofCore_singleton, BusRequest.access]
    exact (List.append_nil _).symm
  | @hit t j entry pending read label resp queue =>
    rw [completedBy_hit read label (by rw [resp]), read]
    simp only [Option.toList_some, ofCore_singleton, TraceEntry.access]
    by_cases hij : j = i
    · subst hij
      have hnone : waiting cfg m.before j = [] :=
        waiting_eq_nil fun req hreq => htok.fetch_not_waiting pending hreq
      have hnone' : waiting cfg m.after j = [] := by
        rwa [waiting, queue]
      simp [hnone, hnone', loadsAndStores, label, TraceEntry.access]
    · simp [hij, Ne.symm hij, waiting, queue, loadsAndStores]
  | @miss j entry req read label resp access queue =>
    rw [completedBy_miss read resp, read]
    have hcore : req.coreId = j := congrArg Access.core access
    by_cases hij : j = i
    · subst hij
      simp [waiting, queue, loadsAndStores, label, access, hcore, ofCore]
    · simp [waiting, queue, loadsAndStores, hij, Ne.symm hij, hcore, ofCore]
  | quiet grant idle queue =>
    have hnone : loadsAndStores cfg i (executedBy i m).toList = [] := by
      cases hread : executedBy i m with
      | none => rfl
      | some entry => simp [loadsAndStores, idle i entry hread]
    rw [completedBy_quiet grant idle, hnone, List.append_nil, waiting, queue]
    rfl

/-- The loads and stores that a core has executed are those it has completed, in the order of
their completion, and then the one it waits for. -/
theorem program_run (hR : TellsStores R) {traces : Fin n → List TraceEntry}
    {h : List (Move (Simulator S n) (Event n))} (hr : (system cfg R traces).Run h s) (i : Fin n) :
    loadsAndStores cfg i (executed i h) = ofCore i (completed cfg R h) ++ waiting cfg s i := by
  refine hr.history (J := TokenInv) (K := fun h s =>
    loadsAndStores cfg i (executed i h) = ofCore i (completed cfg R h) ++ waiting cfg s i) ?_ ?_ ?_
  · intro s hs
    exact tokenInv_reached hR.missFills hs
  · intro s hs
    subst hs
    rfl
  · intro h s e s' hstep htok ih
    obtain ⟨he, -, hf⟩ := fired_of_step hstep
    have hmove := program_serves htok (serves_fired hR he hf) i
    rw [executed_cons, loadsAndStores_append, ih, completed_cons, ofCore_append, List.append_assoc,
      List.append_assoc, hmove]

/-! ### One memory -/

/-- The stores performed on a block are the completed stores. -/
theorem storer_serves {m : Move (Simulator S n) (Event n)}
    (types : ∀ req ∈ m.before.busQueue, req.type.requestable) (h : Serves cfg R m) (b : Block) :
    (actionOf cfg R m b).storer.toList = content b (completedBy cfg R m).toList := by
  cases h with
  | @grant req granted none queue =>
    rw [storer_of_grant granted (types req (grantOf_mem granted)), completedBy_granted granted,
      Option.toList_some, content_singleton]
    simp only [BusRequest.access, bne_iff_ne, eq_comm (a := b)]
    split <;> rfl
  | @hit t j entry pending read label resp queue =>
    rw [storer_of_hit read (by rw [resp]), completedBy_hit read label (by rw [resp]),
      Option.toList_some, content_singleton]
    simp only [TraceEntry.access, TraceEntry.storesTo, Bool.and_eq_true, beq_iff_eq,
      eq_comm (a := b)]
    by_cases hs : entry.isWrite = true ∧ cfg.geometry.block entry.val = b <;> simp [hs]
  | @miss j entry req read label resp access queue =>
    rw [completedBy_miss read resp, storer_of_none (grantOf_of_executedBy (i := j)
      (by rw [read, if_pos rfl]))]
    · rfl
    · intro i hi
      obtain ⟨entry', hread, hw, hb, hhit⟩ := hitsStore_eq_true.mp hi
      rw [read] at hread
      split at hread
      · rename_i hij
        subst hij
        obtain rfl := Option.some.inj hread
        rw [hw, ← hb, hhit] at resp
        simp at resp
      · simp at hread
  | quiet grant idle queue =>
    rw [completedBy_quiet grant idle, storer_of_none grant]
    · rfl
    · intro i hi
      obtain ⟨entry, hread, hw, -⟩ := hitsStore_eq_true.mp hi
      have hlabel := idle i entry hread
      simp [TraceEntry.isWrite, hlabel] at hw

theorem storesTo_eq_content (hR : TellsStores R) {traces : Fin n → List TraceEntry}
    {h : List (Move (Simulator S n) (Event n))} (hr : (system cfg R traces).Run h s) (b : Block) :
    storesTo cfg R b h = content b (completed cfg R h) := by
  induction hr with
  | start => rfl
  | @next h s s' e hr hs ih =>
    obtain ⟨he, -, hf⟩ := fired_of_step hs
    have htok := tokenInv_reached hR.missFills hr.reached
    have hserves := serves_fired hR he hf
    rw [storesTo_cons, completed_cons, content_append, ih, storer_serves htok.types hserves]

/-- The copy of a core whose access has just been completed is valid. -/
theorem valid_serves {ready : BusTransactionType → S → Prop} {compatible : S → S → Prop}
    (laws : DataLaws R ready compatible) {m : Move (Simulator S n) (Event n)}
    (hstep : ∀ b, BlockStep R ready (m.before.machine.copies b) (actionOf cfg R m b)
      (m.after.machine.copies b))
    (h : Serves cfg R m) {a : Access (Fin n) Block} (ha : completedBy cfg R m = some a) :
    m.after.machine.state a.core a.loc ≠ invalid := by
  cases h with
  | @grant req granted none queue =>
    rw [completedBy_granted granted] at ha
    obtain rfl := Option.some.inj ha
    exact requester_valid laws (hstep _) (actionOf_granted granted)
  | @hit t j entry pending read label resp queue =>
    rw [completedBy_hit read label (by rw [resp])] at ha
    obtain rfl := Option.some.inj ha
    exact valid_of_hit laws (hstep _) ((read j).trans (if_pos rfl)) (congrArg _ resp)
  | miss read label resp access queue =>
    rw [completedBy_miss read resp] at ha
    simp at ha
  | quiet grant idle queue =>
    rw [completedBy_quiet grant idle] at ha
    simp at ha

theorem serial_run (p : ProtocolName) (hp : p ≠ .dragon) (reflect : Bool)
    {traces : Fin n → List TraceEntry} {h : List (Move (Simulator p.State n) (Event n))}
    {s : Simulator p.State n} (hr : (system cfg p.rules traces).Run h s)
    (hup : ∀ m ∈ h, overtakes cfg m = false) (hread : ReadsKept cfg p reflect h) :
    Serial (served cfg p.rules reflect h) := by
  induction hr with
  | start => trivial
  | @next h s s' e hr hs ih =>
    have hbefore := ih (fun m hm => hup m (List.mem_cons_of_mem _ hm))
      (hread.of_subset fun m hm => List.mem_cons_of_mem _ hm)
    have hafter : (system cfg p.rules traces).Run (⟨s, e, s'⟩ :: h) s' := hr.next hs
    have hR := ProtocolName.tellsStores hp
    obtain ⟨he, -, hf⟩ := fired_of_step hs
    obtain ⟨ready, compatible, laws, -, hready⟩ := dataLaws_run p hafter (.inr hup)
    have hstep := blockStep_fired (tokenInv_reached p.missFills hr.reached)
      (hready _ List.mem_cons_self) hf
    rw [served]
    cases hdone : completedBy cfg p.rules ⟨s, e, s'⟩ with
    | none => exact hbefore
    | some a =>
      refine ⟨?_, hbefore⟩
      have hvalid := valid_serves laws hstep (serves_fired hR he hf) hdone
      have hcopy := (upToDate_run p reflect hafter (.inr hup) hread a.loc).copy a.core hvalid
      rw [storesTo_eq_content hR hafter, completed_cons, hdone] at hcopy
      change (contents cfg p.rules reflect a.loc (⟨s, e, s'⟩ :: h)).copy a.core =
        content a.loc (a :: (served cfg p.rules reflect h).map Served.access)
      rw [map_access_served]
      exact hcopy

/-- In a run in which no upgrade is granted on a dead copy and reads keep dirty data, the order
of completion is serial. Each core has completed the loads and stores of its trace in program
order, as far as it has executed them, save one that may wait for the bus. At the end of a run
the traces have been executed with sequential consistency. -/
theorem sequentially_consistent (p : ProtocolName) (hp : p ≠ .dragon) (reflect : Bool)
    (cfg : Config) (traces : Fin n → List TraceEntry)
    {h : List (Move (Simulator p.State n) (Event n))} {s : Simulator p.State n}
    (hr : (system cfg p.rules traces).Run h s) (hup : ∀ m ∈ h, overtakes cfg m = false)
    (hread : ReadsKept cfg p reflect h) :
    Serial (served cfg p.rules reflect h) ∧
    (∀ i, (waiting cfg s i).length ≤ 1 ∧ loadsAndStores cfg i (executed i h) =
      ofCore i ((served cfg p.rules reflect h).map Served.access) ++ waiting cfg s i) ∧
    (s.ended = true → SequentiallyConsistent (fun i => loadsAndStores cfg i (traces i))
      (served cfg p.rules reflect h)) := by
  have hserial := serial_run p hp reflect hr hup hread
  have hprogram := program_run (ProtocolName.tellsStores hp) hr
  rw [map_access_served]
  refine ⟨hserial, ?_, ?_⟩
  · intro i
    refine ⟨?_, hprogram i⟩
    rw [waiting, List.length_map, ← List.countP_eq_length_filter]
    obtain ⟨k, hk⟩ := (tokenInv_reached p.missFills hr.reached).situated i
    cases k <;> simp only [InSituation, requests] at hk <;> omega
  · intro hend
    refine ⟨?_, hserial⟩
    intro i
    have hnone : waiting cfg s i = [] := by
      rw [waiting, (idle_of_ended p.missFills hr.reached hend).2.2]
      rfl
    rw [map_access_served, ← executed_of_ended p.missFills hr hend i, hprogram i, hnone,
      List.append_nil]

/-- Core 1 loads what core 0 has stored, and finds one store. -/
theorem sequentially_consistent_storeAndLoad :
    ∃ (h : List (Move (Simulator MOESIState 2) (Event 2))) (s : Simulator MOESIState 2),
      (system tinyConfig (ProtocolName.rules .moesi) storeAndLoad).Run h s ∧ s.ended = true ∧
      SequentiallyConsistent (fun i => loadsAndStores tinyConfig i (storeAndLoad i))
        (served tinyConfig (ProtocolName.rules .moesi) false h) ∧
      ⟨⟨1, tinyConfig.geometry.block 0, false⟩, [0]⟩ ∈
        served tinyConfig (ProtocolName.rules .moesi) false h := by
  obtain ⟨h, s, hr, ht⟩ := exists_run tinyConfig (ProtocolName.rules .moesi) storeAndLoad
    [.fetch 0 0, .busArbitration 0, .fetch 0 1, .busRelease 101, .busArbitration 101,
      .coreUnblock 101 0, .fetch 101 0, .busRelease 104, .coreUnblock 104 1, .fetch 104 1]
    (fun h s => s.ended && h.all (fun m => !overtakes tinyConfig m) &&
      decide (⟨⟨1, tinyConfig.geometry.block 0, false⟩, [0]⟩ ∈
        served tinyConfig (ProtocolName.rules .moesi) false h)) (by decide +kernel)
  simp only [Bool.and_eq_true, List.all_eq_true, Bool.not_eq_true', decide_eq_true_eq] at ht
  obtain ⟨⟨hend, hno⟩, hmem⟩ := ht
  exact ⟨h, s, hr, hend, (sequentially_consistent .moesi (by decide) false tinyConfig storeAndLoad
    hr hno (.inr (.inl rfl))).2.2 hend, hmem⟩

end Simulator
end CoherenceFormal
