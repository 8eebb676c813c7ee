import CoherenceFormal.SimulatorSteps

/-!
# One token per core

A core's progress is a token that moves through the event heap, the bus queue and
the `blocked` flag: a pending Fetch, a queued request, a pending Unblock, or
nothing once its trace is exhausted. No event drops or doubles it.
-/

namespace CoherenceFormal
open LineState
set_option autoImplicit false

variable {S : Type} {n : Nat}

theorem eq_of_countP_eq_one {α : Type} {p : α → Bool} {l : List α} (h : l.countP p = 1) {a b : α}
    (ha : a ∈ l) (hpa : p a = true) (hb : b ∈ l) (hpb : p b = true) : a = b := by
  rw [List.countP_eq_length_filter] at h
  obtain ⟨c, hc⟩ := List.length_eq_one_iff.mp h
  have hac : a ∈ l.filter p := List.mem_filter.mpr ⟨ha, hpa⟩
  have hbc : b ∈ l.filter p := List.mem_filter.mpr ⟨hb, hpb⟩
  rw [hc, List.mem_singleton] at hac hbc
  rw [hac, hbc]

namespace Event

def isFetchOf (i : Fin n) : Event n → Bool
  | fetch _ j => j == i
  | _ => false

def isUnblockOf (i : Fin n) : Event n → Bool
  | coreUnblock _ j => j == i
  | _ => false

def isRelease : Event n → Bool
  | busRelease _ => true
  | _ => false

end Event

namespace Simulator

def fetches (s : Simulator S n) (i : Fin n) : Nat := s.eventQueue.countP (Event.isFetchOf i)

def unblocks (s : Simulator S n) (i : Fin n) : Nat := s.eventQueue.countP (Event.isUnblockOf i)

def requests (s : Simulator S n) (i : Fin n) : Nat := s.busQueue.countP (·.coreId == i)

/-- The four places of a core's token. -/
inductive Situation where
  | running
  | waiting
  | served
  | done
  deriving DecidableEq

def InSituation (s : Simulator S n) (i : Fin n) : Situation → Prop
  | .running => s.fetches i = 1 ∧ s.unblocks i = 0 ∧ s.requests i = 0 ∧ s.blocked i = false
  | .waiting => s.fetches i = 0 ∧ s.unblocks i = 0 ∧ s.requests i = 1 ∧ s.blocked i = true
  | .served => s.fetches i = 0 ∧ s.unblocks i = 1 ∧ s.requests i = 0 ∧ s.blocked i = true
  | .done => s.fetches i = 0 ∧ s.unblocks i = 0 ∧ s.requests i = 0 ∧ s.traceExhausted i = true

theorem inSituation_unique {s : Simulator S n} {i : Fin n} {k k' : Situation}
    (h : s.InSituation i k) (h' : s.InSituation i k') : k' = k := by
  cases k <;> cases k' <;> simp only [InSituation] at h h' <;> first | rfl | omega

def Situated (s : Simulator S n) (i : Fin n) : Prop := ∃ k, s.InSituation i k

theorem Situated.of_same {s s' : Simulator S n} {i : Fin n} (h : s.Situated i)
    (hf : s'.fetches i = s.fetches i) (hu : s'.unblocks i = s.unblocks i)
    (hq : s'.requests i = s.requests i) (hb : s'.blocked i = s.blocked i)
    (hx : s'.traceExhausted i = s.traceExhausted i) : s'.Situated i := by
  obtain ⟨k, h⟩ := h
  refine ⟨k, ?_⟩
  cases k <;> simpa only [InSituation, hf, hu, hq, hb, hx] using h

/-- Counting events after `e` has been popped and `new` scheduled. -/
theorem countP_scheduled {s : Simulator S n} (s' : Simulator S n) {e : Event n}
    (he : e ∈ s.eventQueue) (new : List (Event n)) (hq : s'.eventQueue = new ++ (s.pop e).eventQueue)
    (p : Event n → Bool) :
    s'.eventQueue.countP p + (if p e then 1 else 0) = s.eventQueue.countP p + new.countP p := by
  have hpop : s.eventQueue.countP p =
      (s.pop e).eventQueue.countP p + if p e then 1 else 0 := by
    rw [(List.perm_cons_erase he).countP_eq, List.countP_cons]
    rfl
  rw [hq, List.countP_append, hpop]
  omega

/-- A token stays where it is when the event schedules as many of its kind as it was. -/
theorem Situated.of_balance {s s' : Simulator S n} {e : Event n} {j : Fin n} (h : s.Situated j)
    (he : e ∈ s.eventQueue) (new : List (Event n))
    (hq : s'.eventQueue = new ++ (s.pop e).eventQueue)
    (hf : new.countP (Event.isFetchOf j) = if e.isFetchOf j then 1 else 0)
    (hu : new.countP (Event.isUnblockOf j) = if e.isUnblockOf j then 1 else 0)
    (hreq : s'.requests j = s.requests j) (hb : s'.blocked j = s.blocked j)
    (hx : s'.traceExhausted j = s.traceExhausted j) : s'.Situated j := by
  have hfetch := countP_scheduled s' he new hq (Event.isFetchOf j)
  have hunblock := countP_scheduled s' he new hq (Event.isUnblockOf j)
  rw [hf] at hfetch
  rw [hu] at hunblock
  exact h.of_same (Nat.add_right_cancel hfetch) (Nat.add_right_cancel hunblock) hreq hb hx

theorem requests_erase {s : Simulator S n} {req : BusRequest n} (h : req ∈ s.busQueue)
    (i : Fin n) : s.requests i =
      (s.busQueue.erase req).countP (·.coreId == i) + if req.coreId = i then 1 else 0 := by
  rw [requests, (List.perm_cons_erase h).countP_eq, List.countP_cons]
  simp

/-- A pending Fetch of `i` is its token. -/
theorem InSituation.of_fetch {s : Simulator S n} {t : Nat} {i : Fin n} (h : s.Situated i)
    (he : .fetch t i ∈ s.eventQueue) : s.InSituation i .running := by
  have hpos : 0 < s.fetches i :=
    List.countP_pos_iff.mpr ⟨_, he, by simp [Event.isFetchOf]⟩
  obtain ⟨k, hk⟩ := h
  cases k <;> simp only [InSituation] at hk ⊢ <;> first | exact hk | omega

theorem InSituation.of_unblock {s : Simulator S n} {t : Nat} {i : Fin n} (h : s.Situated i)
    (he : .coreUnblock t i ∈ s.eventQueue) : s.InSituation i .served := by
  have hpos : 0 < s.unblocks i :=
    List.countP_pos_iff.mpr ⟨_, he, by simp [Event.isUnblockOf]⟩
  obtain ⟨k, hk⟩ := h
  cases k <;> simp only [InSituation] at hk ⊢ <;> first | exact hk | omega

theorem InSituation.of_request {s : Simulator S n} {req : BusRequest n}
    (h : s.Situated req.coreId) (he : req ∈ s.busQueue) : s.InSituation req.coreId .waiting := by
  have hpos : 0 < s.requests req.coreId := List.countP_pos_iff.mpr ⟨_, he, by simp⟩
  obtain ⟨k, hk⟩ := h
  cases k <;> simp only [InSituation] at hk ⊢ <;> first | exact hk | omega

end Simulator

/-- The types of transaction that a request can have. -/
def BusTransactionType.requestable (type : BusTransactionType) : Prop :=
  type = .busRd ∨ type = .busRdx ∨ type = .busUpgr

instance (type : BusTransactionType) : Decidable type.requestable :=
  inferInstanceAs (Decidable (_ ∨ _ ∨ _))

theorem BusTransactionType.requestable.ne_writeback {type : BusTransactionType}
    (h : type.requestable) : type ≠ .writeback := by
  rcases h with rfl | rfl | rfl <;> decide

theorem BusTransactionType.ne_busUpgr_of_fill {type : BusTransactionType}
    (h : type = .busRd ∨ type = .busRdx) : type ≠ .busUpgr := by
  rcases h with rfl | rfl <;> decide

namespace Simulator

structure TokenInv (s : Simulator S n) : Prop where
  situated : ∀ i, s.Situated i
  types : ∀ req ∈ s.busQueue, req.type.requestable

theorem tokenInv_start (traces : Fin n → List TraceEntry) :
    (start traces : Simulator S n).TokenInv := by
  refine ⟨fun i => ⟨.running, ?_⟩, by simp [start]⟩
  refine ⟨?_, ?_, rfl, rfl⟩
  · have hcount := List.count_eq_one_of_mem (List.nodup_finRange n) (List.mem_finRange i)
    rw [fetches, start, List.countP_map]
    exact hcount
  · rw [unblocks, start, List.countP_map]
    exact List.countP_eq_zero.mpr (by simp [Event.isUnblockOf])

/-- A core has no second request in the queue. -/
theorem TokenInv.request_unique {s : Simulator S n} (hinv : s.TokenInv) {req req' : BusRequest n}
    (h : req ∈ s.busQueue) (h' : req' ∈ s.busQueue.erase req) : req'.coreId ≠ req.coreId := by
  intro heq
  have hw := InSituation.of_request (hinv.situated req.coreId) h
  have hcount := requests_erase h req.coreId
  have hpos : 0 < (s.busQueue.erase req).countP (·.coreId == req.coreId) :=
    List.countP_pos_iff.mpr ⟨req', h', by simp [heq]⟩
  simp only [InSituation, if_true] at hw hcount
  omega

theorem TokenInv.request_eq {s : Simulator S n} (hinv : s.TokenInv) {req req' : BusRequest n}
    (h : req ∈ s.busQueue) (h' : req' ∈ s.busQueue) (hcore : req'.coreId = req.coreId) :
    req = req' := by
  have hwait := InSituation.of_request (hinv.situated req.coreId) h
  exact eq_of_countP_eq_one hwait.2.2.1 h (by simp) h' (by simp [hcore])

/-- A core that is about to fetch has no request in the queue. -/
theorem TokenInv.fetch_not_waiting {s : Simulator S n} (hinv : s.TokenInv) {t : Nat} {i : Fin n}
    (he : .fetch t i ∈ s.eventQueue) {req : BusRequest n} (hreq : req ∈ s.busQueue) :
    i ≠ req.coreId := by
  rintro rfl
  have hrun := InSituation.of_fetch (hinv.situated _) he
  have hwait := InSituation.of_request (hinv.situated _) hreq
  simp only [InSituation] at hrun hwait
  omega

variable {s : Simulator S n}

theorem situated_granted {t latency : Nat} {req : BusRequest n} {machine : Machine S n}
    (hinv : s.TokenInv) (he : .busArbitration t ∈ s.eventQueue) (hreq : req ∈ s.busQueue)
    (j : Fin n) : ((s.pop (.busArbitration t)).granted t req latency machine).Situated j := by
  have hj := hinv.situated j
  have htype := (hinv.types req hreq).ne_writeback
  have hq := granted_eventQueue (s.pop (.busArbitration t)) t latency machine htype
  have hcount := requests_erase hreq j
  by_cases hij : req.coreId = j
  · subst hij
    have hf := countP_scheduled _ he _ hq (Event.isFetchOf req.coreId)
    have hu := countP_scheduled _ he _ hq (Event.isUnblockOf req.coreId)
    have hw := InSituation.of_request hj hreq
    simp only [Event.isFetchOf, Event.isUnblockOf, List.countP_cons, List.countP_nil,
      Bool.false_eq_true, if_false, Nat.add_zero, beq_self_eq_true, if_true] at hf hu
    simp only [InSituation, fetches, unblocks, if_true] at hw hcount
    refine ⟨.served, ?_, ?_, ?_, hw.2.2.2⟩
    · exact hf.trans hw.1
    · exact hu.trans (by omega)
    · change (s.busQueue.erase req).countP _ = 0
      omega
  · rw [if_neg hij, Nat.add_zero] at hcount
    exact hj.of_balance he _ hq (by simp [Event.isFetchOf]) (by simp [Event.isUnblockOf, hij])
      hcount.symm rfl rfl

theorem situated_unblocked {t : Nat} {i : Fin n} (hinv : s.TokenInv)
    (he : .coreUnblock t i ∈ s.eventQueue) (j : Fin n) :
    ((s.pop (.coreUnblock t i)).coreUnblock t i).Situated j := by
  have hj := hinv.situated j
  by_cases hij : i = j
  · subst hij
    have hf := countP_scheduled ((s.pop (.coreUnblock t i)).coreUnblock t i) he
      [.fetch t i] rfl (Event.isFetchOf i)
    have hu := countP_scheduled ((s.pop (.coreUnblock t i)).coreUnblock t i) he
      [.fetch t i] rfl (Event.isUnblockOf i)
    have hw := InSituation.of_unblock hj he
    simp only [Event.isFetchOf, Event.isUnblockOf, List.countP_cons, List.countP_nil,
      Bool.false_eq_true, if_false, Nat.add_zero, beq_self_eq_true, if_true] at hf hu
    simp only [InSituation, fetches, unblocks] at hw
    refine ⟨.running, ?_, ?_, hw.2.2.1, by simp [coreUnblock, schedule]⟩
    · exact hf.trans (by omega)
    · change (coreUnblock _ t i).eventQueue.countP _ = 0
      omega
  · exact hj.of_balance he [.fetch t i] rfl (by simp [Event.isFetchOf, hij])
      (by simp [Event.isUnblockOf, hij]) rfl (by simp [coreUnblock, schedule, Ne.symm hij]) rfl

theorem situated_exhausted {t : Nat} {i : Fin n} (hinv : s.TokenInv)
    (he : .fetch t i ∈ s.eventQueue) (j : Fin n) :
    { s.pop (.fetch t i) with
      traceExhausted := Function.update s.traceExhausted i true }.Situated j := by
  have hj := hinv.situated j
  by_cases hij : i = j
  · subst hij
    have hf := countP_scheduled (s.pop (.fetch t i)) he [] rfl (Event.isFetchOf i)
    have hu := countP_scheduled (s.pop (.fetch t i)) he [] rfl (Event.isUnblockOf i)
    have hr := InSituation.of_fetch hj he
    simp only [Event.isFetchOf, Event.isUnblockOf, List.countP_nil, Bool.false_eq_true, if_false,
      Nat.add_zero, beq_self_eq_true, if_true] at hf hu
    simp only [InSituation, fetches, unblocks] at hr
    refine ⟨.done, ?_, hu.trans hr.2.1, hr.2.2.1, by simp⟩
    change (s.pop (.fetch t i)).eventQueue.countP _ = 0
    omega
  · exact hj.of_balance he [] rfl (by simp [Event.isFetchOf, hij]) (by simp [Event.isUnblockOf])
      rfl rfl (Function.update_of_ne (Ne.symm hij) _ _)

end Simulator

variable [LineState S]

/-- A miss asks for a fill. -/
def ProtocolRules.MissFills (R : ProtocolRules S) : Prop :=
  ∀ isWrite, R.missAction isWrite = .busRd ∨ R.missAction isWrite = .busRdx

instance (R : ProtocolRules S) : Decidable R.MissFills := inferInstanceAs (Decidable (∀ _, _))

theorem mesi_missFills : mesi.MissFills := by decide

theorem smart_missFills : smart.MissFills := mesi_missFills

theorem mesif_missFills : mesif.MissFills := by decide

theorem moesi_missFills : moesi.MissFills := by decide

theorem dragon_missFills : dragon.MissFills := by decide

theorem ProtocolName.missFills (p : ProtocolName) : p.rules.MissFills := by
  cases p with
  | mesi => exact mesi_missFills
  | dragon => exact dragon_missFills
  | mesif => exact mesif_missFills
  | smart => exact smart_missFills
  | moesi => exact moesi_missFills

namespace Simulator

variable {cfg : Config} {R : ProtocolRules S} {s : Simulator S n}

theorem situated_missed {t : Nat} {i : Fin n} {entry : TraceEntry} {rest : List TraceEntry}
    (hinv : s.TokenInv) (he : .fetch t i ∈ s.eventQueue) (j : Fin n) :
    ((s.pop (.fetch t i)).missed cfg R t i entry rest).Situated j := by
  have hj := hinv.situated j
  have hnew (p : Event n → Bool) (hp : p (.busArbitration t) = false) :
      (if s.busBusy then [] else [Event.busArbitration t]).countP p = 0 := by
    cases s.busBusy <;> simp [hp]
  by_cases hij : i = j
  · subst hij
    have hf := countP_scheduled ((s.pop (.fetch t i)).missed cfg R t i entry rest) he
      (if s.busBusy then [] else [.busArbitration t]) rfl (Event.isFetchOf i)
    have hu := countP_scheduled ((s.pop (.fetch t i)).missed cfg R t i entry rest) he
      (if s.busBusy then [] else [.busArbitration t]) rfl (Event.isUnblockOf i)
    have hr := InSituation.of_fetch hj he
    rw [hnew _ rfl] at hf hu
    simp only [Event.isFetchOf, Event.isUnblockOf, Bool.false_eq_true, if_false, Nat.add_zero,
      beq_self_eq_true, if_true] at hf hu
    simp only [InSituation, fetches, unblocks, requests] at hr
    refine ⟨.waiting, ?_, hu.trans hr.2.1, ?_, by simp [missed]⟩
    · change (missed cfg R _ t i entry rest).eventQueue.countP _ = 0
      omega
    · simp only [requests, missed, pop_busQueue, List.countP_append, List.countP_cons,
        List.countP_nil, beq_self_eq_true, if_true]
      omega
  · exact hj.of_balance he (if s.busBusy then [] else [.busArbitration t]) rfl
      (by rw [hnew _ rfl]; simp [Event.isFetchOf, hij])
      (by rw [hnew _ rfl]; simp [Event.isUnblockOf]) (by simp [requests, missed, hij])
      (Function.update_of_ne (Ne.symm hij) _ _) rfl

/-- Nothing but a token's own event, or the grant of its request, moves it. -/
theorem situated_fired {s' : Simulator S n} {e : Event n} (hinv : s.TokenInv)
    (he : e ∈ s.eventQueue) (hf : Fired cfg R (s.pop e) e s') (j : Fin n) : s'.Situated j := by
  have hj := hinv.situated j
  cases hf with
  | @release t =>
    apply hj.of_balance he (if s.busQueue.isEmpty then [] else [.busArbitration t]) rfl
    · split <;> simp [Event.isFetchOf]
    · split <;> simp [Event.isUnblockOf]
    · rfl
    · rfl
    · rfl
  | idle =>
    exact hj.of_balance he [] rfl (by simp [Event.isFetchOf]) (by simp [Event.isUnblockOf])
      rfl rfl rfl
  | @grant t req latency machine free first bus =>
    exact situated_granted hinv he (minElement_mem first) j
  | @unblock t i => exact situated_unblocked hinv he j
  | @stalled t i h =>
    have hr := InSituation.of_fetch (hinv.situated i) he
    simp only [InSituation] at hr
    simp [hr.2.2.2] at h
  | @exhausted t i running done => exact situated_exhausted hinv he j
  | @compute t i entry rest running read label =>
    exact hj.of_balance he [.fetch (t + entry.val.toNat) i] rfl (by simp [Event.isFetchOf])
      (by simp [Event.isUnblockOf]) rfl rfl rfl
  | @hit t i entry rest running read label resp =>
    exact hj.of_balance he [.fetch (t + 1) i] rfl (by simp [Event.isFetchOf])
      (by simp [Event.isUnblockOf]) rfl rfl rfl
  | @miss t i entry rest running read label resp => exact situated_missed hinv he j

theorem types_fired {s' : Simulator S n} {e : Event n} (hR : R.MissFills) (hinv : s.TokenInv)
    (hf : Fired cfg R (s.pop e) e s') : ∀ req ∈ s'.busQueue, req.type.requestable := by
  cases hf with
  | grant _ first _ => exact fun req hreq => hinv.types req (List.mem_of_mem_erase hreq)
  | @miss t i entry rest running read label resp =>
    intro req hreq
    rcases List.mem_append.mp hreq with hreq | hreq
    · exact hinv.types req hreq
    · obtain rfl := List.mem_singleton.mp hreq
      change BusTransactionType.requestable ((s.pop (.fetch t i)).access cfg R i entry).1.busAction
      rw [access_response]
      rcases respond_cases R entry.isWrite
        (s.machine.state i (cfg.geometry.block entry.val)) with ⟨hr, -⟩ | ⟨hr, -⟩ | ⟨hr, -⟩
      · simp [hr] at resp
      · exact .inr (.inr (by simp [hr]))
      · rw [pop_machine, hr]
        rcases hR entry.isWrite with h | h
        · exact .inl h
        · exact .inr (.inl h)
  | _ => exact hinv.types

theorem tokenInv_reached {traces : Fin n → List TraceEntry} (hR : R.MissFills)
    (hr : (system cfg R traces).Reached s) : s.TokenInv := by
  refine hr.invariant ?_ ?_
  · rintro s rfl
    exact tokenInv_start traces
  · intro s e s' hstep hinv
    obtain ⟨he, -, hf⟩ := fired_of_step hstep
    exact ⟨situated_fired hinv he hf, types_fired hR hinv hf⟩

end Simulator
end CoherenceFormal
