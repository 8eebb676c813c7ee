import CoherenceFormal.SetOperations
import CoherenceFormal.GrantedLines

/-!
# Frames of invalidated lines

An invalidated line keeps its frame: it counts in `lines.size()`, and `allocate` picks the
entry to go by its place in `lru_order` alone. Nothing looks for an INVALID frame first, so
a valid line, even a dirty one, goes while such a frame is at hand. SMART passes over the
MODIFIED lines, so there an INVALID frame saves the writeback.
-/

namespace CoherenceFormal
open LineState FiniteMap
set_option autoImplicit false

/-- The entry closest to the back that is not MODIFIED, if there is one, else the back. -/
def SmartCacheSet.leaving (set : CacheSet MESIState) : Option Nat :=
  (set.lruOrder.reverse.find? fun tag => ¬ LineModified set tag).or set.lruOrder.getLast?

/-- The entry that a full set gives up. -/
def ProtocolName.leaving : (p : ProtocolName) → CacheSet p.State → Option Nat
  | .mesi, set => set.lruOrder.getLast?
  | .dragon, set => set.lruOrder.getLast?
  | .mesif, set => set.lruOrder.getLast?
  | .smart, set => SmartCacheSet.leaving set
  | .moesi, set => set.lruOrder.getLast?

theorem SmartCacheSet.entry_victimPos (set : CacheSet MESIState) :
    set.lruOrder[victimPos (· == .modified) set]? = leaving set := by
  unfold victimPos leaving
  cases hfind : set.lruOrder.reverse.findIdx? (clean (· == .modified) set.lines) with
  | none =>
    have hnone : set.lruOrder.reverse.find? (fun tag => ¬ LineModified set tag) = none := by
      apply List.find?_eq_none.mpr
      intro tag htag
      have hdirty := List.findIdx?_eq_none_iff.mp hfind tag htag
      rw [decide_eq_true_eq, ← clean_iff, hdirty]
      exact Bool.false_ne_true
    rw [hnone, Option.none_or, List.getLast?_eq_getElem?]
  | some steps =>
    dsimp only
    obtain ⟨hlt, hclean, hbefore⟩ := List.findIdx?_eq_some_iff_getElem.mp hfind
    have hfound : set.lruOrder.reverse.find? (fun tag => ¬ LineModified set tag) =
        some set.lruOrder.reverse[steps] := by
      apply List.find?_eq_some_iff_getElem.mpr
      refine ⟨decide_eq_true ((clean_iff _ _).mp hclean), steps, hlt, rfl, ?_⟩
      intro j hj
      have hskipped := hbefore j hj
      rw [clean_iff] at hskipped
      simpa using hskipped
    rw [hfound, Option.some_or, ← List.getElem?_eq_getElem hlt]
    exact (List.getElem?_reverse (by simpa using hlt)).symm

theorem ProtocolName.entry_victimPos (p : ProtocolName) (set : CacheSet p.State) :
    set.lruOrder[p.rules.replacement.victimPos set]? = p.leaving set := by
  cases p with
  | smart => exact SmartCacheSet.entry_victimPos set
  | _ => exact List.getLast?_eq_getElem?.symm

theorem ProtocolName.fillState_valid (p : ProtocolName) (type : BusTransactionType)
    (shared : Bool) : p.rules.fillState type shared ≠ invalid := by
  revert type shared
  cases p <;> decide

variable {S : Type} {n : Nat}

/-- The frames of the set that `addr` maps to. -/
def Machine.targetSet (g : Geometry) (m : Machine S n) (r : Fin n) (addr : Addr) : CacheSet S :=
  (m.caches r).sets (g.setIdx addr)

variable [LineState S]

/-- A fill that charges nothing but the transfer of its own block. -/
structure NoWriteback (R : ProtocolRules S) (g : Geometry) (m : Machine S n) (r : Fin n)
    (type : BusTransactionType) (addr : Addr) (latency : Nat) (m' : Machine S n) : Prop where
  writebacks : m'.gStats.busWritebacks = m.gStats.busWritebacks
  traffic : m'.gStats.totalDataTrafficBytes = m.gStats.totalDataTrafficBytes + g.bsize
  latency_eq : latency =
    if (snoopAll R g m r type addr).supplierFound then 1 + 2 * (g.bsize / 4) else 101

theorem noWriteback_of_clean {R : ProtocolRules S} {g : Geometry} {m m' : Machine S n} {r : Fin n}
    {type : BusTransactionType} {addr : Addr} {latency : Nat}
    (hw : type ≠ .writeback) (hu : type ≠ .busUpgr)
    (h : handleBusTransaction R g m r type addr = some (latency, m'))
    (hclean : m.victimDirty R g r addr = false) : NoWriteback R g m r type addr latency m' := by
  have hspec := fill_spec hw hu h
  refine ⟨?_, ?_, ?_⟩
  · rw [hspec.writebacks, hclean]
    rfl
  · rw [hspec.traffic, hclean]
    rfl
  · cases busEffect_of_bus h with
    | writeback => exact absurd rfl hw
    | upgrade => exact absurd rfl hu
    | fill =>
      rw [hclean]
      rfl

theorem victim_eq_leaving {p : ProtocolName} {g : Geometry} {m : Machine p.State n} {r : Fin n}
    {addr : Addr} {v : Block} (h : m.victim p.rules g r addr = some v) :
    v.set = g.setIdx addr ∧ g.assoc ≤ size (m.targetSet g r addr).lines ∧
      p.leaving (m.targetSet g r addr) = some v.tag := by
  obtain ⟨hset, hfull, hentry⟩ := Machine.victim_entry h
  rw [p.entry_victimPos] at hentry
  exact ⟨hset, hfull, hentry⟩

/-- A valid line that a fill takes out of the requester's cache is the victim's. -/
theorem FillSpec.valid_lost {p : ProtocolName} {g : Geometry} {m m' : Machine p.State n}
    {r : Fin n} {type : BusTransactionType} {addr : Addr}
    (hspec : FillSpec p.rules g m r type addr m') {b : Block} (hvalid : m.state r b ≠ invalid)
    (hgone : m'.state r b = invalid) : m.victim p.rules g r addr = some b := by
  by_contra hv
  rw [Machine.state_eq, hspec.lines] at hgone
  by_cases hb : b = g.block addr
  · rw [if_pos hb, if_pos rfl] at hgone
    exact p.fillState_valid _ _ hgone
  · rw [if_neg hb, if_neg fun h => hv h.2] at hgone
    exact hvalid hgone

/-- SMART gives up no MODIFIED line while the set has another one. -/
theorem SmartCacheSet.leaving_clean {set : CacheSet MESIState} {tag tag' : Nat}
    (htag : tag ∈ set.lruOrder) (hclean : ¬ LineModified set tag)
    (hleaving : leaving set = some tag') : ¬ LineModified set tag' := by
  unfold leaving at hleaving
  cases hfind : set.lruOrder.reverse.find? fun tag => ¬ LineModified set tag with
  | none =>
    have hall := List.find?_eq_none.mp hfind tag (List.mem_reverse.mpr htag)
    exact absurd (decide_eq_true hclean) hall
  | some found =>
    rw [hfind, Option.some_or] at hleaving
    obtain rfl := Option.some.inj hleaving
    have hfound := List.find?_some hfind
    exact of_decide_eq_true hfound

theorem smart_victim_clean {g : Geometry} {m : Machine MESIState n} (hl : m.Listed) {r : Fin n}
    {addr : Addr} {tag : Nat} {line : CacheLine MESIState}
    (hline : (m.targetSet g r addr).lines.lookup tag = some line)
    (hinvalid : line.state = .invalid) : m.victimDirty smart g r addr = false := by
  rw [Machine.victimDirty]
  cases hv : m.victim smart g r addr with
  | none => rfl
  | some v =>
    obtain ⟨hset, -, hleaving⟩ := victim_eq_leaving (p := .smart) hv
    have htag : tag ∈ (m.targetSet g r addr).lruOrder := by
      apply hl r
      change ((m.targetSet g r addr).lines.lookup tag).isSome
      rw [hline]
      rfl
    have hclean : ¬ SmartCacheSet.LineModified (m.targetSet g r addr) tag := by
      rw [SmartCacheSet.LineModified, hline, Option.map_some, hinvalid]
      decide
    have hnot := SmartCacheSet.leaving_clean htag hclean hleaving
    have hlookup : m.line r v = (m.targetSet g r addr).lines.lookup v.tag := by
      rw [Machine.line, Cache.line, hset]
      rfl
    rw [SmartCacheSet.LineModified, ← hlookup] at hnot
    rw [Option.any_some, Machine.state_eq]
    cases hold : m.line r v with
    | none => rfl
    | some old =>
      rw [hold] at hnot
      have hstate : old.state ≠ .modified := fun h => hnot (congrArg some h)
      exact beq_eq_false_iff_ne.mpr hstate

namespace Simulator

/-- In every state reached, the fill of a BUS_RD or BUS_RDX takes at most one valid line out of
the requester's cache: the entry of a full set that replacement gives up. It takes none and
charges no writeback when there is room or when that entry is not a valid line. Under SMART it
charges no writeback whenever the set has an INVALID line. -/
theorem fill_evicts_by_recency (p : ProtocolName) (cfg : Config) (traces : Fin n → List TraceEntry)
    {s : Simulator p.State n} (hr : (system cfg p.rules traces).Reached s) (r : Fin n)
    (type : BusTransactionType) (ht : type = .busRd ∨ type = .busRdx) (addr : Addr) :
    ∃ latency m', handleBusTransaction p.rules cfg.geometry s.machine r type addr =
        some (latency, m') ∧
      (∀ b, s.machine.state r b ≠ invalid → m'.state r b = invalid →
        b.set = cfg.geometry.setIdx addr ∧
        cfg.geometry.assoc ≤ size (s.machine.targetSet cfg.geometry r addr).lines ∧
        p.leaving (s.machine.targetSet cfg.geometry r addr) = some b.tag) ∧
      ((size (s.machine.targetSet cfg.geometry r addr).lines < cfg.geometry.assoc ∨
          ∃ tag, p.leaving (s.machine.targetSet cfg.geometry r addr) = some tag ∧
            s.machine.state r ⟨cfg.geometry.setIdx addr, tag⟩ = invalid) →
        (∀ b, s.machine.state r b ≠ invalid → m'.state r b ≠ invalid) ∧
        NoWriteback p.rules cfg.geometry s.machine r type addr latency m') ∧
      (p = .smart → (∃ tag line, (s.machine.targetSet cfg.geometry r addr).lines.lookup tag =
          some line ∧ line.state = invalid) →
        NoWriteback p.rules cfg.geometry s.machine r type addr latency m') := by
  have hw : type ≠ .writeback := by rcases ht with rfl | rfl <;> decide
  have hu := BusTransactionType.ne_busUpgr_of_fill ht
  have hlisted := listed_reached hr
  obtain ⟨⟨latency, m'⟩, hbus⟩ := Option.isSome_iff_exists.mp
    (handleBusTransaction_isSome p.rules cfg.geometry hlisted r type addr fun h => absurd h hu)
  have hspec := fill_spec hw hu hbus
  refine ⟨latency, m', hbus, ?_, ?_, ?_⟩
  · intro b hvalid hgone
    exact victim_eq_leaving (hspec.valid_lost hvalid hgone)
  · intro hfree
    have hinvalid (v : Block) (hv : s.machine.victim p.rules cfg.geometry r addr = some v) :
        s.machine.state r v = invalid := by
      obtain ⟨hset, hfull, hleaving⟩ := victim_eq_leaving hv
      rcases hfree with hroom | ⟨tag, htag, hstate⟩
      · exact absurd hfull (Nat.not_le.mpr hroom)
      · rw [htag] at hleaving
        obtain rfl := Option.some.inj hleaving
        rwa [← hset] at hstate
    refine ⟨?_, noWriteback_of_clean hw hu hbus ?_⟩
    · intro b hvalid hgone
      exact hvalid (hinvalid b (hspec.valid_lost hvalid hgone))
    · rw [Machine.victimDirty]
      cases hv : s.machine.victim p.rules cfg.geometry r addr with
      | none => rfl
      | some v => rw [Option.any_some, hinvalid v hv, p.invalid_not_dirty]
  · intro hp hframe
    subst hp
    obtain ⟨tag, line, hline, hinvalid⟩ := hframe
    exact noWriteback_of_clean hw hu hbus (smart_victim_clean hlisted hline hinvalid)

/-- Core 0 has stored to block 0 and loaded block 1, which core 1 then stores to. -/
def invalidatedBehind (i : Fin 2) : List TraceEntry :=
  if i = 0 then [⟨1, 0⟩, ⟨0, 4⟩, ⟨2, 200⟩, ⟨0, 8⟩] else [⟨2, 300⟩, ⟨1, 4⟩]

def invalidatedBehindEvents : List (Event 2) :=
  [.fetch 0 0, .busArbitration 0, .fetch 0 1, .busRelease 101, .coreUnblock 101 0, .fetch 101 0,
    .busArbitration 101, .busRelease 202, .coreUnblock 202 0, .fetch 202 0, .fetch 300 1,
    .busArbitration 300, .busRelease 303, .coreUnblock 303 1, .fetch 303 1, .fetch 402 0]

/-- The MODIFIED line is the back entry; SMART takes the INVALID one. -/
theorem fill_evicts_by_recency_smart :
    ∃ s : Simulator MESIState 2,
      (system tinyConfig (ProtocolName.rules .smart) invalidatedBehind).Reached s ∧
      (s.machine.targetSet tinyConfig.geometry 0 8).lruOrder = [1, 0] ∧
      s.machine.state 0 ⟨0, 0⟩ = .modified ∧
      ∃ latency m', handleBusTransaction smart tinyConfig.geometry s.machine 0 .busRd 8 =
          some (latency, m') ∧
        NoWriteback smart tinyConfig.geometry s.machine 0 .busRd 8 latency m' := by
  obtain ⟨h, s, hr, ht⟩ := exists_run tinyConfig (ProtocolName.rules .smart) invalidatedBehind
    invalidatedBehindEvents
    (fun _ (s : Simulator MESIState 2) =>
      (s.machine.targetSet tinyConfig.geometry 0 8).lruOrder == [1, 0] &&
      s.machine.state 0 ⟨0, 0⟩ == .modified &&
      (s.machine.targetSet tinyConfig.geometry 0 8).lines.lookup 1 == some ⟨1, .invalid⟩)
    (by decide +kernel)
  simp only [Bool.and_eq_true, beq_iff_eq] at ht
  obtain ⟨⟨horder, hmodified⟩, hline⟩ := ht
  obtain ⟨latency, m', hbus, -, -, hsmart⟩ := fill_evicts_by_recency .smart tinyConfig
    invalidatedBehind hr.reached 0 .busRd (.inl rfl) 8
  exact ⟨s, hr.reached, horder, hmodified, latency, m', hbus, hsmart rfl ⟨1, _, hline, rfl⟩⟩

/-- Under MESI the fill of block 2 finds the INVALID frame of block 1 in its set. The MODIFIED
line of block 0 leaves and a writeback is charged. -/
theorem valid_line_leaves_before_invalid_frame :
    ∃ (h : List (Move (Simulator MESIState 2) (Event 2)))
      (m : Move (Simulator MESIState 2) (Event 2)),
      (system tinyConfig (ProtocolName.rules .mesi) invalidatedBehind).Run (m :: h) m.after ∧
      grantOf tinyConfig m = some ⟨0, .busRd, 8, 402⟩ ∧
      (m.before.machine.targetSet tinyConfig.geometry 0 8).lines.lookup 1 = some ⟨1, .invalid⟩ ∧
      m.before.machine.state 0 ⟨0, 0⟩ = .modified ∧ m.after.machine.state 0 ⟨0, 0⟩ = .invalid ∧
      m.after.machine.gStats.busWritebacks = m.before.machine.gStats.busWritebacks + 1 := by
  obtain ⟨h, m, hr, ht⟩ := exists_last_move tinyConfig (ProtocolName.rules .mesi) invalidatedBehind
    (invalidatedBehindEvents ++ [.busArbitration 402])
    (fun _ (m : Move (Simulator MESIState 2) (Event 2)) =>
      grantOf tinyConfig m == some ⟨0, .busRd, 8, 402⟩ &&
      (m.before.machine.targetSet tinyConfig.geometry 0 8).lines.lookup 1 == some ⟨1, .invalid⟩ &&
      m.before.machine.state 0 ⟨0, 0⟩ == .modified && m.after.machine.state 0 ⟨0, 0⟩ == .invalid &&
      m.after.machine.gStats.busWritebacks == m.before.machine.gStats.busWritebacks + 1)
    (by decide +kernel)
  simp only [Bool.and_eq_true, beq_iff_eq] at ht
  obtain ⟨⟨⟨⟨hgrant, hframe⟩, hbefore⟩, hafter⟩, hcount⟩ := ht
  exact ⟨h, m, hr, hgrant, hframe, hbefore, hafter, hcount⟩

end Simulator
end CoherenceFormal
