import CoherenceFormal.Calls

/-!
# A cache set by itself

The operations of a set class in any order: `find`, `allocate`, and assignments to a
line through a pointer that one of them returned. Nothing here says that the tags
come from addresses or that a tag is allocated only when it is absent, so the
recency list may hold duplicates and tags without a line.
-/

namespace CoherenceFormal
open LineState FiniteMap
set_option autoImplicit false

inductive SetOp (S : Type) where
  | find (tag : Nat)
  | allocate (tag : Nat)
  | setState (tag : Nat) (state : S)

variable {S : Type} [LineState S]

def SetOp.apply (r : Replacement S) (assoc : Nat) (set : CacheSet S) : SetOp S → Option (CacheSet S)
  | .find tag => some (set.find tag).2
  | .allocate tag => (r.allocate assoc set tag).map Prod.fst
  | .setState tag state => some (set.setState tag state)

/-- A set that starts empty and to which operations are applied. -/
def CacheSet.system (r : Replacement S) (assoc : Nat) : System (CacheSet S) (SetOp S) where
  start := fun set => set = CacheSet.empty
  step := fun set op set' => op.apply r assoc set = some set'

theorem CacheSet.Listed.apply {r : Replacement S} {assoc : Nat} {set set' : CacheSet S}
    (h : set.Listed) {op : SetOp S} (happly : op.apply r assoc set = some set') : set'.Listed := by
  cases op with
  | find tag =>
    obtain rfl := Option.some.inj happly
    exact h.find tag
  | allocate tag =>
    obtain ⟨⟨set₁, evicted⟩, ha, rfl⟩ := Option.map_eq_some_iff.mp happly
    exact h.allocate ha
  | setState tag state =>
    obtain rfl := Option.some.inj happly
    exact h.setState tag state

theorem CacheSet.listed_reached {r : Replacement S} {assoc : Nat} {set : CacheSet S}
    (hr : (CacheSet.system r assoc).Reached set) : set.Listed := by
  refine hr.invariant (I := CacheSet.Listed) ?_ ?_
  · intro set hs
    subst hs
    exact .empty
  · intro set op set' hstep hl
    exact hl.apply hstep

/-! ### Any sequence of operations -/

/-- The operations one after the other on a new set, `none` once one of them is undefined. -/
def CacheSet.runOps (r : Replacement S) (assoc : Nat) (ops : List (SetOp S)) :
    Option (CacheSet S) :=
  ops.foldlM (fun set op => op.apply r assoc set) CacheSet.empty

namespace CacheSet.Listed

/-- No operation on a listed set is undefined, and the set stays listed. -/
theorem exists_apply {set : CacheSet S} (h : set.Listed) (r : Replacement S) {assoc : Nat}
    (hpos : 0 < assoc) (op : SetOp S) :
    ∃ set', op.apply r assoc set = some set' ∧ set'.Listed := by
  have hsome : (op.apply r assoc set).isSome := by
    cases op with
    | find tag => rfl
    | allocate tag =>
      rw [SetOp.apply, Option.isSome_map]
      exact h.allocate_isSome r hpos tag
    | setState tag state => rfl
  obtain ⟨set', hset'⟩ := Option.isSome_iff_exists.mp hsome
  exact ⟨set', hset', h.apply hset'⟩

theorem exists_foldlM {set : CacheSet S} (h : set.Listed) (r : Replacement S) {assoc : Nat}
    (hpos : 0 < assoc) (ops : List (SetOp S)) :
    ∃ set', ops.foldlM (fun set op => op.apply r assoc set) set = some set' ∧ set'.Listed := by
  induction ops generalizing set with
  | nil => exact ⟨set, rfl, h⟩
  | cons op ops ih =>
    obtain ⟨set₁, hop, h₁⟩ := h.exists_apply r hpos op
    obtain ⟨set₂, hops, h₂⟩ := ih h₁
    refine ⟨set₂, ?_, h₂⟩
    rw [List.foldlM_cons, hop]
    exact hops

end CacheSet.Listed

/-- In any order of operations, with tags that may be present when they are allocated, the
recency list keeps a place for each line, and so has a back entry when one is evicted. -/
theorem resident_lines_listed (p : ProtocolName) (assoc : Nat) (hassoc : 1 ≤ assoc)
    (ops : List (SetOp p.State)) :
    ∃ set, CacheSet.runOps p.rules.replacement assoc ops = some set ∧
      (∀ key ∈ set.lines.keys, key ∈ set.lruOrder) ∧
      (assoc ≤ size set.lines → set.lruOrder ≠ []) ∧
      (∀ tag, (p.rules.replacement.allocate assoc set tag).isSome) ∧
      size set.lines ≤ set.lruOrder.length := by
  obtain ⟨set, hrun, hlisted⟩ :=
    CacheSet.Listed.empty.exists_foldlM p.rules.replacement hassoc ops
  refine ⟨set, hrun, ?_, ?_, ?_, hlisted.size_le⟩
  · intro key hkey
    exact hlisted.mem_lruOrder hkey
  · exact hlisted.ne_nil hassoc
  · intro tag
    exact hlisted.allocate_isSome p.rules.replacement hassoc tag

/-- Tag 5 is named twice, so its second entry is evicted when its line is already gone and a
two-way set comes to hold three lines. -/
theorem resident_lines_listed_duplicate :
    ∃ set : CacheSet MESIState,
      CacheSet.runOps mesi.replacement 2
        [.allocate 5, .allocate 5, .allocate 6, .allocate 7, .allocate 8] = some set ∧
      set.lruOrder = [8, 7, 6] ∧ size set.lines = 3 ∧
      (∀ key ∈ set.lines.keys, key ∈ set.lruOrder) ∧ size set.lines ≤ set.lruOrder.length := by
  obtain ⟨set, hrun, hkeys, -, -, hsize⟩ := resident_lines_listed .mesi 2 (by decide)
    [.allocate 5, .allocate 5, .allocate 6, .allocate 7, .allocate 8]
  refine ⟨set, hrun, ?_, ?_, hkeys, hsize⟩
  · obtain rfl := Option.some.inj hrun
    rfl
  · obtain rfl := Option.some.inj hrun
    decide

/-! ### The victim of SMART -/

namespace SmartCacheSet

/-- The entry at `pos` is the last one whose line is absent or not MODIFIED, or the back
entry when there is no such entry. -/
def VictimAt (set : CacheSet MESIState) (pos : Nat) : Prop :=
  (∃ tag, set.lruOrder[pos]? = some tag ∧ ¬ LineModified set tag ∧
    ∀ q tag', pos < q → set.lruOrder[q]? = some tag' → LineModified set tag') ∨
  ((∀ tag ∈ set.lruOrder, LineModified set tag) ∧ pos + 1 = set.lruOrder.length)

/-- `std::next(it).base()` is the entry at which the reverse scan has stopped. -/
theorem victimAt_victimPos {set : CacheSet MESIState} (hne : set.lruOrder ≠ []) :
    VictimAt set (victimPos (· == .modified) set) := by
  have hlen := List.length_pos_iff.mpr hne
  unfold victimPos
  cases hfind : set.lruOrder.reverse.findIdx? (clean (· == .modified) set.lines) with
  | none =>
    right
    refine ⟨?_, Nat.sub_add_cancel hlen⟩
    intro tag htag
    have hdirty := List.findIdx?_eq_none_iff.mp hfind tag (List.mem_reverse.mpr htag)
    by_contra hclean
    rw [(clean_iff set tag).mpr hclean] at hdirty
    simp at hdirty
  | some steps =>
    left
    dsimp only
    obtain ⟨hlt, hclean, hbefore⟩ := List.findIdx?_eq_some_iff_getElem.mp hfind
    rw [List.length_reverse] at hlt
    rw [List.getElem_reverse] at hclean
    refine ⟨_, List.getElem?_eq_getElem (by omega), (clean_iff _ _).mp hclean, ?_⟩
    intro q tag' hq hq'
    obtain ⟨hqlt, rfl⟩ := List.getElem?_eq_some_iff.mp hq'
    -- the scan has passed `q` before it stopped
    have hskipped := hbefore (set.lruOrder.length - 1 - q) (by omega)
    rw [List.getElem_reverse] at hskipped
    have hidx : set.lruOrder.length - 1 - (set.lruOrder.length - 1 - q) = q := by omega
    simp only [hidx, clean_iff, not_not] at hskipped
    exact hskipped

/-- Only a set without any clean entry gives up a MODIFIED line. -/
theorem VictimAt.all_modified {set : CacheSet MESIState} {pos victim : Nat}
    (h : VictimAt set pos) (hentry : set.lruOrder[pos]? = some victim)
    (hdirty : LineModified set victim) : ∀ tag ∈ set.lruOrder, LineModified set tag := by
  rcases h with ⟨victim', hentry', hclean, -⟩ | ⟨hall, -⟩
  · rw [hentry] at hentry'
    obtain rfl := Option.some.inj hentry'
    exact absurd hdirty hclean
  · exact hall

/-- A line that `lines[victim]` has to create is not MODIFIED. -/
theorem lineModified_of_evicted {set : CacheSet MESIState} {victim : Nat}
    (h : ((set.lines.lookup victim).getD blankLine).state = .modified) :
    LineModified set victim := by
  unfold LineModified
  cases hl : set.lines.lookup victim with
  | none =>
    rw [hl] at h
    cases h
  | some line =>
    rw [hl] at h
    exact congrArg some h

/-- Whatever has been done to the set before, `allocate` on a full set evicts the last entry
that is not MODIFIED, or the back entry, and nothing else. -/
theorem clean_first_victim (assoc : Nat) (hassoc : 1 ≤ assoc) {set : CacheSet MESIState}
    (hr : (CacheSet.system smart.replacement assoc).Reached set) (tag : Nat)
    (hfull : assoc ≤ size set.lines) :
    ∃ pos victim set' evicted, VictimAt set pos ∧ set.lruOrder[pos]? = some victim ∧
      allocate (· == .modified) assoc set tag = some (set', some evicted) ∧
      set'.lruOrder = tag :: set.lruOrder.eraseIdx pos ∧
      (∀ a, set'.lines.lookup a = if a = tag then some ⟨tag, .invalid⟩
        else if a = victim then none else set.lines.lookup a) ∧
      (set.lines.lookup victim = some evicted ∨
        (set.lines.lookup victim = none ∧ evicted.state = .invalid)) ∧
      (evicted.state = .modified → ∀ a line, set.lines.lookup a = some line →
        line.state = .modified) := by
  have hlisted := CacheSet.listed_reached hr
  have hne : set.lruOrder ≠ [] := hlisted.ne_nil hassoc hfull
  have hvictim := victimAt_victimPos hne
  have hlt := smart.replacement.victimPos_lt set hne
  have hentry := List.getElem?_eq_getElem hlt
  generalize hpos : smart.replacement.victimPos set = pos at hlt hentry
  change victimPos (· == .modified) set = pos at hpos
  rw [hpos] at hvictim
  generalize set.lruOrder[pos] = victim at hentry
  have hallocate : allocate (· == .modified) assoc set tag =
      some (CacheSet.install ⟨set.lruOrder.eraseIdx pos, set.lines.erase victim⟩ tag,
        some ((set.lines.lookup victim).getD blankLine)) := by
    rw [allocate_eq _ rfl, if_pos hfull, hpos, CacheSet.evictAt, hentry]
    rfl
  refine ⟨pos, victim, _, _, hvictim, hentry, hallocate, rfl, ?_, ?_, ?_⟩
  · intro a
    rw [CacheSet.install, lookup_insert_eq, lookup_erase_eq]
    rfl
  · cases set.lines.lookup victim with
    | none => exact .inr ⟨rfl, rfl⟩
    | some line => exact .inl rfl
  · intro hmodified a line ha
    have hall := hvictim.all_modified hentry (lineModified_of_evicted hmodified)
    have hline := hall a (hlisted a (by rw [ha]; rfl))
    rw [LineModified, ha] at hline
    exact Option.some.inj hline

/-- A two-way set whose back entry is a MODIFIED line. -/
def dirtyBack : CacheSet MESIState :=
  ((CacheSet.empty.install 1).setState 1 .modified).install 2

theorem clean_first_victim_dirtyBack :
    (CacheSet.system smart.replacement 2).Reached dirtyBack ∧ 2 ≤ size dirtyBack.lines ∧
    dirtyBack.lruOrder = [2, 1] ∧ LineModified dirtyBack 1 ∧
    ∃ pos set' evicted, VictimAt dirtyBack pos ∧
      allocate (· == .modified) 2 dirtyBack 3 = some (set', some evicted) ∧
      set'.lruOrder = 3 :: dirtyBack.lruOrder.eraseIdx pos := by
  let sys := CacheSet.system smart.replacement 2
  have h₀ : sys.Reached CacheSet.empty := .start rfl
  have h₁ : sys.Reached (CacheSet.empty.install 1) := h₀.next (e := .allocate 1) rfl
  have h₂ : sys.Reached ((CacheSet.empty.install 1).setState 1 .modified) :=
    h₁.next (e := .setState 1 .modified) rfl
  have hr : sys.Reached dirtyBack := h₂.next (e := .allocate 2) rfl
  obtain ⟨pos, victim, set', evicted, hpos, -, halloc, hlru, -⟩ :=
    clean_first_victim 2 (by decide) hr 3 (by decide)
  exact ⟨hr, by decide, rfl, by decide, pos, set', evicted, hpos, halloc, hlru⟩

end SmartCacheSet
end CoherenceFormal
