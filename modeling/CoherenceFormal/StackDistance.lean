import CoherenceFormal.LruOrder

/-!
# Stack distances of private blocks

Without sharing no snoop finds an entry and no line is invalidated, so the recency lists
follow the accesses of their cores in every run. An access hits when fewer than `assoc`
other blocks of its set have been accessed since the last access of its block.
-/

namespace CoherenceFormal
open LineState Recency
set_option autoImplicit false

variable {n : Nat}

namespace Simulator
variable {cfg : Config} {traces : Fin n → List TraceEntry} {p : ProtocolName}
  {s : Simulator p.State n}

theorem private_soleInv (hns : NoSharing cfg traces) (hr : (system cfg p.rules traces).Reached s) :
    SoleInv cfg traces (fun _ => True) s :=
  soleInv_reached p.missFills ⟨fun _ => trivial, trivial, fun _ => trivial⟩ hns hr

/-- Without sharing a line is never invalidated. -/
theorem private_noInvalidLine (hns : NoSharing cfg traces)
    (hr : (system cfg p.rules traces).Reached s) (i : Fin n) (b : Block) :
    s.machine.lineState i b ≠ some invalid := by
  have valid (laws : SoleLaws p.rules (· ≠ invalid)) : s.machine.lineState i b ≠ some invalid := by
    intro hline
    exact ((soleInv_reached p.missFills laws hns hr).lines i b _ hline).2 rfl
  cases p with
  | dragon => exact noInvalidLine_reached hr i b
  | mesi => exact valid ⟨fun _ => nofun, nofun, by decide⟩
  | mesif => exact valid ⟨fun _ => nofun, nofun, by decide⟩
  | smart => exact valid ⟨fun _ => nofun, nofun, by decide⟩
  | moesi => exact valid ⟨fun _ => nofun, nofun, by decide⟩

theorem valid_iff_line {S : Type} [LineState S] {m : Machine S n} {i : Fin n} {b : Block}
    (hvalid : m.lineState i b ≠ some invalid) :
    m.state i b ≠ invalid ↔ (m.line i b).isSome := by
  rw [Machine.lineState] at hvalid
  rw [Machine.state_eq]
  cases hline : m.line i b with
  | none => simp
  | some line =>
    rw [hline] at hvalid
    simpa using hvalid

theorem private_move (hns : NoSharing cfg traces) {m : Move (Simulator p.State n) (Event n)}
    (hr : (system cfg p.rules traces).Reached m.before) (i : Fin n) (k : Nat) :
    LeavesOrder cfg i k m := by
  intro req hg _
  refine ⟨?_, ?_⟩
  · rintro rfl hu
    exact fillsAbsent_of_valid p.missFills hr (private_noInvalidLine hns hr) req hg hu
  · intro hi
    have hinv := private_soleInv hns hr
    have hsole := hinv.sole hns (hinv.queue req (grantOf_mem hg))
    exact .inl (Option.map_eq_none_iff.mp (hsole i (Ne.symm hi)))

/-- Without sharing an access finds its block valid if and only if its core has accessed the
block before and has since accessed fewer than `assoc` distinct other blocks of the same set. -/
theorem lru_stack_distance (p : ProtocolName) (hp : p ≠ .smart) (cfg : Config)
    (traces : Fin n → List TraceEntry) (hns : NoSharing cfg traces)
    {later earlier : List (Move (Simulator p.State n) (Event n))}
    {m : Move (Simulator p.State n) (Event n)} {s : Simulator p.State n}
    (hr : (system cfg p.rules traces).Run (later ++ m :: earlier) s) {i : Fin n}
    {entry : TraceEntry} (hentry : executedBy i m = some entry) :
    let b := cfg.geometry.block entry.val
    m.before.machine.state i b ≠ invalid ↔
      b ∈ accesses cfg i earlier ∧
        (((accesses cfg i earlier).takeWhile (· ≠ b)).filter (·.set = b.set)).toFinset.card <
          cfg.geometry.assoc := by
  intro b
  obtain ⟨hrun, hstep⟩ := hr.before_move
  obtain ⟨he, -, -⟩ := fired_of_step hstep
  have hmoves : ∀ m ∈ earlier, LeavesOrder cfg i b.set m := fun m hm =>
    private_move hns (hrun.move hm).1 i b.set
  obtain ⟨A, hA, hfollows⟩ := lruInv_run p.missFills (ProtocolName.lru hp) hrun hmoves
  have hidle : ∀ req ∈ m.before.busQueue, req.coreId ≠ i := by
    obtain ⟨t, hfetch⟩ := fetch_of_executedBy hentry
    rw [hfetch] at he
    intro req hreq
    exact Ne.symm ((tokenInv_reached p.missFills hrun.reached).fetch_not_waiting he hreq)
  obtain rfl := hA.eq_accesses hidle
  have hpresent : m.before.machine.state i b ≠ invalid ↔ (m.before.machine.line i b).isSome :=
    valid_iff_line (private_noInvalidLine hns hrun.reached i b)
  rw [hpresent]
  exact hfollows.mem_iff.trans mem_lruSet_iff

/-- Core 0 comes back to block 0 after block 1, core 1 loads block 4 of the same set. -/
def revisiting (i : Fin 2) : List TraceEntry :=
  if i = 0 then [⟨0, 0⟩, ⟨0, 4⟩, ⟨0, 0⟩] else [⟨0, 16⟩]

theorem lru_stack_distance_revisiting :
    ∃ (earlier : List (Move (Simulator MOESIState 2) (Event 2)))
      (m : Move (Simulator MOESIState 2) (Event 2)),
      NoSharing tinyConfig revisiting ∧
      (system tinyConfig (ProtocolName.rules .moesi) revisiting).Run (m :: earlier) m.after ∧
      executedBy 0 m = some ⟨0, 0⟩ ∧ accesses tinyConfig 0 earlier = [⟨0, 1⟩, ⟨0, 0⟩] ∧
      m.before.machine.state 0 ⟨0, 0⟩ ≠ .invalid := by
  have hns : NoSharing tinyConfig revisiting := by
    unfold NoSharing
    decide
  obtain ⟨earlier, m, hr, ht⟩ := exists_last_move tinyConfig (ProtocolName.rules .moesi) revisiting
    [.fetch 0 0, .busArbitration 0, .fetch 0 1, .busRelease 101, .busArbitration 101,
      .coreUnblock 101 0, .fetch 101 0, .busRelease 202, .busArbitration 202, .coreUnblock 202 1,
      .fetch 202 1, .busRelease 303, .coreUnblock 303 0, .fetch 303 0]
    (fun earlier (m : Move (Simulator MOESIState 2) (Event 2)) =>
      executedBy 0 m == some ⟨0, 0⟩ && accesses tinyConfig 0 earlier == [⟨0, 1⟩, ⟨0, 0⟩])
    (by decide +kernel)
  obtain ⟨hentry, haccesses⟩ := Bool.and_eq_true_iff.mp ht
  have hentry := beq_iff_eq.mp hentry
  have haccesses := beq_iff_eq.mp haccesses
  have hlast : (system tinyConfig (ProtocolName.rules .moesi) revisiting).Run
      ([] ++ m :: earlier) m.after := hr
  refine ⟨earlier, m, hns, hr, hentry, haccesses, ?_⟩
  apply (lru_stack_distance .moesi (by decide) tinyConfig revisiting hns hlast hentry).mpr
  rw [haccesses]
  decide

end Simulator
end CoherenceFormal
