import CoherenceFormal.AddressSplit
import CoherenceFormal.RunCompletion
import CoherenceFormal.Shared.IntegerStream
import CoherenceFormal.Shared.Projection

/-!
# Trace files

`FetchEvent::execute` reads an entry with `traces[core_id] >> label >> std::hex >> val`, and a
trace ends where that fails. `std::hex` stays set, so that the label of the first entry of a
file is read in base ten and the labels of all others in base sixteen.

`FileSimulator` is the simulator over the streams themselves. What it does is what `Simulator`
does with the entries its streams yield (`projects_entries`), for files with any text.
-/

namespace CoherenceFormal
open IntegerField IntegerStream
set_option autoImplicit false

/-- The two extractions, the second one after `std::hex`. -/
def IntegerStream.readEntry (stream : IntegerStream) : Option TraceEntry × IntegerStream :=
  let label := stream.extract (fitSigned 32)
  let val := label.2.hex.extract (fitUnsigned 32)
  match label.1, val.1 with
  | some label, some value => (some ⟨label, value⟩, val.2)
  | _, _ => (none, val.2)

/-- The entries read from a stream, as long as the fuel lasts. -/
def IntegerStream.entriesWithin : Nat → IntegerStream → List TraceEntry
  | 0, _ => []
  | fuel + 1, stream =>
    match stream.readEntry with
    | (none, _) => []
    | (some entry, stream) => entry :: stream.entriesWithin fuel

/-- An entry takes at least two characters, so that this is enough fuel. -/
def IntegerStream.entries (stream : IntegerStream) : List TraceEntry :=
  stream.entriesWithin (stream.rest.length + 1)

def TraceEntry.print (entry : TraceEntry) : List Char :=
  decimal entry.label ++ ' ' :: (hexadecimal entry.val.toNat ++ ['\n'])

/-- A file in the format of the benchmarks. -/
def printTrace (entries : List TraceEntry) : List Char := entries.flatMap TraceEntry.print

/-- The simulator over its open files; `sim.traces` is not used. -/
structure FileSimulator (S : Type) (n : Nat) where
  sim : Simulator S n
  streams : Fin n → IntegerStream

namespace FileSimulator
variable {S : Type} [LineState S] {n : Nat}

def fetch (cfg : Config) (R : ProtocolRules S) (file : FileSimulator S n) (timestamp : Nat)
    (coreId : Fin n) : FileSimulator S n :=
  if file.sim.blocked coreId then file
  else
    let read := (file.streams coreId).readEntry
    let streams := Function.update file.streams coreId read.2
    match read.1 with
    | none =>
      let exhausted := Function.update file.sim.traceExhausted coreId true
      ⟨{ file.sim with traceExhausted := exhausted }, streams⟩
    | some entry => ⟨file.sim.executeEntry cfg R timestamp coreId entry, streams⟩

def execute (cfg : Config) (R : ProtocolRules S) (file : FileSimulator S n) :
    Event n → Option (FileSimulator S n)
  | .fetch t i => some (file.fetch cfg R t i)
  | e => (file.sim.execute cfg R e).map fun sim => { file with sim := sim }

def processNext (cfg : Config) (R : ProtocolRules S) (file : FileSimulator S n) (e : Event n) :
    Option (FileSimulator S n) :=
  if file.sim.eventQueue.contains e && e.isTop file.sim.eventQueue then
    ({ file with sim := file.sim.pop e } : FileSimulator S n).execute cfg R e
  else none

def start (texts : Fin n → List Char) : FileSimulator S n :=
  ⟨Simulator.start fun _ => [], fun i => .opened (texts i)⟩

/-- The loop of `run` on files with the given texts. -/
def system (cfg : Config) (R : ProtocolRules S) (texts : Fin n → List Char) :
    System (FileSimulator S n) (Event n) where
  start := fun file => file = start texts
  step := fun file e file' => file.sim.finished = false ∧ file.processNext cfg R e = some file'

/-- The simulator that has the entries its streams will yield. -/
def toEntries (file : FileSimulator S n) : Simulator S n :=
  { file.sim with traces := fun i => (file.streams i).entries }

end FileSimulator

/-! ### What a stream yields -/

namespace IntegerStream
variable {stream stream' : IntegerStream} {entry : TraceEntry}

/-- A read either fails the stream or takes characters from it. -/
theorem readEntry_cases (stream : IntegerStream) :
    (stream.readEntry.1 = none ∧ stream.readEntry.2.failed = true) ∨
    (∃ entry, stream.readEntry.1 = some entry ∧ stream.failed = false ∧
      stream.readEntry.2.failed = false ∧
      stream.readEntry.2.rest.length < stream.rest.length) := by
  rcases extract_cases (fitSigned 32) stream with ⟨rest, hlabel⟩ | ⟨label, rest, hf, hlt, hlabel⟩
  · left
    have hfail : ({ stream with rest := rest, failed := true } : IntegerStream).hex.failed = true :=
      rfl
    simp [readEntry, hlabel, extract_of_failed hfail, hfail]
  · rcases extract_cases (fitUnsigned 32) ({ stream with rest := rest } : IntegerStream).hex with
      ⟨rest', hval⟩ | ⟨value, rest', -, hlt', hval⟩
    · left
      simp [readEntry, hlabel, hval]
    · right
      refine ⟨⟨label, value⟩, ?_⟩
      simp only [readEntry, hlabel, hval]
      exact ⟨trivial, hf, hf, hlt'.trans hlt⟩

theorem readEntry_some (h : stream.readEntry = (some entry, stream')) :
    stream'.rest.length < stream.rest.length := by
  rcases readEntry_cases stream with ⟨hnone, -⟩ | ⟨-, -, -, -, hlt⟩
  · simp [h] at hnone
  · rwa [h] at hlt

theorem readEntry_of_failed (hf : stream.failed = true) : stream.readEntry.1 = none := by
  simp [readEntry, extract_of_failed hf]

/-- More fuel than characters makes no difference. -/
theorem entriesWithin_enough {fuel fuel' : Nat} (hfuel : stream.rest.length < fuel)
    (hfuel' : stream.rest.length < fuel') :
    stream.entriesWithin fuel = stream.entriesWithin fuel' := by
  induction fuel generalizing stream fuel' with
  | zero => omega
  | succ fuel ih =>
    obtain ⟨fuel', rfl⟩ : ∃ k, fuel' = k + 1 := ⟨fuel' - 1, by omega⟩
    simp only [entriesWithin]
    split
    · rfl
    · rename_i entry stream' hread
      have hlt := readEntry_some hread
      exact congrArg (entry :: ·) (ih (by omega) (by omega))

/-- The entries of a stream are the one it yields next and those after it. -/
theorem entries_eq (stream : IntegerStream) :
    stream.entries =
      match stream.readEntry with
      | (none, _) => []
      | (some entry, stream') => entry :: stream'.entries := by
  rw [entries, entriesWithin]
  split
  · rfl
  · rename_i entry stream' hread
    have hlt := readEntry_some hread
    exact congrArg (entry :: ·) (entriesWithin_enough (by omega) (by omega))

theorem entries_of_some (h : stream.readEntry = (some entry, stream')) :
    stream.entries = entry :: stream'.entries := by
  rw [entries_eq, h]

theorem entries_of_none (h : stream.readEntry.1 = none) : stream.entries = [] := by
  rw [entries_eq]
  split
  · rfl
  · rename_i hread
    simp [hread] at h

/-! ### Printed traces -/

theorem entries_space {c : Char} (hc : isSpace c = true) (text : List Char) (base : Nat) :
    (⟨c :: text, base, false⟩ : IntegerStream).entries =
      (⟨text, base, false⟩ : IntegerStream).entries := by
  have hread : (⟨c :: text, base, false⟩ : IntegerStream).readEntry =
      (⟨text, base, false⟩ : IntegerStream).readEntry := by
    rw [readEntry, readEntry, extract_space hc]
  rw [entries_eq, hread, ← entries_eq]

/-- The label is read in the base the stream is in, the value always in base sixteen. -/
theorem readEntry_print {base : Nat} (hle : 10 ≤ base) (hbase : base ≤ 16) (entry : TraceEntry)
    (hlabel : IsInt (readingIn base entry.label)) (text : List Char) :
    (⟨entry.print ++ text, base, false⟩ : IntegerStream).readEntry =
      (some { entry with label := readingIn base entry.label }, ⟨'\n' :: text, 16, false⟩) := by
  have htext : entry.print ++ text =
      decimal entry.label ++ ' ' :: (hexadecimal entry.val.toNat ++ '\n' :: text) := by
    simp [TraceEntry.print]
  have hfirst : (⟨entry.print ++ text, base, false⟩ : IntegerStream).extract (fitSigned 32) =
      (some (readingIn base entry.label),
        ⟨' ' :: (hexadecimal entry.val.toNat ++ '\n' :: text), base, false⟩) :=
    extract_field rfl (by rw [htext]; exact dropWhile_decimal _ _)
      (scan_decimal hle hbase entry.label (space_ends_field base rfl) _)
      ((fitSigned_eq_some_iff entry.label _).mpr ⟨rfl, hlabel⟩)
  have hsecond : (⟨' ' :: (hexadecimal entry.val.toNat ++ '\n' :: text), 16, false⟩ :
      IntegerStream).extract (fitUnsigned 32) = (some entry.val, ⟨'\n' :: text, 16, false⟩) :=
    extract_field rfl rfl (scan_hexadecimal entry.val.toNat rfl text)
      (fitUnsigned_toNat entry.val)
  simp only [readEntry, hfirst, hex, hsecond]

theorem entries_print {base : Nat} (hle : 10 ≤ base) (hbase : base ≤ 16) (entry : TraceEntry)
    (hlabel : IsInt (readingIn base entry.label)) (text : List Char) :
    (⟨entry.print ++ text, base, false⟩ : IntegerStream).entries =
      { entry with label := readingIn base entry.label } ::
        (⟨text, 16, false⟩ : IntegerStream).entries := by
  rw [entries_of_some (readEntry_print hle hbase entry hlabel text), entries_space rfl]

/-- A label that is no `int` in the base the stream is in ends the trace. -/
theorem entries_print_of_not_isInt {base : Nat} (hle : 10 ≤ base) (hbase : base ≤ 16)
    (entry : TraceEntry) (hlabel : ¬ IsInt (readingIn base entry.label)) (text : List Char) :
    (⟨entry.print ++ text, base, false⟩ : IntegerStream).entries = [] := by
  have htext : entry.print ++ text =
      decimal entry.label ++ ' ' :: (hexadecimal entry.val.toNat ++ '\n' :: text) := by
    simp [TraceEntry.print]
  have hfit : fitSigned 32 (decide (entry.label < 0))
      (Nat.ofDigits base (Nat.digits 10 entry.label.natAbs)) = none := by
    rw [Option.eq_none_iff_forall_ne_some]
    intro v hv
    obtain ⟨rfl, hrange⟩ := (fitSigned_eq_some_iff entry.label v).mp hv
    exact hlabel hrange
  have hspace := dropWhile_decimal entry.label
    (' ' :: (hexadecimal entry.val.toNat ++ '\n' :: text))
  have hscan := scan_decimal hle hbase entry.label (space_ends_field base (c := ' ') rfl)
    (hexadecimal entry.val.toNat ++ '\n' :: text)
  apply entries_of_none
  rw [readEntry, htext]
  simp only [extract, Bool.false_eq_true, if_false, hspace, hscan, Option.bind_some, hfit]

theorem entries_nil (base : Nat) : (⟨[], base, false⟩ : IntegerStream).entries = [] :=
  entries_of_none rfl

end IntegerStream

/-- An entry whose label is read in base sixteen. -/
def TraceEntry.relabelled (entry : TraceEntry) : TraceEntry :=
  { entry with label := readingIn 16 entry.label }

/-- What the reader makes of the entries of a printed trace. -/
def reread : List TraceEntry → List TraceEntry
  | [] => []
  | entry :: rest => entry :: rest.map TraceEntry.relabelled

/-- Every label is an `int` in the base it is read in. -/
def LabelsFit : List TraceEntry → Prop
  | [] => True
  | entry :: rest => IsInt entry.label ∧ ∀ later ∈ rest, IsInt later.relabelled.label

/-- The base flag after the entries of a printed trace. -/
def baseAfter (trace : List TraceEntry) : Nat := if trace.isEmpty then 10 else 16

theorem entries_printTrace_hex {trace : List TraceEntry}
    (hfit : ∀ entry ∈ trace, IsInt entry.relabelled.label) (text : List Char) :
    (⟨printTrace trace ++ text, 16, false⟩ : IntegerStream).entries =
      trace.map TraceEntry.relabelled ++ (⟨text, 16, false⟩ : IntegerStream).entries := by
  induction trace with
  | nil => rfl
  | cons entry rest ih =>
    have hrest := ih fun later hlater => hfit later (List.mem_cons_of_mem _ hlater)
    have hentry : IsInt (readingIn 16 entry.label) := hfit entry List.mem_cons_self
    rw [printTrace, List.flatMap_cons, List.append_assoc,
      entries_print (by decide) (by decide) entry hentry]
    exact congrArg (entry.relabelled :: ·) hrest

theorem entries_printTrace {trace : List TraceEntry} (hfit : LabelsFit trace) (text : List Char) :
    (opened (printTrace trace ++ text)).entries =
      reread trace ++ (⟨text, baseAfter trace, false⟩ : IntegerStream).entries := by
  cases trace with
  | nil => rfl
  | cons entry rest =>
    obtain ⟨hentry, hrest⟩ := hfit
    have hlabel : readingIn 10 entry.label = entry.label := readingIn_ten entry.label
    have hfirst := entries_print (le_refl 10) (by decide) entry (hlabel.symm ▸ hentry)
      (printTrace rest ++ text)
    rw [hlabel, entries_printTrace_hex hrest] at hfirst
    rw [printTrace, List.flatMap_cons, List.append_assoc]
    exact hfirst

theorem baseAfter_mem (trace : List TraceEntry) : 10 ≤ baseAfter trace ∧ baseAfter trace ≤ 16 := by
  rw [baseAfter]
  split <;> decide

theorem reread_of_digits {trace : List TraceEntry} (h : ∀ entry ∈ trace, entry.label.natAbs < 10) :
    reread trace = trace := by
  cases trace with
  | nil => rfl
  | cons entry rest =>
    have hrest (later : TraceEntry) (hlater : later ∈ rest) : later.relabelled = later := by
      rw [TraceEntry.relabelled, readingIn_of_digit (h later (List.mem_cons_of_mem _ hlater))]
    rw [reread, List.map_congr_left hrest, List.map_id']

/-- A printed trace, with any text behind it, is read entry by entry up to that text. Of all
labels only the first one is read in the base it is written in, which makes no difference to
labels of one digit. Nothing is read from a label on that is then no `int`. -/
theorem printed_trace_read_back (trace : List TraceEntry) (hfit : LabelsFit trace) :
    (∀ text, (opened (printTrace trace ++ text)).entries =
      reread trace ++ (⟨text, baseAfter trace, false⟩ : IntegerStream).entries) ∧
    (∀ (entry : TraceEntry) text, ¬ IsInt (readingIn (baseAfter trace) entry.label) →
      (opened (printTrace trace ++ (entry.print ++ text))).entries = reread trace) ∧
    ((∀ entry ∈ trace, entry.label.natAbs < 10) →
      (opened (printTrace trace)).entries = trace) := by
  refine ⟨entries_printTrace hfit, ?_, ?_⟩
  · intro entry text hlabel
    obtain ⟨hle, hbase⟩ := baseAfter_mem trace
    rw [entries_printTrace hfit, entries_print_of_not_isInt hle hbase entry hlabel,
      List.append_nil]
  · intro hdigits
    have hread := entries_printTrace hfit []
    rwa [List.append_nil, entries_nil, List.append_nil, reread_of_digits hdigits] at hread

/-- The same number, written twice: a load in both places, though not with one label. -/
theorem printed_trace_read_back_twelve :
    (opened (printTrace [⟨12, 64⟩, ⟨12, 64⟩] ++ "12 oops".toList)).entries =
      [⟨12, 64⟩, ⟨18, 64⟩] := by
  rw [(printed_trace_read_back [⟨12, 64⟩, ⟨12, 64⟩] (by simp [LabelsFit]; decide)).1]
  decide

/-! ### Files and entries -/

namespace Simulator
variable {S : Type} [LineState S] {n : Nat} {cfg : Config} {R : ProtocolRules S}

def withTraces (sim : Simulator S n) (traces : Fin n → List TraceEntry) : Simulator S n :=
  { sim with traces := traces }

theorem executeEntry_withTraces (sim : Simulator S n) (traces : Fin n → List TraceEntry) (t : Nat)
    (i : Fin n) (entry : TraceEntry) : (sim.withTraces traces).executeEntry cfg R t i entry =
      (sim.executeEntry cfg R t i entry).withTraces traces := by
  have haccess : (sim.withTraces traces).access cfg R i entry = sim.access cfg R i entry := rfl
  by_cases hcompute : entry.label = 2
  · simp only [executeEntry, if_pos hcompute]
    rfl
  · simp only [executeEntry, if_neg hcompute, haccess]
    by_cases hhit : ((sim.access cfg R i entry).1.isHit &&
        (sim.access cfg R i entry).1.busAction == .none) = true
    · simp only [if_pos hhit]
      rfl
    · simp only [if_neg hhit]
      cases hbusy : sim.busBusy <;> simp only [withTraces, hbusy] <;> rfl

/-- Only a fetch looks at the traces. -/
theorem execute_withTraces (sim : Simulator S n) (traces : Fin n → List TraceEntry) {e : Event n}
    (he : ∀ t i, e ≠ .fetch t i) : (sim.withTraces traces).execute cfg R e =
      (sim.execute cfg R e).map fun s => s.withTraces traces := by
  cases e with
  | busRelease t =>
    cases hqueue : sim.busQueue.isEmpty <;>
      simp only [execute, busRelease, withTraces, hqueue] <;> rfl
  | busArbitration t =>
    cases hbusy : sim.busBusy with
    | true => simp [execute, busArbitration, withTraces, hbusy]
    | false =>
      simp only [execute, busArbitration, withTraces, hbusy, Bool.false_eq_true, if_false]
      cases minElement (BusRequest.precedes cfg.readPriority) sim.busQueue with
      | none => simp [hbusy]
      | some req =>
        dsimp only
        cases handleBusTransaction R cfg.geometry sim.machine req.coreId req.type req.addr with
        | none => rfl
        | some result =>
          by_cases hwb : req.type = .writeback
          · simp [hwb, schedule]
          · simp [hwb, schedule]
  | coreUnblock t i => rfl
  | fetch t i => exact absurd rfl (he t i)

end Simulator

namespace FileSimulator
open Simulator (withTraces executeEntry_withTraces execute_withTraces)
variable {S : Type} [LineState S] {n : Nat} {cfg : Config} {R : ProtocolRules S}
  {texts : Fin n → List Char}

theorem toEntries_fetch (file : FileSimulator S n) (t : Nat) (i : Fin n) :
    (file.fetch cfg R t i).toEntries = file.toEntries.fetch cfg R t i := by
  rw [fetch, Simulator.fetch]
  cases hblocked : file.sim.blocked i with
  | true => simp [toEntries, hblocked]
  | false =>
    have hblocked' : file.toEntries.blocked i = false := hblocked
    have hothers (stream : IntegerStream) (hstream : stream.entries = (file.streams i).entries) :
        (fun j => (Function.update file.streams i stream j).entries) =
          fun j => (file.streams j).entries := by
      funext j
      by_cases hj : j = i
      · subst hj
        rw [Function.update_self, hstream]
      · rw [Function.update_of_ne hj]
    simp only [hblocked', Bool.false_eq_true, if_false]
    rcases readEntry_cases (file.streams i) with ⟨hnone, hfailed⟩ | ⟨entry, hsome, -⟩
    · have hempty : (file.streams i).entries = [] := entries_of_none hnone
      have hafter : (file.streams i).readEntry.2.entries = [] :=
        entries_of_none (readEntry_of_failed hfailed)
      have htrace : file.toEntries.traces i = [] := hempty
      simp only [hnone, htrace]
      simp only [toEntries, hothers _ (hafter.trans hempty.symm)]
    · have hread : (file.streams i).readEntry = (some entry, (file.streams i).readEntry.2) := by
        rw [← hsome]
      have htrace : file.toEntries.traces i = entry :: (file.streams i).readEntry.2.entries :=
        entries_of_some hread
      have hlater : (fun j => (Function.update file.streams i (file.streams i).readEntry.2 j).entries)
          = Function.update file.toEntries.traces i (file.streams i).readEntry.2.entries := by
        funext j
        by_cases hj : j = i
        · subst hj
          simp
        · simp [Function.update_of_ne hj, toEntries]
      simp only [hsome, htrace]
      rw [toEntries]
      simp only [hlater]
      exact (executeEntry_withTraces file.sim _ t i entry).symm

theorem toEntries_execute (file : FileSimulator S n) (e : Event n) :
    (file.execute cfg R e).map toEntries = file.toEntries.execute cfg R e := by
  have hothers (he : ∀ t i, e ≠ .fetch t i) :
      ((file.sim.execute cfg R e).map fun sim => ({ file with sim := sim } : FileSimulator S n)).map
        toEntries = file.toEntries.execute cfg R e := by
    rw [Option.map_map]
    exact (execute_withTraces file.sim (fun i => (file.streams i).entries) he).symm
  cases e with
  | busRelease t => exact hothers (by simp)
  | busArbitration t => exact hothers (by simp)
  | coreUnblock t i => exact hothers (by simp)
  | fetch t i => exact congrArg some (toEntries_fetch file t i)

theorem toEntries_processNext (file : FileSimulator S n) (e : Event n) :
    (file.processNext cfg R e).map toEntries = file.toEntries.processNext cfg R e := by
  have hpop : ({ file with sim := file.sim.pop e } : FileSimulator S n).toEntries =
      file.toEntries.pop e := rfl
  have hqueue : file.toEntries.eventQueue = file.sim.eventQueue := rfl
  rw [processNext, Simulator.processNext, hqueue]
  simp only [List.contains_eq_mem, Bool.and_eq_true, decide_eq_true_eq]
  split
  · rw [toEntries_execute, hpop]
  · rfl

/-- Whatever the files hold, their simulation is the simulation of the entries they yield. -/
theorem projects_entries : System.Projects (system cfg R texts)
    (Simulator.system cfg R fun i => (opened (texts i)).entries) toEntries where
  start := by
    rintro file rfl
    rfl
  start_lift := by
    rintro sim rfl
    exact ⟨start texts, rfl, rfl⟩
  step := by
    rintro file e file' ⟨hfin, hstep⟩
    refine ⟨hfin, ?_⟩
    rw [← toEntries_processNext, hstep]
    rfl
  lift := by
    rintro file e sim' ⟨hfin, hstep⟩
    rw [← toEntries_processNext] at hstep
    obtain ⟨file', hfile, rfl⟩ := Option.map_eq_some_iff.mp hstep
    exact ⟨file', ⟨hfin, hfile⟩, rfl⟩

theorem remaining_step {p : ProtocolName} {file file' : FileSimulator p.State n} {e : Event n}
    (hstep : (system cfg p.rules texts).step file e file') :
    file'.toEntries.remaining < file.toEntries.remaining :=
  Simulator.remaining_step (projects_entries.step file e file' hstep)

/-- A run can be carried on until the loop is left. -/
theorem exists_ended {p : ProtocolName} {h : List (Move (FileSimulator p.State n) (Event n))}
    {file : FileSimulator p.State n} (hr : (system cfg p.rules texts).Run h file) :
    ∃ later file', (system cfg p.rules texts).Run (later ++ h) file' ∧ file'.sim.ended = true := by
  refine hr.exists_end (f := fun file => file.toEntries.remaining)
    (D := fun file => file.sim.ended = true) remaining_step ?_
  intro file hreach
  cases hend : file.sim.ended with
  | true => exact .inl rfl
  | false =>
    obtain ⟨hfin, hqueue⟩ := Bool.or_eq_false_iff.mp hend
    obtain ⟨e, he, htop⟩ := Event.exists_top (List.isEmpty_eq_false_iff.mp hqueue)
    obtain ⟨sim', hstep⟩ :=
      Simulator.step_exists p.missFills (projects_entries.reached hreach) hfin he htop
    obtain ⟨file', hstep, -⟩ := projects_entries.lift file e sim' hstep
    exact .inr ⟨e, file', hstep⟩

theorem length_le {p : ProtocolName} {h : List (Move (FileSimulator p.State n) (Event n))}
    {file : FileSimulator p.State n} (hr : (system cfg p.rules texts).Run h file) :
    h.length ≤ (start texts : FileSimulator p.State n).toEntries.remaining := by
  have hle := hr.length_add_le (f := fun file => file.toEntries.remaining)
    (fun s hs => Nat.le_of_eq (by rw [hs])) remaining_step
  omega

/-- For files with any text at all the loop ends, and each core has then executed the entries
that its file yields up to its end or to the first field that is not a number in range. -/
theorem file_run_total_correctness (p : ProtocolName) (cfg : Config) (texts : Fin n → List Char) :
    (∃ bound, ∀ h file, (system cfg p.rules texts).Run h file → h.length ≤ bound) ∧
    (∀ h file, (system cfg p.rules texts).Run h file →
      ∃ later file', (system cfg p.rules texts).Run (later ++ h) file' ∧ file'.sim.ended = true) ∧
    (∀ h file, (system cfg p.rules texts).Run h file → file.sim.ended = true →
      file.sim.busBusy = false ∧ file.sim.busQueue = [] ∧
      ∀ i, (file.streams i).entries = [] ∧
        Simulator.executed i (h.map (Move.map toEntries)) = (opened (texts i)).entries) := by
  refine ⟨⟨_, fun h file => length_le⟩, fun h file => exists_ended, ?_⟩
  intro h file hr hend
  have hrun := projects_entries.run hr
  obtain ⟨hexh, hfree, hqueue⟩ := Simulator.idle_of_ended p.missFills hrun.reached hend
  refine ⟨hfree, hqueue, ?_⟩
  intro i
  have hempty : file.toEntries.traces i = [] :=
    (Simulator.exhaustedInv_reached hrun.reached i (hexh i)).2
  have hentries := (Simulator.executedInv_run hrun).entries i
  rw [hempty, List.append_nil] at hentries
  exact ⟨hempty, hentries⟩

theorem file_run_total_correctness_printed :
    ∃ (h : List (Move (FileSimulator MESIState 2) (Event 2))) (file : FileSimulator MESIState 2),
      (system tinyConfig (ProtocolName.rules .mesi) fun i => printTrace (storeAndLoad i)).Run h file ∧
      file.sim.ended = true ∧ Simulator.executed 0 (h.map (Move.map toEntries)) = [⟨1, 0⟩] := by
  obtain ⟨h', s, hr', hend⟩ := Simulator.exists_run tinyConfig (ProtocolName.rules .mesi)
    (fun i => (opened (printTrace (storeAndLoad i))).entries)
    [.fetch 0 0, .busArbitration 0, .fetch 0 1, .busRelease 101, .busArbitration 101,
      .coreUnblock 101 0, .fetch 101 0, .busRelease 104, .coreUnblock 104 1, .fetch 104 1]
    (fun _ s => s.ended) (by decide +kernel)
  obtain ⟨h, file, hr, -, rfl⟩ := projects_entries.run_lift hr'
  have hfinal := (file_run_total_correctness .mesi tinyConfig
    fun i => printTrace (storeAndLoad i)).2.2 h file hr hend
  exact ⟨h, file, hr, hend, (hfinal.2.2 0).2.trans (by decide)⟩

end FileSimulator

/-! ### Printed files and the traces they were printed from -/

/-- The entry with the label that `FetchEvent::execute` tells apart. -/
def TraceEntry.kind (entry : TraceEntry) : TraceEntry :=
  { entry with label := if entry.label = 1 then 1 else if entry.label = 2 then 2 else 0 }

theorem TraceEntry.kind_relabelled (entry : TraceEntry) : entry.relabelled.kind = entry.kind := by
  have hdigit (k : Int) (hk : k.natAbs < 10) : entry.relabelled.label = k ↔ entry.label = k :=
    readingIn_eq_digit_iff (by decide) hk
  simp only [kind, hdigit 1 (by decide), hdigit 2 (by decide)]
  rfl

theorem map_kind_reread (trace : List TraceEntry) :
    (reread trace).map TraceEntry.kind = trace.map TraceEntry.kind := by
  cases trace with
  | nil => rfl
  | cons entry rest => simp [reread, TraceEntry.kind_relabelled]

namespace Simulator
variable {S : Type} [LineState S] {n : Nat} {cfg : Config} {R : ProtocolRules S}
  {traces : Fin n → List TraceEntry}

def toKinds (sim : Simulator S n) : Simulator S n :=
  sim.withTraces fun i => (sim.traces i).map TraceEntry.kind

theorem executeEntry_kind (sim : Simulator S n) (t : Nat) (i : Fin n) (entry : TraceEntry) :
    sim.executeEntry cfg R t i entry.kind = sim.executeEntry cfg R t i entry := by
  have hcompute : entry.kind.label = 2 ↔ entry.label = 2 := by
    simp only [TraceEntry.kind]
    split <;> grind
  have hwrite : entry.kind.isWrite = entry.isWrite := by
    simp only [TraceEntry.isWrite, TraceEntry.kind]
    split <;> grind
  have haccess : sim.access cfg R i entry.kind = sim.access cfg R i entry := by
    simp only [access, hwrite]
    rfl
  simp only [executeEntry, hcompute, haccess]
  rfl

theorem toKinds_fetch (sim : Simulator S n) (t : Nat) (i : Fin n) :
    (sim.fetch cfg R t i).toKinds = sim.toKinds.fetch cfg R t i := by
  have htraces : sim.toKinds.traces i = (sim.traces i).map TraceEntry.kind := rfl
  rw [fetch, fetch]
  cases hblocked : sim.blocked i with
  | true => simp [toKinds, withTraces, hblocked]
  | false =>
    have hblocked' : sim.toKinds.blocked i = false := hblocked
    simp only [hblocked', Bool.false_eq_true, if_false]
    cases hread : sim.traces i with
    | nil =>
      simp only [htraces, hread, List.map_nil]
      rfl
    | cons entry rest =>
      have hlater : (fun j => (Function.update sim.traces i rest j).map TraceEntry.kind) =
          Function.update sim.toKinds.traces i (rest.map TraceEntry.kind) := by
        funext j
        by_cases hj : j = i
        · subst hj
          simp
        · simp [Function.update_of_ne hj, toKinds, withTraces]
      simp only [htraces, hread, List.map_cons, executeEntry_kind]
      calc ((sim.withTraces (Function.update sim.traces i rest)).executeEntry cfg R t i entry).toKinds
          = (sim.executeEntry cfg R t i entry).withTraces
              (fun j => (Function.update sim.traces i rest j).map TraceEntry.kind) := by
            rw [executeEntry_withTraces]
            rfl
        _ = (sim.withTraces (Function.update sim.toKinds.traces i
              (rest.map TraceEntry.kind))).executeEntry cfg R t i entry := by
            rw [executeEntry_withTraces, hlater]

theorem toKinds_processNext (sim : Simulator S n) (e : Event n) :
    (sim.processNext cfg R e).map toKinds = sim.toKinds.processNext cfg R e := by
  have hothers (he : ∀ t i, e ≠ .fetch t i) :
      ((sim.pop e).execute cfg R e).map toKinds = (sim.pop e).toKinds.execute cfg R e := by
    have hsame : (sim.pop e).execute cfg R e =
        ((sim.pop e).execute cfg R e).map fun s => s.withTraces sim.traces :=
      execute_withTraces (sim.pop e) sim.traces he
    rw [hsame, Option.map_map]
    exact (execute_withTraces (sim.pop e) (fun i => (sim.traces i).map TraceEntry.kind) he).symm
  have hqueue : sim.toKinds.eventQueue = sim.eventQueue := rfl
  rw [processNext, processNext, hqueue]
  split
  · cases e with
    | busRelease t => exact hothers (by simp)
    | busArbitration t => exact hothers (by simp)
    | coreUnblock t i => exact hothers (by simp)
    | fetch t i => exact congrArg some (toKinds_fetch _ t i)
  · rfl

/-- The labels that are not told apart may be changed. -/
theorem projects_kinds : System.Projects (system cfg R traces)
    (system cfg R fun i => (traces i).map TraceEntry.kind) toKinds where
  start := by
    rintro sim rfl
    rfl
  start_lift := by
    rintro sim rfl
    exact ⟨start traces, rfl, rfl⟩
  step := by
    rintro sim e sim' ⟨hfin, hstep⟩
    refine ⟨hfin, ?_⟩
    rw [← toKinds_processNext, hstep]
    rfl
  lift := by
    rintro sim e kinds ⟨hfin, hstep⟩
    rw [← toKinds_processNext] at hstep
    obtain ⟨sim', hsim, rfl⟩ := Option.map_eq_some_iff.mp hstep
    exact ⟨sim', ⟨hfin, hsim⟩, rfl⟩

/-- Of printed traces all that counts is read back. -/
theorem projects_printed (hfit : ∀ i, LabelsFit (traces i)) :
    System.Projects (FileSimulator.system cfg R fun i => printTrace (traces i))
      (system cfg R fun i => (traces i).map TraceEntry.kind) (toKinds ∘ FileSimulator.toEntries) := by
  have hkinds : (fun i => ((opened (printTrace (traces i))).entries).map TraceEntry.kind) =
      fun i => (traces i).map TraceEntry.kind := by
    funext i
    have hread := entries_printTrace (hfit i) []
    rw [List.append_nil, entries_nil, List.append_nil] at hread
    rw [hread, map_kind_reread]
  rw [← hkinds]
  exact FileSimulator.projects_entries.trans projects_kinds

/-- Everything but the input that is still to be read. -/
def core (sim : Simulator S n) : Simulator S n := sim.withTraces fun _ => []

theorem core_run (hfit : ∀ i, LabelsFit (traces i))
    {h : List (Move (FileSimulator S n) (Event n))} {file : FileSimulator S n}
    (hr : (FileSimulator.system cfg R fun i => printTrace (traces i)).Run h file) :
    ∃ h' s, (system cfg R traces).Run h' s ∧ s.core = file.sim.core ∧
      h'.map (Move.map core) = h.map (Move.map fun file => file.sim.core) := by
  have traceKinds : System.Projects (system cfg R traces)
      (system cfg R fun i => (traces i).map TraceEntry.kind) toKinds := projects_kinds
  obtain ⟨h', s, hr', hs, hmoves⟩ := (projects_printed hfit).run_common traceKinds hr
  have hs : s.toKinds.core = file.toEntries.toKinds.core := congrArg core hs
  have hcore := congrArg (List.map (Move.map core)) hmoves
  rw [System.map_moves_map, System.map_moves_map] at hcore
  exact ⟨h', s, hr', hs, hcore⟩

/-- Printed traces are simulated as the traces they were printed from: the same events are
popped in the same orders, through states that differ in the unread input only. -/
theorem printed_files_simulated (cfg : Config) (R : ProtocolRules S)
    (traces : Fin n → List TraceEntry) (hfit : ∀ i, LabelsFit (traces i)) :
    (∀ h file, (FileSimulator.system cfg R fun i => printTrace (traces i)).Run h file →
      ∃ h' s, (system cfg R traces).Run h' s ∧ s.core = file.sim.core ∧
        h'.map (Move.map core) = h.map (Move.map fun file => file.sim.core)) ∧
    (∀ h' s, (system cfg R traces).Run h' s →
      ∃ h file, (FileSimulator.system cfg R fun i => printTrace (traces i)).Run h file ∧
        s.core = file.sim.core ∧
        h'.map (Move.map core) = h.map (Move.map fun file => file.sim.core)) := by
  have traceKinds : System.Projects (system cfg R traces)
      (system cfg R fun i => (traces i).map TraceEntry.kind) toKinds := projects_kinds
  constructor
  · intro h file hr
    exact core_run hfit hr
  · intro h' s hr'
    obtain ⟨h, file, hr, hs, hmoves⟩ := traceKinds.run_common (projects_printed hfit) hr'
    have hs : file.toEntries.toKinds.core = s.toKinds.core := congrArg core hs
    have hcore := congrArg (List.map (Move.map core)) hmoves
    rw [System.map_moves_map, System.map_moves_map] at hcore
    exact ⟨h, file, hr, hs.symm, hcore.symm⟩

theorem printed_files_simulated_storeAndLoad :
    ∃ (h : List (Move (FileSimulator MESIState 2) (Event 2))) (file : FileSimulator MESIState 2),
      (FileSimulator.system tinyConfig (ProtocolName.rules .mesi)
        fun i => printTrace (storeAndLoad i)).Run h file ∧ file.sim.currentTime = 104 := by
  obtain ⟨h', s, hr', htime⟩ := exists_run tinyConfig (ProtocolName.rules .mesi) storeAndLoad
    [.fetch 0 0, .busArbitration 0, .fetch 0 1, .busRelease 101, .busArbitration 101,
      .coreUnblock 101 0, .fetch 101 0, .busRelease 104, .coreUnblock 104 1, .fetch 104 1]
    (fun _ s => s.currentTime == 104) (by decide +kernel)
  obtain ⟨h, file, hr, hcore, -⟩ := (printed_files_simulated tinyConfig (ProtocolName.rules .mesi)
    storeAndLoad (Fin.forall_fin_two.mpr ⟨⟨by decide, by simp⟩, by decide, by simp⟩)).2 h' s hr'
  have hsame : s.core.currentTime = file.sim.core.currentTime := congrArg currentTime hcore
  exact ⟨h, file, hr, hsame.symm.trans (beq_iff_eq.mp htime)⟩

end Simulator
end CoherenceFormal
