import CoherenceFormal.TraceFile
import CoherenceFormal.Report

/-!
# The program

`main` takes a protocol, a benchmark and the three numbers of a cache from the command line,
opens the traces of four cores, simulates them and prints the report. Whether reads come first
is a flag of the build. An argument that is no number, a trace that does not open and a protocol
that does not exist stop it before the event loop, with a message and exit code 1.
-/

namespace CoherenceFormal
open LineState IntegerField IntegerStream PrintedText Report
set_option autoImplicit false

namespace Program

/-- `std::stoi`, which throws if there is no number or it is no `int`. The string ends with a
null character. -/
def stoi (text : List Char) : Option Int :=
  (scan 10 ((text ++ ['\x00']).dropWhile isSpace)).1.bind fun field =>
    fitSigned 32 field.1 field.2

def tracePath (benchmark : List Char) (i : Nat) : List Char :=
  "../".toList ++ benchmark ++ "_four/".toList ++ benchmark ++ "_".toList ++ Nat.toDigits 10 i ++
    ".data".toList

def protocolNamed (proto : List Char) : Option ProtocolName :=
  if proto = "MESI".toList then some .mesi
  else if proto = "DRAGON".toList then some .dragon
  else if proto = "MESIF".toList then some .mesif
  else if proto = "SMART".toList then some .smart
  else if proto = "MOESI".toList then some .moesi
  else none

/-- What is known when the event loop is entered, or printed when it is not. -/
inductive Setup where
  | stops (message : List Char)
  | simulates (p : ProtocolName) (size assoc bsize : Int) (texts : Fin 4 → List Char)

/-- `Simulator(proto, benchmark, csize, assoc, bsize, 4)`: the traces are opened first. -/
def construct (files : List Char → Option (List Char)) (proto benchmark : List Char)
    (size assoc bsize : Int) : Setup :=
  match (List.finRange 4).find? fun i : Fin 4 => (files (tracePath benchmark i)).isNone with
  | some i =>
    .stops ("Error: Failed to open trace: ".toList ++ tracePath benchmark i ++ ['\n'])
  | none =>
    match protocolNamed proto with
    | some p => .simulates p size assoc bsize fun i => (files (tracePath benchmark i)).getD []
    | none => .stops ("Error: Unknown protocol: ".toList ++ proto ++
        "; \nAccepted: MESI DRAGON MESIF SMART MOESI\n".toList)

/-- `main` up to the event loop. -/
def setup (files : List Char → Option (List Char)) (args : List (List Char)) : Setup :=
  if args.length ≠ 5 then
    .stops ("Usage: ./coherence <PROTOCOL> <BENCHMARK> <CACHE_SIZE> <ASSOC> " ++
      "<BLOCK_SIZE>\n").toList
  else
    match (stoi (args.getD 2 [])).bind fun size => (stoi (args.getD 3 [])).bind fun assoc =>
      (stoi (args.getD 4 [])).map fun bsize => (size, assoc, bsize) with
    | none => .stops "Error: stoi\n".toList
    | some (size, assoc, bsize) =>
      construct files ((args.getD 0 []).map Char.toUpper) (args.getD 1 []) size assoc bsize

structure Outcome where
  exitCode : Nat
  output : List Char
  errors : List Char

/-- An execution of `main`, for numbers that are those of a cache. A loop that came to a halt in
the middle would have no outcome, but every loop can go on to its end (`exists_ended`). -/
inductive Executes (fixed : Nat → Nat → Nat → List Char) (readPriority : Bool)
    (files : List Char → Option (List Char)) (args : List (List Char)) : Outcome → Prop where
  | stops {message : List Char} (stopped : setup files args = .stops message) :
      Executes fixed readPriority files args ⟨1, [], message⟩
  | simulates {p : ProtocolName} {size assoc bsize : Int} {texts : Fin 4 → List Char}
      {g : Geometry} {h : List (Move (FileSimulator p.State 4) (Event 4))}
      {file : FileSimulator p.State 4}
      (started : setup files args = .simulates p size assoc bsize texts)
      (csize : size = g.csize) (ways : assoc = g.assoc) (block : bsize = g.bsize)
      (run : (FileSimulator.system ⟨readPriority, g⟩ p.rules texts).Run h file)
      (ended : file.sim.ended = true) :
      Executes fixed readPriority files args ⟨0, file.sim.report p fixed, []⟩

/-! ### The arguments -/

/-- A number that is printed as an argument is read back. -/
theorem stoi_decimal {value : Int} (h : IsInt value) : stoi (decimal value) = some value := by
  have hend : digitValue 10 '\x00' = none ∧ '\x00' ≠ 'x' ∧ '\x00' ≠ 'X' :=
    ⟨rfl, by decide, by decide⟩
  rw [stoi, dropWhile_decimal, scan_decimal (le_refl 10) (by decide) value hend, Option.bind_some]
  exact (fitSigned_eq_some_iff value value).mpr ⟨(readingIn_ten value).symm, h⟩

section
variable {g : Geometry}

theorem isInt_csize (g : Geometry) : IsInt (g.csize : Int) := by
  have hlt := g.csize_lt
  unfold IsInt
  omega

theorem isInt_assoc (g : Geometry) : IsInt (g.assoc : Int) := by
  have hlt := g.csize_lt
  have hle : g.assoc ≤ g.assoc * g.bsize := Nat.le_mul_of_pos_right _ g.bsize_pos
  have hfits := g.fits
  unfold IsInt
  omega

theorem isInt_bsize (g : Geometry) : IsInt (g.bsize : Int) := by
  have hlt := g.csize_lt
  have hle : g.bsize ≤ g.assoc * g.bsize := Nat.le_mul_of_pos_left _ g.assoc_pos
  have hfits := g.fits
  unfold IsInt
  omega

/-- The command line of an experiment. -/
def experiment (proto benchmark : List Char) (g : Geometry) : List (List Char) :=
  [proto, benchmark, decimal g.csize, decimal g.assoc, decimal g.bsize]

theorem setup_experiment {files : List Char → Option (List Char)} {proto benchmark : List Char}
    {p : ProtocolName} {traces : Fin 4 → List TraceEntry} (g : Geometry)
    (hproto : protocolNamed (proto.map Char.toUpper) = some p)
    (hfiles : ∀ i : Fin 4, files (tracePath benchmark i) = some (printTrace (traces i))) :
    setup files (experiment proto benchmark g) =
      .simulates p g.csize g.assoc g.bsize fun i => printTrace (traces i) := by
  have hopen : ((List.finRange 4).find? fun i : Fin 4 =>
      (files (tracePath benchmark i)).isNone) = none := by
    rw [List.find?_eq_none]
    intro i _
    simp [hfiles]
  have hnumbers : setup files (experiment proto benchmark g) =
      construct files (proto.map Char.toUpper) benchmark g.csize g.assoc g.bsize := by
    simp [setup, experiment, stoi_decimal (isInt_csize g), stoi_decimal (isInt_assoc g),
      stoi_decimal (isInt_bsize g)]
  rw [hnumbers, construct, hopen]
  simp only [hproto, hfiles, Option.getD_some]

end

/-! ### Experiments -/

/-- An experiment over four printed traces whose labels fit comes to its event loop, which is
through after a bounded number of events whatever their order. It ends with exit code 0 in every
execution, and there is one. The rows that the scripts make of its output are those of a
simulation in which every core has executed its whole trace. -/
theorem experiment_rows {fixed : Nat → Nat → Nat → List Char} (hfixed : PrintsRates fixed)
    (readPriority : Bool) (files : List Char → Option (List Char)) (proto benchmark : List Char)
    (p : ProtocolName) (hproto : protocolNamed (proto.map Char.toUpper) = some p) (g : Geometry)
    (traces : Fin 4 → List TraceEntry) (hfit : ∀ i, LabelsFit (traces i))
    (hfiles : ∀ i : Fin 4, files (tracePath benchmark i) = some (printTrace (traces i))) :
    setup files (experiment proto benchmark g) =
      .simulates p g.csize g.assoc g.bsize (fun i => printTrace (traces i)) ∧
    (∃ bound, ∀ h (file : FileSimulator p.State 4),
      (FileSimulator.system ⟨readPriority, g⟩ p.rules fun i => printTrace (traces i)).Run h file →
      h.length ≤ bound ∧ ∃ later file',
        (FileSimulator.system ⟨readPriority, g⟩ p.rules fun i => printTrace (traces i)).Run
          (later ++ h) file' ∧ file'.sim.ended = true) ∧
    (∃ outcome, Executes fixed readPriority files (experiment proto benchmark g) outcome) ∧
    ∀ outcome, Executes fixed readPriority files (experiment proto benchmark g) outcome →
      outcome.exitCode = 0 ∧ outcome.errors = [] ∧
      ∃ (h : List (Move (Simulator p.State 4) (Event 4))) (s : Simulator p.State 4),
        (Simulator.system ⟨readPriority, g⟩ p.rules traces).Run h s ∧ s.ended = true ∧
        (∀ i, Simulator.executed i h = traces i) ∧
        ∀ parameters,
          runAllRow parameters (captured outcome.output) = csv (parameters ++ s.columns) ∧
          runExperimentsRow parameters (captured outcome.output) =
            csv (parameters ++ s.columns) := by
  have hsetup := setup_experiment g hproto hfiles
  refine ⟨hsetup, ⟨_, fun h file hr => ⟨FileSimulator.length_le hr,
    FileSimulator.exists_ended hr⟩⟩, ?_, ?_⟩
  · have hstart : (FileSimulator.system ⟨readPriority, g⟩ p.rules fun i =>
        printTrace (traces i)).Run [] (FileSimulator.start fun i => printTrace (traces i)) :=
      .start rfl
    obtain ⟨later, file, hr, hend⟩ := FileSimulator.exists_ended hstart
    exact ⟨_, .simulates hsetup rfl rfl rfl hr hend⟩
  · intro outcome hexec
    cases hexec with
    | stops stopped =>
      rw [hsetup] at stopped
      cases stopped
    | @simulates p' size assoc bsize texts g' h file started csize ways block run ended =>
      rw [hsetup] at started
      cases started
      have hg : g' = g := by
        cases g
        cases g'
        simp only [Nat.cast_inj] at csize ways block
        simp only [Geometry.mk.injEq]
        exact ⟨csize.symm, ways.symm, block.symm⟩
      subst hg
      obtain ⟨h', s, hr, hcore, -⟩ := Simulator.core_run hfit run
      have hreport : file.sim.report p fixed = s.report p fixed :=
        (congrArg (Simulator.report p fixed) hcore).symm
      have hend : s.ended = true := (congrArg Simulator.ended hcore).trans ended
      refine ⟨rfl, rfl, h', s, hr, hend, ?_, ?_⟩
      · intro i
        exact Simulator.executed_of_ended p.missFills hr hend i
      · intro parameters
        rw [hreport]
        exact Simulator.rows_read hfixed hr.reached parameters

/-- Core 0 stores, and the others load what it has stored. -/
def oneWriter (i : Fin 4) : List TraceEntry := if i = 0 then [⟨1, 0⟩] else [⟨0, 0⟩]

/-- The traces of the benchmark and no other files. -/
def oneWriterFiles (path : List Char) : Option (List Char) :=
  ((List.finRange 4).find? fun i : Fin 4 => decide (path = tracePath "bustest".toList i)).map
    fun i => printTrace (oneWriter i)

theorem experiment_rows_oneWriter : ∃ outcome, Executes Simulator.fixedPoint true oneWriterFiles
    ["mesi".toList, "bustest".toList, "8".toList, "2".toList, "4".toList] outcome ∧
      outcome.exitCode = 0 ∧ outcome.errors = [] := by
  have hargs : experiment "mesi".toList "bustest".toList tinyConfig.geometry =
      ["mesi".toList, "bustest".toList, "8".toList, "2".toList, "4".toList] := by decide
  have hfit (i : Fin 4) : LabelsFit (oneWriter i) := by
    unfold oneWriter
    split <;> exact ⟨by decide, by simp⟩
  have hrows := experiment_rows Simulator.printsRates_fixedPoint true oneWriterFiles
    "mesi".toList "bustest".toList .mesi (by decide) tinyConfig.geometry oneWriter hfit (by decide)
  rw [hargs] at hrows
  obtain ⟨-, -, ⟨outcome, hexec⟩, hall⟩ := hrows
  obtain ⟨hcode, herrors, -⟩ := hall outcome hexec
  exact ⟨outcome, hexec, hcode, herrors⟩

end Program
end CoherenceFormal
