import CoherenceFormal.StatisticsLedger
import CoherenceFormal.RunCompletion
import CoherenceFormal.Shared.PrintedText

/-!
# The report and the scripts that read it

`print_report` of the five protocols, and the columns that `run_all.sh` and `run_experiments.sh`
take out of its output with `grep`, `awk` and `cut`. The floating-point numbers of the report
are a parameter: `fixed precision num den` is what `std::fixed << std::setprecision(precision)`
makes of the double `100.0 * num / den`.
-/

namespace CoherenceFormal
open PrintedText
set_option autoImplicit false

variable {S : Type} {n : Nat}

def ProtocolName.heading : ProtocolName → String
  | .mesi => "===== MESI Protocol Simulation Results ====="
  | .dragon => "===== DRAGON Protocol Simulation Results ====="
  | .mesif => "===== MESIF Protocol Simulation Results ====="
  | .smart => "===== MESI_SMART Protocol Simulation Results ====="
  | .moesi => "===== MOESI Protocol Simulation Results ====="

namespace Report

def cyclesLine (totalCycles : Nat) : Line :=
  [.text "Overall Execution Cycles: ", .number totalCycles]

def trafficLine (stats : GlobalStatistics) : Line :=
  [.text "Total Data Traffic: ", .number stats.totalDataTrafficBytes, .text " bytes"]

def invalidationsLine (stats : GlobalStatistics) : Line :=
  [.text "Total Invalidations: ", .number stats.totalInvalidations]

def transactionsLine (stats : GlobalStatistics) : Line :=
  [.text "Bus Transactions: Rd=", .number stats.busReads, .text " RdX=", .number stats.busReadx,
    .text " Upgr=", .number stats.busUpgrades, .text " WB=", .number stats.busWritebacks,
    .text " C2C=", .number stats.cacheToCacheTransfers]

/-- The idle cycles of a core, which are not printed as negative. -/
def idle (totalCycles : Nat) (stats : Statistics) : Nat :=
  if totalCycles > stats.computeCycles + (stats.loadCount + stats.storeCount) then
    totalCycles - stats.computeCycles - (stats.loadCount + stats.storeCount)
  else 0

/-- The hit rate, which is zero without a load or store. -/
def hitRate (fixed : Nat → Nat → Nat → List Char) (stats : Statistics) : List Char :=
  if 0 < stats.loadCount + stats.storeCount then
    fixed 2 stats.cacheHits (stats.cacheHits + stats.cacheMisses)
  else fixed 2 0 1

def distLines (fixed : Nat → Nat → Nat → List Char) (stats : Statistics) : List Line :=
  if 0 < stats.privateAccesses + stats.sharedAccesses then
    [[.text "Access Dist: Private=",
      .decimal (fixed 1 stats.privateAccesses (stats.privateAccesses + stats.sharedAccesses)),
      .text "% | Shared=",
      .decimal (fixed 1 stats.sharedAccesses (stats.privateAccesses + stats.sharedAccesses)),
      .text "%"]]
  else []

def coreLines (fixed : Nat → Nat → Nat → List Char) (totalCycles i : Nat) (stats : Statistics) :
    List Line :=
  [[],
    [.text "--- Core ", .number i, .text " ---"],
    [.text "Compute Cycles: ", .number stats.computeCycles],
    [.text "Load/Store Instr: ", .number (stats.loadCount + stats.storeCount)],
    [.text "Idle Cycles:    ", .number (idle totalCycles stats)],
    [.text "Hits: ", .number stats.cacheHits, .text " | Misses: ", .number stats.cacheMisses],
    [.text "Hit Rate: ", .decimal (hitRate fixed stats), .text "%"]] ++
  distLines fixed stats ++
  [[.text "Invalidations RX: ", .number stats.invalidationsReceived]]

def totalLines (totalCycles : Nat) (stats : GlobalStatistics) : List Line :=
  [cyclesLine totalCycles, trafficLine stats, invalidationsLine stats, transactionsLine stats]

def printReport (p : ProtocolName) (fixed : Nat → Nat → Nat → List Char) (totalCycles : Nat)
    (m : Machine S n) : List Line :=
  [.text p.heading] :: totalLines totalCycles m.gStats ++
    (List.finRange n).flatMap fun i : Fin n => coreLines fixed totalCycles i (m.cStats i)

/-! ### The columns of the scripts -/

def cycles (output : List Char) : List (List Char) :=
  (grep ["Overall Execution Cycles"] (linesOf output)).map (awkField 4)

def traffic (output : List Char) : List (List Char) :=
  (grep ["Total Data Traffic"] (linesOf output)).map (awkField 4)

/-- `INVAL` of `run_all.sh`. -/
def invalidations (output : List Char) : List (List Char) :=
  (grep ["Total Invalidations", "Total Updates on Bus"] (linesOf output)).map awkLast

/-- `INVAL` of `run_experiments.sh`. -/
def invalidationsThird (output : List Char) : List (List Char) :=
  (grep ["Total Invalidations"] (linesOf output)).map (awkField 3)

def writebacks (output : List Char) : List (List Char) :=
  ((grep ["Bus Transactions"] (linesOf output)).flatMap (grepOnly "WB=".toList 0)).map
    (cutSecond '=')

/-- What a script has in a variable: the lines found, without the last newline. -/
def value (found : List (List Char)) : List Char := captured (found.flatMap (· ++ ['\n']))

def csv (columns : List (List Char)) : List Char := [','].intercalate columns

/-- The line that `run_all.sh` appends to its file. -/
def runAllRow (parameters : List (List Char)) (output : List Char) : List Char :=
  csv (parameters ++ [value (cycles output), value (traffic output), value (invalidations output),
    value (writebacks output)])

/-- The line that `run_experiments.sh` appends to its file. -/
def runExperimentsRow (parameters : List (List Char)) (output : List Char) : List Char :=
  csv (parameters ++ [value (cycles output), value (traffic output),
    value (invalidationsThird output), value (writebacks output)])

/-- Of these lines, each pattern of the scripts matches the line of its total and no other. -/
structure MatchedOnce (totalCycles : Nat) (stats : GlobalStatistics) (lines : List (List Char)) :
    Prop where
  cycles : grep ["Overall Execution Cycles"] lines = [chars (cyclesLine totalCycles)]
  traffic : grep ["Total Data Traffic"] lines = [chars (trafficLine stats)]
  invalidations : grep ["Total Invalidations", "Total Updates on Bus"] lines =
    [chars (invalidationsLine stats)]
  invalidationsThird : grep ["Total Invalidations"] lines = [chars (invalidationsLine stats)]
  transactions : grep ["Bus Transactions"] lines = [chars (transactionsLine stats)]

/-! ### The literal text of the report -/

/-- The patterns that the scripts look for. -/
def patterns : List String :=
  ["Overall Execution Cycles", "Total Data Traffic", "Total Invalidations",
    "Total Updates on Bus", "Bus Transactions"]

theorem patterns_not_numeric : ∀ pattern ∈ patterns, pattern.toList.any numeric = false := by
  decide

def coreText : List String :=
  ["", "--- Core  ---", "Compute Cycles: ", "Load/Store Instr: ", "Idle Cycles:    ",
    "Hits:  | Misses: ", "Hit Rate: %", "Access Dist: Private=% | Shared=%", "Invalidations RX: "]

theorem mem_coreLines {fixed : Nat → Nat → Nat → List Char} {totalCycles i : Nat}
    {stats : Statistics} {line : Line} (h : line ∈ coreLines fixed totalCycles i stats) :
    (∃ text ∈ coreText, skeleton line = text.toList) ∧
      ∀ digits, Piece.decimal digits ∈ line → digits = hitRate fixed stats ∨
        (0 < stats.privateAccesses + stats.sharedAccesses ∧ ∃ part,
          part ≤ stats.privateAccesses + stats.sharedAccesses ∧
          digits = fixed 1 part (stats.privateAccesses + stats.sharedAccesses)) := by
  unfold coreLines at h
  simp only [List.mem_append, List.mem_cons, List.not_mem_nil, or_false] at h
  rcases h with ((rfl | rfl | rfl | rfl | rfl | rfl | rfl) | hdist) | rfl
  · exact ⟨⟨"", by decide, rfl⟩, by simp⟩
  · exact ⟨⟨"--- Core  ---", by decide, rfl⟩, by simp⟩
  · exact ⟨⟨"Compute Cycles: ", by decide, rfl⟩, by simp⟩
  · exact ⟨⟨"Load/Store Instr: ", by decide, rfl⟩, by simp⟩
  · exact ⟨⟨"Idle Cycles:    ", by decide, rfl⟩, by simp⟩
  · exact ⟨⟨"Hits:  | Misses: ", by decide, rfl⟩, by simp⟩
  · exact ⟨⟨"Hit Rate: %", by decide, rfl⟩, by simp⟩
  · unfold distLines at hdist
    split at hdist
    · rename_i hpos
      obtain rfl := List.mem_singleton.mp hdist
      refine ⟨⟨"Access Dist: Private=% | Shared=%", by decide, rfl⟩, ?_⟩
      intro digits hd
      right
      refine ⟨hpos, ?_⟩
      simp only [List.mem_cons, reduceCtorEq, Piece.decimal.injEq, List.not_mem_nil, or_false,
        false_or] at hd
      rcases hd with rfl | rfl
      · exact ⟨_, Nat.le_add_right _ _, rfl⟩
      · exact ⟨_, Nat.le_add_left _ _, rfl⟩
    · simp at hdist
  · exact ⟨⟨"Invalidations RX: ", by decide, rfl⟩, by simp⟩

/-- The text of the report around the totals. -/
def frameText : List String :=
  [ProtocolName.heading .mesi, ProtocolName.heading .dragon, ProtocolName.heading .mesif,
    ProtocolName.heading .smart, ProtocolName.heading .moesi] ++ coreText

theorem frameText_lacks : ∀ text ∈ frameText, ∀ pattern ∈ patterns,
    ¬ pattern.toList <:+: text.toList := by
  decide

theorem frameText_newline : ∀ text ∈ frameText, '\n' ∉ text.toList := by
  decide

/-- A double that is printed for a rate between 0 and 100 has digits and a point only. -/
def PrintsRates (fixed : Nat → Nat → Nat → List Char) : Prop :=
  ∀ precision num den, 0 < den → num ≤ den → ∀ c ∈ fixed precision num den, numeric c = true

theorem plain_coreLines {fixed : Nat → Nat → Nat → List Char} (hfixed : PrintsRates fixed)
    {totalCycles i : Nat} {stats : Statistics} (hb : stats.Balanced) {line : Line}
    (h : line ∈ coreLines fixed totalCycles i stats) : Plain line := by
  intro digits hd
  have haccesses := hb.accesses
  rcases (mem_coreLines h).2 digits hd with rfl | ⟨hpos, part, hle, rfl⟩
  · unfold hitRate
    split
    · exact hfixed _ _ _ (by omega) (by omega)
    · exact hfixed _ _ _ (by omega) (by omega)
  · exact hfixed _ _ _ hpos hle

section
variable {p : ProtocolName} {fixed : Nat → Nat → Nat → List Char} {totalCycles : Nat}
  {m : Machine S n}

theorem mem_frame (hfixed : PrintsRates fixed) (hb : ∀ i, (m.cStats i).Balanced) {line : Line}
    (h : line ∈ [[.text p.heading]] ++ (List.finRange n).flatMap fun i : Fin n =>
      coreLines fixed totalCycles i (m.cStats i)) :
    Plain line ∧ ∃ text ∈ frameText, skeleton line = text.toList := by
  rcases List.mem_append.mp h with h | h
  · obtain rfl := List.mem_singleton.mp h
    refine ⟨by simp [Plain], p.heading, ?_, ?_⟩
    · cases p <;> decide
    · cases p <;> decide
  · obtain ⟨i, -, hi⟩ := List.mem_flatMap.mp h
    obtain ⟨text, htext, hs⟩ := (mem_coreLines hi).1
    exact ⟨plain_coreLines hfixed (hb i) hi, text, List.mem_append_right _ htext, hs⟩

theorem plain_totalLines {stats : GlobalStatistics} {line : Line}
    (h : line ∈ totalLines totalCycles stats) : Plain line := by
  intro digits hd
  simp only [totalLines, List.mem_cons, List.not_mem_nil, or_false] at h
  rcases h with rfl | rfl | rfl | rfl <;> simp [cyclesLine, trafficLine, invalidationsLine,
    transactionsLine] at hd

/-- A pattern of the scripts that is in one of the four totals finds that line alone. -/
theorem grep_report (hfixed : PrintsRates fixed) (hb : ∀ i, (m.cStats i).Balanced)
    {queried : List String} (hsub : ∀ pattern ∈ queried, pattern ∈ patterns)
    (before : List Line) (line : Line) (after : List Line)
    (hsplit : totalLines totalCycles m.gStats = before ++ line :: after) (others : List String)
    (hothers : (before ++ after).map skeleton = others.map String.toList)
    (hlacks : ∀ text ∈ others, ∀ pattern ∈ queried, ¬ pattern.toList <:+: text.toList)
    {pattern s : String} (hpattern : pattern ∈ queried) (hs : Piece.text s ∈ line)
    (hin : pattern.toList <:+: s.toList) :
    grep queried ((printReport p fixed totalCycles m).map chars) = [chars line] := by
  have hreport : printReport p fixed totalCycles m = ([.text p.heading] :: before) ++ line ::
      (after ++ (List.finRange n).flatMap fun i : Fin n =>
        coreLines fixed totalCycles i (m.cStats i)) := by
    rw [printReport, hsplit]
    simp
  rw [hreport]
  refine grep_unique (fun x hx => patterns_not_numeric x (hsub x hx)) ?_ hpattern hs hin
  intro l hl
  have hcases : l ∈ [[.text p.heading]] ++ ((List.finRange n).flatMap fun i : Fin n =>
      coreLines fixed totalCycles i (m.cStats i)) ∨ l ∈ before ++ after := by
    simp only [List.mem_append, List.mem_cons, List.not_mem_nil, or_false] at hl ⊢
    tauto
  rcases hcases with hframe | htotal
  · obtain ⟨hplain, text, htext, hs⟩ := mem_frame hfixed hb hframe
    refine ⟨hplain, ?_⟩
    intro x hx
    rw [hs]
    exact frameText_lacks text htext x (hsub x hx)
  · have hmem : l ∈ totalLines totalCycles m.gStats := by
      rw [hsplit]
      simp only [List.mem_append, List.mem_cons] at htotal ⊢
      tauto
    have hs : skeleton l ∈ others.map String.toList := by
      rw [← hothers]
      exact List.mem_map_of_mem htotal
    obtain ⟨text, htext, hs⟩ := List.mem_map.mp hs
    refine ⟨plain_totalLines hmem, ?_⟩
    intro x hx
    rw [← hs]
    exact hlacks text htext x hx

theorem newline_not_mem_report (hfixed : PrintsRates fixed) (hb : ∀ i, (m.cStats i).Balanced)
    {line : Line} (h : line ∈ printReport p fixed totalCycles m) : '\n' ∉ chars line := by
  have hcases : line ∈ [[.text p.heading]] ++ ((List.finRange n).flatMap fun i : Fin n =>
      coreLines fixed totalCycles i (m.cStats i)) ∨ line ∈ totalLines totalCycles m.gStats := by
    simp only [printReport, List.mem_append, List.mem_cons, List.cons_append,
      List.not_mem_nil] at h ⊢
    tauto
  rcases hcases with hframe | htotal
  · obtain ⟨hplain, text, htext, hs⟩ := mem_frame hfixed hb hframe
    apply newline_not_mem hplain
    rw [hs]
    exact frameText_newline text htext
  · apply newline_not_mem (plain_totalLines htotal)
    simp only [totalLines, List.mem_cons, List.not_mem_nil, or_false] at htotal
    rcases htotal with rfl | rfl | rfl | rfl <;> simp [skeleton, cyclesLine, trafficLine,
      invalidationsLine, transactionsLine]

theorem report_last (p : ProtocolName) (fixed : Nat → Nat → Nat → List Char) (totalCycles : Nat)
    (m : Machine S n) : ∃ lines last, printReport p fixed totalCycles m = lines ++ [last] ∧
      chars last ≠ [] := by
  cases n with
  | zero =>
    refine ⟨[[.text p.heading], cyclesLine totalCycles, trafficLine m.gStats,
      invalidationsLine m.gStats], transactionsLine m.gStats, rfl, ?_⟩
    simp [chars, transactionsLine, Piece.chars]
  | succ n =>
    obtain ⟨lines, hlines⟩ : ∃ lines, coreLines fixed totalCycles n (m.cStats (Fin.last n)) =
        lines ++ [[.text "Invalidations RX: ",
          .number (m.cStats (Fin.last n)).invalidationsReceived]] := ⟨_, rfl⟩
    refine ⟨[.text p.heading] :: totalLines totalCycles m.gStats ++
      ((List.finRange n).map Fin.castSucc).flatMap (fun i : Fin (n + 1) =>
        coreLines fixed totalCycles i (m.cStats i)) ++ lines, [.text "Invalidations RX: ",
          .number (m.cStats (Fin.last n)).invalidationsReceived], ?_, ?_⟩
    · rw [printReport, List.finRange_succ_last, List.flatMap_append, List.flatMap_singleton,
        Fin.val_last, hlines]
      simp only [List.append_assoc]
    · simp [chars, Piece.chars]

theorem linesOf_report (hfixed : PrintsRates fixed) (hb : ∀ i, (m.cStats i).Balanced) :
    linesOf (captured (printed (printReport p fixed totalCycles m))) =
      (printReport p fixed totalCycles m).map chars := by
  obtain ⟨lines, last, hreport, hne⟩ := report_last p fixed totalCycles m
  rw [hreport]
  apply linesOf_captured _ hne
  intro line hl
  rw [← hreport] at hl
  exact newline_not_mem_report hfixed hb hl

/-! ### What the scripts read -/

theorem word_toDigits (k : Nat) : (Nat.toDigits 10 k).any isBlank = false := by
  rw [List.any_eq_false]
  intro c hc hblank
  have hdigit := isDigit_of_mem_toDigits hc
  simp only [isBlank, Bool.or_eq_true, beq_iff_eq] at hblank
  rcases hblank with rfl | rfl <;> simp at hdigit

variable (hfixed : PrintsRates fixed) (hb : ∀ i, (m.cStats i).Balanced)
include hfixed hb

/-- Both scripts look for the invalidations, one of them with a second pattern. -/
theorem grep_invalidations {queried : List String} (hsub : ∀ pattern ∈ queried, pattern ∈ patterns)
    (hlacks : ∀ text ∈ ["Overall Execution Cycles: ", "Total Data Traffic:  bytes",
      "Bus Transactions: Rd= RdX= Upgr= WB= CC="], ∀ pattern ∈ queried,
        ¬ pattern.toList <:+: text.toList)
    (hpattern : "Total Invalidations" ∈ queried) :
    grep queried ((printReport p fixed totalCycles m).map chars) =
      [chars (invalidationsLine m.gStats)] :=
  grep_report hfixed hb hsub [cyclesLine totalCycles, trafficLine m.gStats]
    (invalidationsLine m.gStats) [transactionsLine m.gStats] rfl _ rfl hlacks hpattern
    List.mem_cons_self (by decide)

theorem matchedOnce_report :
    MatchedOnce totalCycles m.gStats ((printReport p fixed totalCycles m).map chars) where
  cycles := grep_report hfixed hb (by decide) [] (cyclesLine totalCycles)
    [trafficLine m.gStats, invalidationsLine m.gStats, transactionsLine m.gStats] rfl
    ["Total Data Traffic:  bytes", "Total Invalidations: ",
      "Bus Transactions: Rd= RdX= Upgr= WB= CC="] rfl (by decide)
    List.mem_cons_self List.mem_cons_self (by decide)
  traffic := grep_report hfixed hb (by decide) [cyclesLine totalCycles] (trafficLine m.gStats)
    [invalidationsLine m.gStats, transactionsLine m.gStats] rfl
    ["Overall Execution Cycles: ", "Total Invalidations: ",
      "Bus Transactions: Rd= RdX= Upgr= WB= CC="] rfl (by decide)
    List.mem_cons_self List.mem_cons_self (by decide)
  invalidations := grep_invalidations hfixed hb (by decide) (by decide) (by decide)
  invalidationsThird := grep_invalidations hfixed hb (by decide) (by decide) (by decide)
  transactions := grep_report hfixed hb (by decide)
    [cyclesLine totalCycles, trafficLine m.gStats, invalidationsLine m.gStats]
    (transactionsLine m.gStats) [] rfl
    ["Overall Execution Cycles: ", "Total Data Traffic:  bytes", "Total Invalidations: "]
    rfl (by decide) List.mem_cons_self List.mem_cons_self (by decide)

theorem cycles_report : cycles (captured (printed (printReport p fixed totalCycles m))) =
    [Nat.toDigits 10 totalCycles] := by
  rw [cycles, linesOf_report hfixed hb, (matchedOnce_report hfixed hb).cycles]
  have hline : chars (cyclesLine totalCycles) = "Overall".toList ++ ' ' :: ("Execution".toList ++
      ' ' :: ("Cycles:".toList ++ ' ' :: Nat.toDigits 10 totalCycles)) := by
    simp [chars, cyclesLine, Piece.chars]
  rw [List.map_singleton, hline, awkField, fields_word (by decide) (by decide),
    fields_word (by decide) (by decide), fields_word (by decide) (by decide),
    fields_last (word_toDigits _) Nat.toDigits_ne_nil]
  rfl

theorem traffic_report : traffic (captured (printed (printReport p fixed totalCycles m))) =
    [Nat.toDigits 10 m.gStats.totalDataTrafficBytes] := by
  rw [traffic, linesOf_report hfixed hb, (matchedOnce_report hfixed hb).traffic]
  have hline : chars (trafficLine m.gStats) = "Total".toList ++ ' ' :: ("Data".toList ++ ' ' ::
      ("Traffic:".toList ++ ' ' :: (Nat.toDigits 10 m.gStats.totalDataTrafficBytes ++ ' ' ::
        "bytes".toList))) := by
    simp [chars, trafficLine, Piece.chars]
  rw [List.map_singleton, hline, awkField, fields_word (by decide) (by decide),
    fields_word (by decide) (by decide), fields_word (by decide) (by decide),
    fields_word (word_toDigits _) Nat.toDigits_ne_nil]
  rfl

omit hfixed hb in
theorem fields_invalidationsLine (stats : GlobalStatistics) :
    fields (chars (invalidationsLine stats)) =
      ["Total".toList, "Invalidations:".toList, Nat.toDigits 10 stats.totalInvalidations] := by
  have hline : chars (invalidationsLine stats) = "Total".toList ++ ' ' ::
      ("Invalidations:".toList ++ ' ' :: Nat.toDigits 10 stats.totalInvalidations) := by
    simp [chars, invalidationsLine, Piece.chars]
  rw [hline, fields_word (by decide) (by decide), fields_word (by decide) (by decide),
    fields_last (word_toDigits _) Nat.toDigits_ne_nil]

theorem invalidations_report :
    invalidations (captured (printed (printReport p fixed totalCycles m))) =
      [Nat.toDigits 10 m.gStats.totalInvalidations] := by
  rw [invalidations, linesOf_report hfixed hb, (matchedOnce_report hfixed hb).invalidations,
    List.map_singleton, awkLast, fields_invalidationsLine]
  rfl

theorem invalidationsThird_report :
    invalidationsThird (captured (printed (printReport p fixed totalCycles m))) =
      [Nat.toDigits 10 m.gStats.totalInvalidations] := by
  rw [invalidationsThird, linesOf_report hfixed hb,
    (matchedOnce_report hfixed hb).invalidationsThird, List.map_singleton, awkField,
    fields_invalidationsLine]
  rfl

theorem writebacks_report : writebacks (captured (printed (printReport p fixed totalCycles m))) =
    [Nat.toDigits 10 m.gStats.busWritebacks] := by
  rw [writebacks, linesOf_report hfixed hb, (matchedOnce_report hfixed hb).transactions]
  have digit (k : Nat) : ∀ c ∈ Nat.toDigits 10 k, c.isDigit = true :=
    fun c hc => isDigit_of_mem_toDigits hc
  have absent {c : Char} (hc : c.isDigit = false) (k : Nat) : c ∉ Nat.toDigits 10 k := by
    intro hmem
    rw [digit k c hmem] at hc
    simp at hc
  have hline : chars (transactionsLine m.gStats) =
      ("Bus Transactions: Rd=".toList ++ Nat.toDigits 10 m.gStats.busReads ++ " RdX=".toList ++
        Nat.toDigits 10 m.gStats.busReadx ++ " Upgr=".toList ++
        Nat.toDigits 10 m.gStats.busUpgrades ++ [' ']) ++ ("WB=".toList ++
        (Nat.toDigits 10 m.gStats.busWritebacks ++ ' ' :: ("C2C=".toList ++
          Nat.toDigits 10 m.gStats.cacheToCacheTransfers))) := by
    simp [chars, transactionsLine, Piece.chars]
  have hkey : "WB=".toList = 'W' :: ['B', '='] := by decide
  have hfound : grepOnly "WB=".toList 0 (chars (transactionsLine m.gStats)) =
      [['W', 'B'] ++ '=' :: Nat.toDigits 10 m.gStats.busWritebacks] := by
    rw [hline, hkey, grepOnly_of_not_mem, grepOnly_found (digit _) rfl]
    · rw [grepOnly_eq_nil]
      · rfl
      · simp [absent]
    · simp [absent]
  rw [List.flatMap_singleton, hfound, List.map_singleton,
    cutSecond_key (by decide) (absent rfl _)]

omit hfixed hb in
theorem value_digits (k : Nat) : value [Nat.toDigits 10 k] = Nat.toDigits 10 k := by
  rw [value, List.flatMap_singleton, captured, List.rdropWhile_concat_pos _ _ _ rfl,
    List.rdropWhile_eq_self_iff]
  intro hne hnewline
  have hdigit := isDigit_of_mem_toDigits (List.getLast_mem hne)
  rw [beq_iff_eq.mp hnewline] at hdigit
  simp at hdigit

end

end Report

/-- What `print_report` sends to `std::cout`. -/
def Simulator.report (p : ProtocolName) (fixed : Nat → Nat → Nat → List Char)
    (s : Simulator p.State n) : List Char :=
  printed (Report.printReport p fixed s.currentTime s.machine)

namespace Simulator
open Report

/-- The four columns that the scripts add to their parameters. -/
def columns {p : ProtocolName} (s : Simulator p.State n) : List (List Char) :=
  [Nat.toDigits 10 s.currentTime, Nat.toDigits 10 s.machine.gStats.totalDataTrafficBytes,
    Nat.toDigits 10 s.machine.gStats.totalInvalidations,
    Nat.toDigits 10 s.machine.gStats.busWritebacks]

theorem rows_read {p : ProtocolName} {cfg : Config} {traces : Fin n → List TraceEntry}
    {fixed : Nat → Nat → Nat → List Char} (hfixed : PrintsRates fixed)
    {s : Simulator p.State n} (hr : (system cfg p.rules traces).Reached s)
    (parameters : List (List Char)) :
    runAllRow parameters (captured (s.report p fixed)) = csv (parameters ++ s.columns) ∧
      runExperimentsRow parameters (captured (s.report p fixed)) =
        csv (parameters ++ s.columns) := by
  have hb := (ledger_reached p.missFills hr).cores
  rw [runAllRow, runExperimentsRow, report, cycles_report hfixed hb, traffic_report hfixed hb,
    invalidations_report hfixed hb, invalidationsThird_report hfixed hb,
    writebacks_report hfixed hb]
  simp only [value_digits, columns, and_self]

/-- Whatever has been simulated, each pattern of the scripts matches one line of the report, that
of its total, and both scripts put the time, the traffic, the invalidations and the writebacks
into their rows as the simulator has counted them. If no parameter has a comma, they are the
last four fields. -/
theorem report_rows (p : ProtocolName) (cfg : Config) (traces : Fin n → List TraceEntry)
    {fixed : Nat → Nat → Nat → List Char} (hfixed : PrintsRates fixed)
    {s : Simulator p.State n} (hr : (system cfg p.rules traces).Reached s)
    {parameters : List (List Char)} (hcomma : ∀ x ∈ parameters, ',' ∉ x) :
    MatchedOnce s.currentTime s.machine.gStats (linesOf (captured (s.report p fixed))) ∧
      (runAllRow parameters (captured (s.report p fixed))).splitOn ',' = parameters ++ s.columns ∧
      (runExperimentsRow parameters (captured (s.report p fixed))).splitOn ',' =
        parameters ++ s.columns := by
  obtain ⟨hall, hexperiments⟩ := rows_read hfixed hr parameters
  have hb := (ledger_reached p.missFills hr).cores
  have hfields : (csv (parameters ++ s.columns)).splitOn ',' = parameters ++ s.columns := by
    apply List.splitOn_intercalate
    · intro x hx
      rcases List.mem_append.mp hx with hx | hx
      · exact hcomma x hx
      · intro hmem
        simp only [columns, List.mem_cons, List.not_mem_nil, or_false] at hx
        rcases hx with rfl | rfl | rfl | rfl <;> exact absurd (isDigit_of_mem_toDigits hmem) (by decide)
    · simp [columns]
  rw [hall, hexperiments]
  refine ⟨?_, hfields, hfields⟩
  rw [report, linesOf_report hfixed hb]
  exact matchedOnce_report hfixed hb

/-- The nearest natural number to `num / den`, the even one of two. -/
def nearest (num den : Nat) : Nat :=
  let below := num / den
  let twice := 2 * (num % den)
  if twice < den ∨ (twice = den ∧ below % 2 = 0) then below else below + 1

/-- `100 * num / den` with so many decimals: the exact quotient, rounded to the nearest with
ties to even. -/
def fixedPoint (precision num den : Nat) : List Char :=
  let scaled := nearest (100 * num * 10 ^ precision) den
  Nat.toDigits 10 (scaled / 10 ^ precision) ++ '.' ::
    (Nat.toDigits 10 (scaled % 10 ^ precision)).leftpad precision '0'

theorem printsRates_fixedPoint : PrintsRates fixedPoint := by
  intro precision num den _ _ c hc
  have hdigit {k : Nat} (h : c ∈ Nat.toDigits 10 k) : numeric c = true := by
    simp [numeric, isDigit_of_mem_toDigits h]
  simp only [fixedPoint, List.leftpad, List.mem_append, List.mem_cons, List.mem_replicate] at hc
  rcases hc with hc | rfl | ⟨-, rfl⟩ | hc
  · exact hdigit hc
  · rfl
  · rfl
  · exact hdigit hc

example : fixedPoint 1 1 16 = "6.2".toList := by decide

theorem report_rows_storeAndLoad : ∃ s : Simulator MESIState 2,
    (system tinyConfig (ProtocolName.rules .mesi) storeAndLoad).Reached s ∧ s.ended = true ∧
      (runAllRow ["1".toList, "MESI".toList] (captured (s.report .mesi fixedPoint))).splitOn ',' =
        ["1".toList, "MESI".toList, "104".toList, "8".toList, "0".toList, "0".toList] := by
  obtain ⟨h, s, hr, ht⟩ := exists_run tinyConfig (ProtocolName.rules .mesi) storeAndLoad
    [.fetch 0 0, .busArbitration 0, .fetch 0 1, .busRelease 101, .busArbitration 101,
      .coreUnblock 101 0, .fetch 101 0, .busRelease 104, .coreUnblock 104 1, .fetch 104 1]
    (fun _ s => s.ended && s.columns (p := .mesi) ==
      ["104".toList, "8".toList, "0".toList, "0".toList]) (by decide)
  obtain ⟨hend, hcolumns⟩ := Bool.and_eq_true_iff.mp ht
  refine ⟨s, hr.reached, hend, ?_⟩
  rw [(report_rows .mesi tinyConfig storeAndLoad printsRates_fixedPoint hr.reached
    (by decide)).2.1, beq_iff_eq.mp hcolumns]
  rfl

end Simulator
end CoherenceFormal
