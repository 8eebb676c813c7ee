import Mathlib.Data.Nat.Digits.Lemmas
import Mathlib.Data.List.DropRight

/-!
# Printed lines and the tools that take them apart

A line of output is printed piece by piece: literal text, numbers, and floating-point numbers
whose digits are not looked into. Command substitution, `grep`, `awk` and `cut` are modelled on
lists of characters for patterns without special characters. What a tool finds in a line follows
from the literal text alone: a pattern without digits that is in the line is in the line without
its digits.

Nothing here depends on what is printed.
-/

namespace CoherenceFormal.PrintedText
set_option autoImplicit false

/-- What one `<<` prints. -/
inductive Piece where
  | text (s : String)
  | number (n : Nat)
  | decimal (digits : List Char)

abbrev Line := List Piece

def numeric (c : Char) : Bool := c.isDigit || c == '.'

def Piece.chars : Piece → List Char
  | text s => s.toList
  | number n => Nat.toDigits 10 n
  | decimal digits => digits

def chars (line : Line) : List Char := line.flatMap Piece.chars

/-- Each line is ended by `std::endl`. -/
def printed (lines : List Line) : List Char := lines.flatMap fun line => chars line ++ ['\n']

/-! ### The tools -/

/-- `$(…)`, which drops the newlines at the end. -/
def captured (output : List Char) : List Char := output.rdropWhile (· == '\n')

/-- The lines of `echo "$x"`. -/
def linesOf (x : List Char) : List (List Char) := x.splitOn '\n'

/-- `grep -E` with alternatives, and `grep` with one. -/
def grep (patterns : List String) (lines : List (List Char)) : List (List Char) :=
  lines.filter fun line => patterns.any fun pattern => decide (pattern.toList <:+: line)

def isBlank (c : Char) : Bool := c == ' ' || c == '\t'

/-- The fields of a line as `awk` sees them. -/
def fields (line : List Char) : List (List Char) := (line.splitOnP isBlank).filter (· ≠ [])

/-- What `awk` prints for `$k`. -/
def awkField (k : Nat) (line : List Char) : List Char := (fields line).getD (k - 1) []

/-- What `awk` prints for `$NF`. -/
def awkLast (line : List Char) : List Char := (fields line).getLastD []

/-- `grep -o "key[0-9]*"`: the longest matches in a line from the left. The first argument
counts the characters that belong to a match. -/
def grepOnly (key : List Char) : Nat → List Char → List (List Char)
  | _, [] => []
  | skip + 1, _ :: cs => grepOnly key skip cs
  | 0, c :: cs =>
    if key <+: c :: cs then
      let found := key ++ ((c :: cs).drop key.length).takeWhile Char.isDigit
      found :: grepOnly key (found.length - 1) cs
    else grepOnly key 0 cs

/-- `cut -d= -f2`, which leaves a line without the delimiter as it is. -/
def cutSecond (delimiter : Char) (line : List Char) : List Char :=
  if delimiter ∈ line then (line.splitOn delimiter).getD 1 [] else line

/-! ### What they find -/

theorem isDigit_of_mem_toDigits {n : Nat} {c : Char} (hc : c ∈ Nat.toDigits 10 n) :
    c.isDigit = true :=
  Nat.isDigit_of_mem_toDigits (by decide) (by decide) hc

/-- The literal text of a line, without digits and points. -/
def skeleton (line : Line) : List Char :=
  line.flatMap fun piece => match piece with
    | .text s => s.toList.filter fun c => !numeric c
    | .number _ => []
    | .decimal _ => []

/-- The floating-point numbers are made of digits and points. -/
def Plain (line : Line) : Prop :=
  ∀ digits, Piece.decimal digits ∈ line → ∀ c ∈ digits, numeric c = true

theorem filter_chars {line : Line} (hplain : Plain line) :
    (chars line).filter (fun c => !numeric c) = skeleton line := by
  induction line with
  | nil => rfl
  | cons piece line ih =>
    have hrest := ih fun digits hd => hplain digits (List.mem_cons_of_mem _ hd)
    have hcons : chars (piece :: line) = piece.chars ++ chars line := rfl
    have hskeleton : skeleton (piece :: line) = skeleton [piece] ++ skeleton line := by
      simp [skeleton]
    rw [hcons, List.filter_append, hrest, hskeleton]
    congr 1
    cases piece with
    | text s => exact (List.append_nil _).symm
    | number n =>
      apply List.filter_eq_nil_iff.mpr
      intro c hc
      simp [numeric, isDigit_of_mem_toDigits hc]
    | decimal digits =>
      apply List.filter_eq_nil_iff.mpr
      intro c hc
      simp [hplain digits List.mem_cons_self c hc]

/-- A pattern without digits that is not in the literal text is not in the line. -/
theorem not_infix_of_skeleton {line : Line} (hplain : Plain line) {pattern : List Char}
    (hpattern : pattern.any numeric = false) (hno : ¬ pattern <:+: skeleton line) :
    ¬ pattern <:+: chars line := by
  intro hin
  have hfilter := hin.filter fun c => !numeric c
  rw [filter_chars hplain, List.filter_eq_self.mpr] at hfilter
  · exact hno hfilter
  · intro c hc
    simpa using List.any_eq_false.mp hpattern c hc

theorem infix_of_text {line : Line} {s : String} (hs : Piece.text s ∈ line) {pattern : List Char}
    (hin : pattern <:+: s.toList) : pattern <:+: chars line := by
  obtain ⟨before, after, rfl⟩ := List.append_of_mem hs
  refine hin.trans ⟨chars before, chars after, ?_⟩
  simp [chars, Piece.chars]

theorem newline_not_mem {line : Line} (hplain : Plain line) (hno : '\n' ∉ skeleton line) :
    '\n' ∉ chars line := by
  intro hmem
  have hin : '\n' ∈ (chars line).filter fun c => !numeric c :=
    List.mem_filter.mpr ⟨hmem, by decide⟩
  rw [filter_chars hplain] at hin
  exact hno hin

/-- None of the patterns can be seen in the literal text of the line. -/
def Lacks (patterns : List String) (line : Line) : Prop :=
  ∀ pattern ∈ patterns, ¬ pattern.toList <:+: skeleton line

/-- A line that alone has one of the patterns is what `grep` prints. -/
theorem grep_unique {patterns : List String}
    (hpatterns : ∀ pattern ∈ patterns, pattern.toList.any numeric = false)
    {before after : List Line} {line : Line}
    (hothers : ∀ l ∈ before ++ after, Plain l ∧ Lacks patterns l) {pattern s : String}
    (hpattern : pattern ∈ patterns) (hs : Piece.text s ∈ line)
    (hin : pattern.toList <:+: s.toList) :
    grep patterns ((before ++ line :: after).map chars) = [chars line] := by
  have hnone (l : Line) (hl : l ∈ before ++ after) :
      (patterns.any fun pattern => decide (pattern.toList <:+: chars l)) = false := by
    rw [List.any_eq_false]
    intro x hx
    obtain ⟨hplain, hlacks⟩ := hothers l hl
    simpa using not_infix_of_skeleton hplain (hpatterns x hx) (hlacks x hx)
  have hempty {lines : List Line} (hsub : ∀ l ∈ lines, l ∈ before ++ after) :
      grep patterns (lines.map chars) = [] := by
    apply List.filter_eq_nil_iff.mpr
    intro cs hcs
    obtain ⟨l, hl, rfl⟩ := List.mem_map.mp hcs
    simp [hnone l (hsub l hl)]
  have hhit : (patterns.any fun pattern => decide (pattern.toList <:+: chars line)) = true :=
    List.any_eq_true.mpr ⟨pattern, hpattern, by simpa using infix_of_text hs hin⟩
  have hsplit : grep patterns ((before ++ line :: after).map chars) =
      grep patterns (before.map chars) ++ grep patterns (chars line :: after.map chars) := by
    rw [List.map_append, List.map_cons]
    exact List.filter_append _ _
  rw [hsplit, hempty fun l hl => List.mem_append_left _ hl, List.nil_append]
  rw [grep, List.filter_cons, if_pos hhit]
  exact congrArg (chars line :: ·) (hempty fun l hl => List.mem_append_right _ hl)

theorem linesOf_printed {lines : List Line} (hlines : ∀ line ∈ lines, '\n' ∉ chars line)
    {last : List Char} (hlast : '\n' ∉ last) :
    linesOf (printed lines ++ last) = lines.map chars ++ [last] := by
  induction lines with
  | nil => exact List.splitOn_eq_singleton hlast
  | cons line lines ih =>
    have hrest := ih fun line hl => hlines line (List.mem_cons_of_mem _ hl)
    have hcons : printed (line :: lines) ++ last = chars line ++ '\n' :: (printed lines ++ last) := by
      simp [printed]
    rw [hcons, linesOf,
      List.splitOn_append_cons_self_of_not_mem (hlines line List.mem_cons_self)]
    exact congrArg (chars line :: ·) hrest

/-- The lines that are read are those that are printed, if the last one is not empty. -/
theorem linesOf_captured {lines : List Line} {last : Line}
    (hlines : ∀ line ∈ lines ++ [last], '\n' ∉ chars line) (hne : chars last ≠ []) :
    linesOf (captured (printed (lines ++ [last]))) = (lines ++ [last]).map chars := by
  have hlast : '\n' ∉ chars last := hlines last (by simp)
  have hend : captured (printed (lines ++ [last])) = printed lines ++ chars last := by
    have hprinted : printed (lines ++ [last]) = (printed lines ++ chars last) ++ ['\n'] := by
      simp [printed]
    rw [hprinted, captured, List.rdropWhile_concat_pos _ _ _ rfl, List.rdropWhile_eq_self_iff]
    intro happend hnewline
    rw [List.getLast_append_of_ne_nil happend hne] at hnewline
    exact hlast (beq_iff_eq.mp hnewline ▸ List.getLast_mem hne)
  rw [hend, linesOf_printed (fun line hl => hlines line (List.mem_append_left _ hl)) hlast]
  simp

theorem fields_word {word : List Char} (hword : word.any isBlank = false) (hne : word ≠ [])
    (rest : List Char) : fields (word ++ ' ' :: rest) = word :: fields rest := by
  have hsplit := List.splitOnP_append_cons_of_forall_mem
    (fun c hc => by simpa using List.any_eq_false.mp hword c hc) ' ' (p := isBlank) rfl rest
  rw [fields, hsplit, List.filter_cons, if_pos]
  · rfl
  · simpa using hne

theorem fields_last {word : List Char} (hword : word.any isBlank = false) (hne : word ≠ []) :
    fields word = [word] := by
  rw [fields, List.splitOnP_eq_singleton fun c hc => by
    simpa using List.any_eq_false.mp hword c hc]
  simp [hne]

theorem grepOnly_skip (key taken rest : List Char) :
    grepOnly key taken.length (taken ++ rest) = grepOnly key 0 rest := by
  induction taken with
  | nil => rfl
  | cons c taken ih => exact ih

theorem grepOnly_of_not_mem {k : Char} {key before : List Char} (hk : k ∉ before)
    (rest : List Char) : grepOnly (k :: key) 0 (before ++ rest) = grepOnly (k :: key) 0 rest := by
  induction before with
  | nil => rfl
  | cons c before ih =>
    have hne : ¬ k :: key <+: c :: (before ++ rest) := by
      intro hprefix
      have hkc := (List.cons_prefix_cons.mp hprefix).1
      exact hk (hkc ▸ List.mem_cons_self)
    rw [List.cons_append, grepOnly, if_neg hne]
    exact ih fun hmem => hk (List.mem_cons_of_mem _ hmem)

theorem grepOnly_eq_nil {k : Char} {key line : List Char} (hk : k ∉ line) :
    grepOnly (k :: key) 0 line = [] := by
  have hrest : grepOnly (k :: key) 0 (line ++ []) = grepOnly (k :: key) 0 [] :=
    grepOnly_of_not_mem hk []
  rwa [List.append_nil, grepOnly] at hrest

theorem grepOnly_found {k : Char} {key digits : List Char} (hdigits : ∀ c ∈ digits, c.isDigit = true)
    {c : Char} (hc : c.isDigit = false) (rest : List Char) :
    grepOnly (k :: key) 0 (k :: key ++ (digits ++ c :: rest)) =
      (k :: key ++ digits) :: grepOnly (k :: key) 0 (c :: rest) := by
  have htake : (digits ++ c :: rest).takeWhile Char.isDigit = digits := by
    rw [List.takeWhile_append_of_pos hdigits, List.takeWhile_cons_of_neg (by simp [hc]),
      List.append_nil]
  have hprefix : k :: key <+: k :: (key ++ (digits ++ c :: rest)) := List.prefix_append _ _
  have hdrop : (k :: (key ++ (digits ++ c :: rest))).drop (k :: key).length = digits ++ c :: rest :=
    List.drop_left' rfl
  rw [List.cons_append, grepOnly, if_pos hprefix]
  dsimp only
  rw [hdrop, htake]
  have hskip := grepOnly_skip (k :: key) (key ++ digits) (c :: rest)
  rw [List.append_assoc] at hskip
  rw [← hskip]
  simp

theorem cutSecond_key {delimiter : Char} {key rest : List Char} (hkey : delimiter ∉ key)
    (hrest : delimiter ∉ rest) : cutSecond delimiter (key ++ delimiter :: rest) = rest := by
  rw [cutSecond, if_pos (by simp), List.splitOn_append_cons_self_of_not_mem hkey,
    List.splitOn_eq_singleton hrest]
  rfl

end CoherenceFormal.PrintedText
