import Mathlib.Data.Nat.Digits.Lemmas
import Mathlib.Tactic.Ring

/-!
# Formatted extraction of integers

`std::istream >> x` for integer types, in the classic locale: leading white space is
skipped, an optional sign and, in base 16, an optional `0x` come before the digits, and the
field ends at the first character that is not a digit of the base. The base is a flag of
the stream that stays as it was last set. A field without a digit, or with a number that
the type cannot hold, fails the stream, and a failed stream yields nothing any more.

Nothing here depends on what is read.
-/

namespace CoherenceFormal
set_option autoImplicit false

universe u

namespace IntegerField

def isSpace (c : Char) : Bool :=
  c == ' ' || c == '\t' || c == '\n' || c == '\x0b' || c == '\x0c' || c == '\r'

def hexValue (c : Char) : Option Nat :=
  if '0' ≤ c ∧ c ≤ '9' then some (c.toNat - 48)
  else if 'a' ≤ c ∧ c ≤ 'f' then some (c.toNat - 87)
  else if 'A' ≤ c ∧ c ≤ 'F' then some (c.toNat - 55)
  else none

/-- The value of a character as a digit of a base up to 16. -/
def digitValue (base : Nat) (c : Char) : Option Nat := (hexValue c).filter (· < base)

def sign : List Char → Bool × List Char
  | [] => (false, [])
  | c :: cs => if c = '-' then (true, cs) else if c = '+' then (false, cs) else (false, c :: cs)

/-- Drops the `0x` that a field of base 16 may begin with. -/
def skipRadix (base : Nat) : List Char → List Char
  | [] => []
  | [c] => [c]
  | c :: x :: cs => if base = 16 ∧ c = '0' ∧ (x = 'x' ∨ x = 'X') then cs else c :: x :: cs

def magnitude (base : Nat) (acc : Nat) : List Char → Nat × List Char
  | [] => (acc, [])
  | c :: cs =>
    match digitValue base c with
    | some d => magnitude base (acc * base + d) cs
    | none => (acc, c :: cs)

/-- The sign and magnitude at the front, unless there is no digit, and what is left. -/
def scan (base : Nat) (cs : List Char) : Option (Bool × Nat) × List Char :=
  let signed := sign cs
  let field := skipRadix base signed.2
  if (field.head?.bind (digitValue base)).isSome then
    (some (signed.1, (magnitude base 0 field).1), (magnitude base 0 field).2)
  else (none, field)

/-- The text an integer is written as. -/
def decimal (value : Int) : List Char :=
  if value < 0 then '-' :: Nat.toDigits 10 value.natAbs else Nat.toDigits 10 value.natAbs

def hexadecimal (value : Nat) : List Char := '0' :: 'x' :: Nat.toDigits 16 value

/-- An integer that is written in base ten, as it is read in another base. -/
def readingIn (base : Nat) (value : Int) : Int :=
  value.sign * Nat.ofDigits base (Nat.digits 10 value.natAbs)

/-! ### Digits -/

theorem digitValue_digitChar {base d : Nat} (hbase : base ≤ 16) (hd : d < base) :
    digitValue base d.digitChar = some d := by
  have hall : ∀ e ∈ List.range 16, hexValue e.digitChar = some e := by decide
  rw [digitValue, hall d (List.mem_range.mpr (by omega))]
  simp [hd]

/-- White space is no digit, no sign and no radix. -/
theorem space_ends_field (base : Nat) {c : Char} (hc : isSpace c = true) :
    digitValue base c = none ∧ c ≠ 'x' ∧ c ≠ 'X' := by
  simp only [isSpace, Bool.or_eq_true, beq_iff_eq] at hc
  rcases hc with ((((rfl | rfl) | rfl) | rfl) | rfl) | rfl <;> exact ⟨rfl, by decide, by decide⟩

theorem mem_toDigits {base n : Nat} (hbase : 1 < base) {c : Char} (hc : c ∈ Nat.toDigits base n) :
    ∃ d < base, c = d.digitChar := by
  induction n using Nat.strongRecOn with
  | ind n ih =>
    rw [Nat.toDigits_eq_if hbase] at hc
    split at hc
    · rename_i hlt
      exact ⟨n, hlt, List.mem_singleton.mp hc⟩
    · rename_i hle
      rcases List.mem_append.mp hc with hc | hc
      · exact ih (n / base) (Nat.div_lt_self (by omega) hbase) hc
      · exact ⟨n % base, Nat.mod_lt _ (by omega), List.mem_singleton.mp hc⟩

theorem digitValue_of_mem_toDigits {base reading n : Nat} (hbase : 1 < base)
    (hle : base ≤ reading) (hreading : reading ≤ 16) {c : Char} (hc : c ∈ Nat.toDigits base n) :
    (digitValue reading c).isSome = true := by
  obtain ⟨d, hd, rfl⟩ := mem_toDigits hbase hc
  rw [digitValue_digitChar hreading (by omega)]
  rfl

/-- The digits of a number in one base, read in a base that is not smaller. -/
theorem magnitude_toDigits {base reading : Nat} (hbase : 1 < base) (hle : base ≤ reading)
    (hreading : reading ≤ 16) (n : Nat) (rest : List Char) :
    magnitude reading 0 (Nat.toDigits base n ++ rest) =
      magnitude reading (Nat.ofDigits reading (Nat.digits base n)) rest := by
  induction n using Nat.strongRecOn generalizing rest with
  | ind n ih =>
    rw [Nat.toDigits_eq_if hbase]
    split
    · rename_i hlt
      have hvalue : Nat.ofDigits reading (Nat.digits base n) = n := by
        rcases Nat.eq_zero_or_pos n with rfl | hpos
        · simp
        · rw [Nat.digits_of_lt base n (by omega) hlt, Nat.ofDigits_singleton]
      rw [List.singleton_append, magnitude, digitValue_digitChar hreading (by omega), hvalue]
      simp
    · rename_i hge
      have hmod : n % base < base := Nat.mod_lt _ (by omega)
      have hvalue : Nat.ofDigits reading (Nat.digits base n) =
          Nat.ofDigits reading (Nat.digits base (n / base)) * reading + n % base := by
        rw [Nat.digits_def' hbase (by omega), Nat.ofDigits_cons]
        ring
      rw [List.append_assoc, ih (n / base) (Nat.div_lt_self (by omega) hbase),
        List.singleton_append, magnitude, digitValue_digitChar hreading (by omega), hvalue]

/-- Reading never gives characters back. -/
theorem length_magnitude_le (base acc : Nat) (cs : List Char) :
    (magnitude base acc cs).2.length ≤ cs.length := by
  induction cs generalizing acc with
  | nil => simp [magnitude]
  | cons c cs ih =>
    simp only [magnitude]
    split
    · rename_i d _
      have hle := ih (acc * base + d)
      rw [List.length_cons]
      omega
    · simp

/-! ### Fields -/

/-- A field that begins with a digit, up to the character that ends it. -/
theorem scan_digits {base reading : Nat} (hbase : 1 < base) (hle : base ≤ reading)
    (hreading : reading ≤ 16) {cs : List Char} {n : Nat} {c : Char} {rest : List Char}
    (hfield : skipRadix reading (sign cs).2 = Nat.toDigits base n ++ c :: rest)
    (hc : digitValue reading c = none) :
    scan reading cs =
      (some ((sign cs).1, Nat.ofDigits reading (Nat.digits base n)), c :: rest) := by
  have hhead : ((skipRadix reading (sign cs).2).head?.bind (digitValue reading)).isSome = true := by
    rw [hfield]
    obtain ⟨d, ds, hds⟩ := List.exists_cons_of_ne_nil (Nat.toDigits_ne_nil (n := n) (b := base))
    rw [hds]
    exact digitValue_of_mem_toDigits hbase hle hreading (hds ▸ List.mem_cons_self)
  unfold scan
  rw [if_pos hhead, hfield, magnitude_toDigits hbase hle hreading, magnitude, hc]

/-- Neither a sign nor a radix stands at the front of a number that is written in base
ten. -/
theorem sign_toDigits {n : Nat} (rest : List Char) :
    sign (Nat.toDigits 10 n ++ rest) = (false, Nat.toDigits 10 n ++ rest) := by
  obtain ⟨d, ds, hds⟩ := List.exists_cons_of_ne_nil (Nat.toDigits_ne_nil (n := n) (b := 10))
  have hmem : d ∈ Nat.toDigits 10 n := hds ▸ List.mem_cons_self
  have hd : (digitValue 10 d).isSome = true :=
    digitValue_of_mem_toDigits (by decide) (by decide) (by decide) hmem
  have hminus : d ≠ '-' := by
    rintro rfl
    exact absurd hd (by decide)
  have hplus : d ≠ '+' := by
    rintro rfl
    exact absurd hd (by decide)
  rw [hds, List.cons_append, sign, if_neg hminus, if_neg hplus]

theorem skipRadix_toDigits {base n : Nat} {c : Char} (rest : List Char) (hx : c ≠ 'x')
    (hX : c ≠ 'X') :
    skipRadix base (Nat.toDigits 10 n ++ c :: rest) = Nat.toDigits 10 n ++ c :: rest := by
  have hsecond (d d' : Char) (ds : List Char) (hd : d' ≠ 'x' ∧ d' ≠ 'X') :
      skipRadix base (d :: d' :: ds) = d :: d' :: ds := by
    simp [skipRadix, hd.1, hd.2]
  have hmem (d : Char) (hd : d ∈ Nat.toDigits 10 n) : d ≠ 'x' ∧ d ≠ 'X' := by
    have hvalue : (digitValue 10 d).isSome = true :=
      digitValue_of_mem_toDigits (by decide) (by decide) (by decide) hd
    constructor
    · rintro rfl
      exact absurd hvalue (by decide)
    · rintro rfl
      exact absurd hvalue (by decide)
  cases hds : Nat.toDigits 10 n with
  | nil => exact absurd hds Nat.toDigits_ne_nil
  | cons d ds =>
    cases ds with
    | nil => exact hsecond d c rest ⟨hx, hX⟩
    | cons d' ds => exact hsecond d d' _ (hmem d' (by rw [hds]; simp))

/-- An integer written in base ten and read in a base from ten to sixteen. -/
theorem scan_decimal {base : Nat} (hle : 10 ≤ base) (hbase : base ≤ 16) (value : Int) {c : Char}
    (hc : digitValue base c = none ∧ c ≠ 'x' ∧ c ≠ 'X') (rest : List Char) :
    scan base (decimal value ++ c :: rest) =
      (some (decide (value < 0), Nat.ofDigits base (Nat.digits 10 value.natAbs)), c :: rest) := by
  obtain ⟨hend, hx, hX⟩ := hc
  rw [decimal]
  split
  · rename_i hneg
    have hsign : sign ('-' :: Nat.toDigits 10 value.natAbs ++ c :: rest) =
        (true, Nat.toDigits 10 value.natAbs ++ c :: rest) := rfl
    rw [scan_digits (by decide) hle hbase
      (by rw [hsign, skipRadix_toDigits rest hx hX]) hend, hsign]
    simp [hneg]
  · rename_i hpos
    have hsign := sign_toDigits (n := value.natAbs) (c :: rest)
    rw [scan_digits (by decide) hle hbase
      (by rw [hsign, skipRadix_toDigits rest hx hX]) hend, hsign]
    simp [hpos]

theorem scan_hexadecimal (value : Nat) {c : Char} (hc : isSpace c = true) (rest : List Char) :
    scan 16 (hexadecimal value ++ c :: rest) = (some (false, value), c :: rest) := by
  have hfield : skipRadix 16 (sign (hexadecimal value ++ c :: rest)).2 =
      Nat.toDigits 16 value ++ c :: rest := rfl
  rw [scan_digits (by decide) (by decide) (by decide) hfield (space_ends_field 16 hc).1,
    Nat.ofDigits_digits]
  rfl

/-- No white space is skipped before an integer that is written in base ten. -/
theorem dropWhile_decimal (value : Int) (rest : List Char) :
    (decimal value ++ rest).dropWhile isSpace = decimal value ++ rest := by
  have hhead : ∃ c cs, decimal value = c :: cs ∧ isSpace c = false := by
    rw [decimal]
    split
    · exact ⟨_, _, rfl, rfl⟩
    · obtain ⟨d, ds, hds⟩ :=
        List.exists_cons_of_ne_nil (Nat.toDigits_ne_nil (n := value.natAbs) (b := 10))
      have hd : (digitValue 10 d).isSome = true :=
        digitValue_of_mem_toDigits (by decide) (by decide) (by decide) (hds ▸ List.mem_cons_self)
      refine ⟨d, ds, hds, ?_⟩
      by_contra hspace
      rw [(space_ends_field 10 (by simpa using hspace)).1] at hd
      simp at hd
  obtain ⟨c, cs, hcs, hc⟩ := hhead
  rw [hcs, List.cons_append, List.dropWhile_cons_of_neg (by simp [hc])]

theorem length_sign_le (cs : List Char) : (sign cs).2.length ≤ cs.length := by
  fun_cases sign cs <;> simp

theorem length_skipRadix_le (base : Nat) (cs : List Char) :
    (skipRadix base cs).length ≤ cs.length := by
  fun_cases skipRadix base cs <;> simp; omega

/-- A field that yields a number has a digit. -/
theorem length_scan_lt {base : Nat} {cs : List Char} (hsome : (scan base cs).1.isSome = true) :
    (scan base cs).2.length < cs.length := by
  have hfield := (length_skipRadix_le base (sign cs).2).trans (length_sign_le cs)
  rw [scan] at hsome ⊢
  split
  · rename_i hdigit
    generalize hcs : skipRadix base (sign cs).2 = field at hfield hdigit ⊢
    cases field with
    | nil => simp at hdigit
    | cons c field =>
      obtain ⟨d, hd⟩ := Option.isSome_iff_exists.mp hdigit
      have hd : digitValue base c = some d := hd
      have hle := length_magnitude_le base (0 * base + d) field
      simp only [magnitude, hd]
      rw [List.length_cons] at hfield
      omega
  · rename_i hdigit
    simp [hdigit] at hsome

/-! ### Types -/

/-- A field as a signed integer of the given width. -/
def fitSigned (width : Nat) (negative : Bool) (magnitude : Nat) : Option Int :=
  if negative then if magnitude ≤ 2 ^ (width - 1) then some (-magnitude) else none
  else if magnitude < 2 ^ (width - 1) then some magnitude else none

/-- A field as an unsigned integer: a minus sign negates it modulo the range. -/
def fitUnsigned (width : Nat) (negative : Bool) (magnitude : Nat) : Option (BitVec width) :=
  if magnitude < 2 ^ width then
    some (if negative then -BitVec.ofNat width magnitude else BitVec.ofNat width magnitude)
  else none

theorem readingIn_ten (value : Int) : readingIn 10 value = value := by
  rw [readingIn, Nat.ofDigits_digits]
  exact Int.sign_mul_natAbs value

theorem natAbs_readingIn (base : Nat) (value : Int) :
    (readingIn base value).natAbs = Nat.ofDigits base (Nat.digits 10 value.natAbs) := by
  rw [readingIn, Int.natAbs_mul, Int.natAbs_sign, Int.natAbs_natCast]
  split
  · rename_i hzero
    simp [hzero]
  · rw [one_mul]

/-- A larger base makes no reading smaller. -/
theorem natAbs_le_readingIn {base : Nat} (hbase : 10 ≤ base) (value : Int) :
    value.natAbs ≤ (readingIn base value).natAbs := by
  rw [natAbs_readingIn]
  calc value.natAbs = Nat.ofDigits 10 (Nat.digits 10 value.natAbs) := (Nat.ofDigits_digits _ _).symm
    _ ≤ Nat.ofDigits base (Nat.digits 10 value.natAbs) := Nat.ofDigits_monotone _ hbase

theorem readingIn_of_digit {base : Nat} {value : Int} (hvalue : value.natAbs < 10) :
    readingIn base value = value := by
  have hdigits : Nat.ofDigits base (Nat.digits 10 value.natAbs) = value.natAbs := by
    rcases Nat.eq_zero_or_pos value.natAbs with hzero | hpos
    · simp [hzero]
    · rw [Nat.digits_of_lt 10 _ (by omega) hvalue, Nat.ofDigits_singleton]
  rw [readingIn, hdigits]
  exact Int.sign_mul_natAbs value

/-- One digit is read in the same way in every base that has it, and no longer number is
read as one digit. -/
theorem readingIn_eq_digit_iff {base : Nat} (hbase : 10 ≤ base) {value k : Int}
    (hk : k.natAbs < 10) : readingIn base value = k ↔ value = k := by
  constructor
  · intro h
    have hle := natAbs_le_readingIn hbase value
    rw [h] at hle
    rw [← h]
    exact (readingIn_of_digit (by omega)).symm
  · rintro rfl
    exact readingIn_of_digit hk

/-- A reading fits a signed type exactly when its value is in the range. -/
theorem fitSigned_eq_some_iff {width base : Nat} (value v : Int) :
    fitSigned width (decide (value < 0)) (Nat.ofDigits base (Nat.digits 10 value.natAbs)) = some v ↔
      v = readingIn base value ∧ -2 ^ (width - 1) ≤ v ∧ v < 2 ^ (width - 1) := by
  have hrange : (0 : Int) < 2 ^ (width - 1) := by positivity
  have habs := natAbs_readingIn base value
  by_cases hneg : value < 0
  · have hreading : readingIn base value = -(readingIn base value).natAbs := by
      rw [habs, readingIn, Int.sign_eq_neg_one_of_neg hneg, neg_one_mul]
    rw [← habs, fitSigned, if_pos (decide_eq_true hneg)]
    split <;> rename_i hfit <;> zify at hfit <;> grind
  · have hnonneg : 0 ≤ readingIn base value :=
      Int.mul_nonneg (Int.sign_nonneg_iff.mpr (by omega)) (Int.natCast_nonneg _)
    have hreading : readingIn base value = (readingIn base value).natAbs :=
      (Int.natAbs_of_nonneg hnonneg).symm
    rw [← habs, fitSigned, if_neg (by simpa using hneg)]
    split <;> rename_i hfit <;> zify at hfit <;> grind

theorem fitUnsigned_toNat {width : Nat} (value : BitVec width) :
    fitUnsigned width false value.toNat = some value := by
  simp [fitUnsigned, value.isLt]

end IntegerField

/-- The characters not yet read, the base flag and the failure flag of a stream. -/
structure IntegerStream where
  rest : List Char
  base : Nat
  failed : Bool
  deriving Repr, DecidableEq

namespace IntegerStream
open IntegerField
variable {α : Type u} {convert : Bool → Nat → Option α} {stream stream' : IntegerStream}

def opened (text : List Char) : IntegerStream := ⟨text, 10, false⟩

/-- The manipulator `std::hex`. -/
def hex (stream : IntegerStream) : IntegerStream := { stream with base := 16 }

def extract (convert : Bool → Nat → Option α) (stream : IntegerStream) :
    Option α × IntegerStream :=
  if stream.failed then (none, stream)
  else
    let scanned := scan stream.base (stream.rest.dropWhile isSpace)
    match scanned.1.bind fun field => convert field.1 field.2 with
    | none => (none, { stream with rest := scanned.2, failed := true })
    | some value => (some value, { stream with rest := scanned.2 })

theorem extract_of_failed (hf : stream.failed = true) : stream.extract convert = (none, stream) := by
  rw [extract, if_pos hf]

/-- What an extraction does, by its result. -/
theorem extract_cases (convert : Bool → Nat → Option α) (stream : IntegerStream) :
    (∃ rest, stream.extract convert = (none, { stream with rest := rest, failed := true })) ∨
    (∃ value rest, stream.failed = false ∧ rest.length < stream.rest.length ∧
      stream.extract convert = (some value, { stream with rest := rest })) := by
  cases hf : stream.failed with
  | true =>
    refine .inl ⟨stream.rest, ?_⟩
    rw [extract_of_failed hf, ← hf]
  | false =>
    simp only [extract, hf, Bool.false_eq_true, if_false]
    split
    · exact .inl ⟨_, rfl⟩
    · rename_i value hvalue
      refine .inr ⟨value, _, trivial, ?_, rfl⟩
      obtain ⟨field, hfield, -⟩ := Option.bind_eq_some_iff.mp hvalue
      have hspace : (stream.rest.dropWhile isSpace).length ≤ stream.rest.length :=
        (List.dropWhile_suffix _).length_le
      have hlt := length_scan_lt (Option.isSome_iff_exists.mpr ⟨field, hfield⟩)
      omega

/-- An extraction that finds a field behind white space. -/
theorem extract_field {cs rest : List Char} {negative : Bool} {m : Nat} {value : α}
    (hf : stream.failed = false) (hcs : stream.rest.dropWhile isSpace = cs)
    (hscan : scan stream.base cs = (some (negative, m), rest))
    (hconvert : convert negative m = some value) :
    stream.extract convert = (some value, { stream with rest := rest }) := by
  simp [extract, hf, hcs, hscan, hconvert]

/-- White space in front of a field makes no difference. -/
theorem extract_space {c : Char} (hc : isSpace c = true) (text : List Char) (base : Nat) :
    (⟨c :: text, base, false⟩ : IntegerStream).extract convert =
      (⟨text, base, false⟩ : IntegerStream).extract convert := by
  simp [extract, List.dropWhile_cons_of_pos hc]

end IntegerStream
end CoherenceFormal
