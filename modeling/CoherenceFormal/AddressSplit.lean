import CoherenceFormal.Locality

/-!
# How an address is split

A `Geometry` is any size, associativity and block size of which at least one set fits. Its
set index and tag tell blocks of `2 ^ offset_bits` bytes apart, whatever the number of sets,
and the shift for the tag is always defined. Only for a power of two are they the remainder
and the quotient of the block number.

The constructor takes any three `int`s, and the cache that is simulated is the one that was
asked for only when powers of two are asked for. A `Geometry` is what the constructor makes
of positive numbers that fit (`construct_geometry`).
-/

namespace CoherenceFormal
open MaskShift
set_option autoImplicit false

namespace Geometry
variable (g : Geometry)

theorem trailingZeros_offsetBits : TrailingZeros g.offsetBits g.bsize := by
  have hle : g.bsize ≤ g.assoc * g.bsize := Nat.le_mul_of_pos_left _ g.assoc_pos
  have hfits := g.fits
  have hlt := g.csize_lt
  exact trailingZeros_ctzFrom 32 g.bsize_pos (by omega)

/-- Both shifts together stay below the width of an address. -/
theorem shift_le : g.offsetBits + g.setBits ≤ 30 := by
  have hpow : 2 ^ (g.offsetBits + g.setBits) < 2 ^ 31 := by
    calc 2 ^ (g.offsetBits + g.setBits)
        ≤ g.bsize * g.numSets :=
          g.trailingZeros_offsetBits.two_pow_add_le g.trailingZeros_setBits
      _ ≤ g.assoc * g.bsize * g.numSets :=
          Nat.mul_le_mul_right _ (Nat.le_mul_of_pos_left _ g.assoc_pos)
      _ ≤ g.csize := Nat.mul_div_le _ _
      _ < 2 ^ 31 := g.csize_lt
  have hlt := (Nat.pow_lt_pow_iff_right (by decide)).mp hpow
  omega

theorem tag_mul_add_setIdx {k : Nat} (hk : g.numSets = 2 ^ k) (addr : Addr) :
    g.tag addr * g.numSets + g.setIdx addr = g.blockNumber addr := by
  have hzeros := g.trailingZeros_setBits
  rw [hk] at hzeros
  rw [tag_eq_shift, hzeros.of_two_pow, setIdx, hk]
  exact shift_mul_add_mask k (g.blockNumber addr)

/-- The number of sets need not be a power of two, except for the last part. -/
theorem address_split_injective :
    (∀ addr, g.setIdx addr < g.numSets) ∧ g.offsetBits + g.setBits ≤ 30 ∧
    (∀ a b, (g.setIdx a = g.setIdx b ∧ g.tag a = g.tag b) ↔
      a.toNat >>> g.offsetBits = b.toNat >>> g.offsetBits) ∧
    ((∃ k, g.numSets = 2 ^ k) → ∀ addr, g.tag addr * g.numSets + g.setIdx addr =
      addr.toNat >>> g.offsetBits) := by
  refine ⟨g.setIdx_lt, g.shift_le, ?_, ?_⟩
  · intro a b
    rw [← Block.mk.injEq]
    exact g.block_eq_iff a b
  · rintro ⟨k, hk⟩ addr
    exact g.tag_mul_add_setIdx hk addr

end Geometry

/-! ### The constructor on any arguments -/

/-- The range of `int`. -/
def IsInt (x : Int) : Prop := -2 ^ 31 ≤ x ∧ x < 2 ^ 31

instance (x : Int) : Decidable (IsInt x) := inferInstanceAs (Decidable (_ ∧ _))

/-- An `int` as the unsigned argument of `__builtin_ctz`. -/
def toUnsigned (x : Int) : Nat := (x % 2 ^ 32).toNat

/-- `size / (assoc * bsize)`, which C++ truncates. -/
def setQuotient (size assoc bsize : Int32) : Int :=
  size.toInt.tdiv (assoc.toInt * bsize.toInt)

/-- What `get_line` and `allocate` read of a cache object to find a set: `sets.size()` and
the two bit counts. -/
structure CacheShape where
  setCount : Nat
  setBits : Nat
  offsetBits : Nat
  deriving Repr, DecidableEq

namespace CacheShape

/-- `MESICache(size, assoc, bsize)` and its four copies. `main` hands them any three values
that `std::stoi` returns and nothing checks these. The result is `none` where C++ leaves it
undefined: the product or the quotient overflows, the division is by zero, or
`__builtin_ctz` is applied to zero. For a negative quotient the loop makes no set. -/
def construct (size assoc bsize : Int32) : Option CacheShape :=
  let numSets := setQuotient size assoc bsize
  if IsInt (assoc.toInt * bsize.toInt) ∧ assoc.toInt * bsize.toInt ≠ 0 ∧ IsInt numSets ∧
      numSets ≠ 0 then
    some ⟨numSets.toNat, builtinCtz (toUnsigned numSets), builtinCtz (toUnsigned bsize.toInt)⟩
  else none

/-- `set_idx` and `tag` of an address. The subtraction in `sets.size() - 1` wraps, and a
shift by the width of the address or more is undefined. -/
def place (shape : CacheShape) (addr : Addr) : Option Block :=
  if shape.offsetBits + shape.setBits < 32 then
    some ⟨(addr.toNat >>> shape.offsetBits) &&& ((shape.setCount + (2 ^ 64 - 1)) % 2 ^ 64),
      addr.toNat >>> (shape.offsetBits + shape.setBits)⟩
  else none

/-- The cache is one of `assoc` ways with blocks of `bsize` bytes in which every set is used.
There are no ways of a negative number: `(size_t)assoc` is then so large that no set is full. -/
structure Faithful (shape : CacheShape) (assoc bsize : Int32) : Prop where
  ways : 1 ≤ assoc.toInt
  bytes : 1 ≤ bsize.toInt
  inside : ∀ addr, ∃ b, shape.place addr = some b ∧ b.set < shape.setCount
  blocks : ∀ a c, shape.place a = shape.place c ↔
    (a.toNat : Int).tdiv bsize.toInt = (c.toNat : Int).tdiv bsize.toInt
  covered : ∀ k < shape.setCount, ∃ addr b, shape.place addr = some b ∧ b.set = k

end CacheShape

/-! ### What the constructor computes -/

theorem two_pow_dvd_toUnsigned (x : Int) {i : Nat} (hi : i ≤ 32) :
    2 ^ i ∣ toUnsigned x ↔ 2 ^ i ∣ x.natAbs := by
  have hwidth : ((2 ^ i : Nat) : Int) ∣ 2 ^ 32 :=
    Int.natCast_dvd_natCast.mpr (Nat.pow_dvd_pow 2 hi)
  have hnonneg : 0 ≤ x % 2 ^ 32 := Int.emod_nonneg x (by decide)
  rw [toUnsigned, ← Int.natCast_dvd_natCast, ← Int.natCast_dvd_natCast, Int.dvd_natAbs,
    Int.toNat_of_nonneg hnonneg, Int.dvd_iff_emod_eq_zero, Int.dvd_iff_emod_eq_zero,
    Int.emod_emod_of_dvd x hwidth]

/-- The trailing zero bits of an `int` are those of its absolute value. -/
theorem trailingZeros_toUnsigned {x : Int} (hint : IsInt x) (hne : x ≠ 0) :
    TrailingZeros (builtinCtz (toUnsigned x)) x.natAbs := by
  obtain ⟨hlow, hhigh⟩ := hint
  have hpos : 0 < toUnsigned x := by
    unfold toUnsigned
    omega
  have hlt : toUnsigned x < 2 ^ 32 := by
    unfold toUnsigned
    omega
  have hzeros : TrailingZeros (builtinCtz (toUnsigned x)) (toUnsigned x) :=
    trailingZeros_ctzFrom 32 hpos hlt
  have hwidth : builtinCtz (toUnsigned x) < 32 :=
    (Nat.pow_lt_pow_iff_right (by decide)).mp (hzeros.two_pow_le.trans_lt hlt)
  refine ⟨?_, ?_⟩
  · exact (two_pow_dvd_toUnsigned x (by omega)).mp hzeros.dvd
  · intro hdvd
    exact hzeros.not_dvd ((two_pow_dvd_toUnsigned x (by omega)).mpr hdvd)

theorem natAbs_mul_setQuotient_le (size : Int32) {assoc bsize : Int32}
    (hne : assoc.toInt * bsize.toInt ≠ 0) :
    bsize.toInt.natAbs * (setQuotient size assoc bsize).natAbs ≤ 2 ^ 31 := by
  have hassoc : 0 < assoc.toInt.natAbs := Int.natAbs_pos.mpr (Int.mul_ne_zero_iff.mp hne).1
  have hlow := size.le_toInt
  have hhigh := size.toInt_lt
  have hquotient : (setQuotient size assoc bsize).natAbs =
      size.toInt.natAbs / (assoc.toInt.natAbs * bsize.toInt.natAbs) := by
    rw [setQuotient, Int.natAbs_tdiv, Int.natAbs_mul]
    rfl
  calc bsize.toInt.natAbs * (setQuotient size assoc bsize).natAbs
      ≤ assoc.toInt.natAbs * bsize.toInt.natAbs * (setQuotient size assoc bsize).natAbs :=
        Nat.mul_le_mul_right _ (Nat.le_mul_of_pos_left _ hassoc)
    _ ≤ size.toInt.natAbs := by
        rw [hquotient]
        exact Nat.mul_div_le _ _
    _ ≤ 2 ^ 31 := by omega

theorem tdiv_eq_tdiv_iff (a c : Nat) (b : Int) :
    (a : Int).tdiv b = (c : Int).tdiv b ↔ a / b.natAbs = c / b.natAbs := by
  rcases Int.natAbs_eq b with hb | hb
  · rw [hb, ← Int.ofNat_tdiv, ← Int.ofNat_tdiv, Int.natAbs_natCast]
    exact Int.ofNat_inj
  · rw [hb, Int.tdiv_neg, Int.tdiv_neg, ← Int.ofNat_tdiv, ← Int.ofNat_tdiv, Int.natAbs_neg,
      Int.natAbs_natCast, neg_inj]
    exact Int.ofNat_inj

/-- What a constructor that returns has computed. -/
structure CacheShape.Constructed (size assoc bsize : Int32) (shape : CacheShape) : Prop where
  product : IsInt (assoc.toInt * bsize.toInt)
  quotient : IsInt (setQuotient size assoc bsize)
  setCount : shape.setCount = (setQuotient size assoc bsize).toNat
  setBits : TrailingZeros shape.setBits (setQuotient size assoc bsize).natAbs
  offsetBits : TrailingZeros shape.offsetBits bsize.toInt.natAbs
  span : bsize.toInt.natAbs * (setQuotient size assoc bsize).natAbs ≤ 2 ^ 31

namespace CacheShape.Constructed
variable {size assoc bsize : Int32} {shape : CacheShape}

theorem of_construct (h : construct size assoc bsize = some shape) :
    Constructed size assoc bsize shape := by
  unfold construct at h
  dsimp only at h
  split at h
  · rename_i hdefined
    obtain ⟨hproduct, hne, hquotient, hsets⟩ := hdefined
    obtain rfl := Option.some.inj h
    have hbsize : bsize.toInt ≠ 0 := (Int.mul_ne_zero_iff.mp hne).2
    exact {
      product := hproduct
      quotient := hquotient
      setCount := rfl
      setBits := trailingZeros_toUnsigned hquotient hsets
      offsetBits := trailingZeros_toUnsigned ⟨bsize.le_toInt, bsize.toInt_lt⟩ hbsize
      span := natAbs_mul_setQuotient_le size hne }
  · cases h

variable (h : Constructed size assoc bsize shape)
include h

/-- The shift for the tag is defined. -/
theorem shift_lt : shape.offsetBits + shape.setBits < 32 := by
  have hpow : 2 ^ (shape.offsetBits + shape.setBits) < 2 ^ 32 := by
    calc 2 ^ (shape.offsetBits + shape.setBits)
        ≤ bsize.toInt.natAbs * (setQuotient size assoc bsize).natAbs :=
          h.offsetBits.two_pow_add_le h.setBits
      _ ≤ 2 ^ 31 := h.span
      _ < 2 ^ 32 := by decide
  exact (Nat.pow_lt_pow_iff_right (by decide)).mp hpow

section
variable (hpos : 0 < shape.setCount)
include hpos

theorem natAbs_setQuotient : (setQuotient size assoc bsize).natAbs = shape.setCount := by
  have hcount := h.setCount
  omega

theorem trailingZeros_setCount : TrailingZeros shape.setBits shape.setCount := by
  rw [← h.natAbs_setQuotient hpos]
  exact h.setBits

theorem place_eq (addr : Addr) : shape.place addr =
    some ⟨(addr.toNat >>> shape.offsetBits) &&& (shape.setCount - 1),
      (addr.toNat >>> shape.offsetBits) >>> shape.setBits⟩ := by
  have hcount := h.setCount
  obtain ⟨-, hhigh⟩ := h.quotient
  have hmask : (shape.setCount + (2 ^ 64 - 1)) % 2 ^ 64 = shape.setCount - 1 := by omega
  rw [place, if_pos h.shift_lt, hmask, Nat.shiftRight_add]

theorem place_eq_place_iff (a c : Addr) : shape.place a = shape.place c ↔
    a.toNat >>> shape.offsetBits = c.toNat >>> shape.offsetBits := by
  rw [h.place_eq hpos, h.place_eq hpos, Option.some.injEq, Block.mk.injEq]
  constructor
  · rintro ⟨hset, htag⟩
    exact eq_of_mask_of_shift hpos (h.trailingZeros_setCount hpos).dvd hset htag
  · intro heq
    rw [heq]
    exact ⟨rfl, rfl⟩

end

/-! ### Which arguments are simulated as given -/

section
variable (hf : shape.Faithful assoc bsize)
include hf

omit h in
theorem setCount_pos : 0 < shape.setCount := by
  obtain ⟨b, -, hb⟩ := hf.inside 0
  omega

theorem setCount_two_pow : ∃ k, shape.setCount = 2 ^ k := by
  have hpos := setCount_pos hf
  apply exists_two_pow_of_mask_onto hpos
  intro i hi
  obtain ⟨addr, b, hb, rfl⟩ := hf.covered i hi
  rw [h.place_eq hpos] at hb
  obtain rfl := Option.some.inj hb
  exact ⟨addr.toNat >>> shape.offsetBits, rfl⟩

/-- The addresses `0` and `2 ^ offset_bits` have different places, so no block has both. -/
theorem bsize_two_pow : bsize.toInt.natAbs = 2 ^ shape.offsetBits := by
  have hpos := setCount_pos hf
  have hshift := h.shift_lt
  have hlt : 2 ^ shape.offsetBits < 2 ^ 32 := Nat.pow_lt_pow_right (by decide) (by omega)
  have hnext : (BitVec.ofNat 32 (2 ^ shape.offsetBits)).toNat = 2 ^ shape.offsetBits := by
    rw [BitVec.toNat_ofNat, Nat.mod_eq_of_lt hlt]
  apply eq_two_pow_of_shift h.offsetBits
  intro hdiv
  have hplace : shape.place 0 = shape.place (BitVec.ofNat 32 (2 ^ shape.offsetBits)) := by
    apply (hf.blocks _ _).mpr
    rw [tdiv_eq_tdiv_iff, hnext]
    exact hdiv
  have hsame := (h.place_eq_place_iff hpos _ _).mp hplace
  rw [hnext] at hsame
  exact hsame

end

theorem faithful {k j : Nat} (hways : 1 ≤ assoc.toInt) (hk : shape.setCount = 2 ^ k)
    (hblock : bsize.toInt = 2 ^ j) : shape.Faithful assoc bsize := by
  have hj : bsize.toInt.natAbs = 2 ^ j := by
    rw [hblock, Int.natAbs_pow]
    rfl
  have hpos : 0 < shape.setCount := by
    rw [hk]
    exact Nat.two_pow_pos k
  have hzeros := h.offsetBits
  rw [hj] at hzeros
  have hoffset := hzeros.of_two_pow
  refine ⟨hways, ?_, ?_, ?_, ?_⟩
  · rw [hblock]
    exact Int.pow_pos (by decide)
  · intro addr
    refine ⟨_, h.place_eq hpos addr, ?_⟩
    have hle : (addr.toNat >>> shape.offsetBits) &&& (shape.setCount - 1) ≤ shape.setCount - 1 :=
      Nat.and_le_right
    dsimp only
    omega
  · intro a c
    rw [h.place_eq_place_iff hpos, tdiv_eq_tdiv_iff, hj, hoffset, Nat.shiftRight_eq_div_pow,
      Nat.shiftRight_eq_div_pow]
  · intro i hi
    -- the first byte of block `i`
    have hspan := h.span
    rw [h.natAbs_setQuotient hpos, hj] at hspan
    have hlt : 2 ^ j * i < 2 ^ 32 := by
      calc 2 ^ j * i
          ≤ 2 ^ j * shape.setCount := Nat.mul_le_mul_left _ (by omega)
        _ ≤ 2 ^ 31 := hspan
        _ < 2 ^ 32 := by decide
    have hfirst : (BitVec.ofNat 32 (2 ^ j * i)).toNat = 2 ^ j * i := by
      rw [BitVec.toNat_ofNat, Nat.mod_eq_of_lt hlt]
    refine ⟨BitVec.ofNat 32 (2 ^ j * i), _, h.place_eq hpos _, ?_⟩
    dsimp only
    rw [hfirst, hoffset, Nat.shiftRight_eq_div_pow,
      Nat.mul_div_cancel_left _ (Nat.two_pow_pos j), hk]
    exact Nat.and_two_pow_sub_one_of_lt_two_pow (hk ▸ hi)

end CacheShape.Constructed

/-- There is a way, the product fits in an `int`, the quotient is a power of two, and so is the
block size. -/
structure PowersOfTwo (csize assoc bsize : Int32) : Prop where
  ways : 1 ≤ assoc.toInt
  product : IsInt (assoc.toInt * bsize.toInt)
  sets : ∃ k < 31, csize.toInt.tdiv (assoc.toInt * bsize.toInt) = 2 ^ k
  block : ∃ j : Nat, bsize.toInt = 2 ^ j

theorem PowersOfTwo.construct_isSome {csize assoc bsize : Int32}
    (h : PowersOfTwo csize assoc bsize) : (CacheShape.construct csize assoc bsize).isSome := by
  obtain ⟨k, hk, hsets⟩ := h.sets
  have hpow : (2 : Int) ^ k < 2 ^ 31 := Int.pow_lt_pow_of_lt (by decide) hk
  have hpos : (0 : Int) < 2 ^ k := Int.pow_pos (by decide)
  have hne : assoc.toInt * bsize.toInt ≠ 0 := by
    intro h0
    rw [h0, Int.tdiv_zero] at hsets
    omega
  rw [CacheShape.construct, if_pos]
  · rfl
  · rw [IsInt, setQuotient, hsets]
    exact ⟨h.product, hne, ⟨by omega, hpow⟩, by omega⟩

/-- A cache is simulated as its arguments describe it for powers of two and for nothing else. -/
theorem geometry_faithful_iff (csize assoc bsize : Int32) :
    (∃ shape, CacheShape.construct csize assoc bsize = some shape ∧ shape.Faithful assoc bsize) ↔
      PowersOfTwo csize assoc bsize := by
  constructor
  · rintro ⟨shape, hconstruct, hf⟩
    have hc := CacheShape.Constructed.of_construct hconstruct
    obtain ⟨k, hk⟩ := hc.setCount_two_pow hf
    obtain ⟨-, hhigh⟩ := hc.quotient
    have hcount := hc.setCount
    have hpos := CacheShape.Constructed.setCount_pos hf
    have hsets : setQuotient csize assoc bsize = ((2 ^ k : Nat) : Int) := by omega
    have hbytes := hf.bytes
    have hblock := hc.bsize_two_pow hf
    refine ⟨hf.ways, hc.product, ⟨k, ?_, ?_⟩, ⟨shape.offsetBits, ?_⟩⟩
    · have hlt : 2 ^ k < 2 ^ 31 := by omega
      exact (Nat.pow_lt_pow_iff_right (by decide)).mp hlt
    · rw [← setQuotient, hsets]
      push_cast
      rfl
    · have habs : bsize.toInt = ((bsize.toInt.natAbs : Nat) : Int) := by omega
      rw [habs, hblock]
      push_cast
      rfl
  · intro h
    obtain ⟨shape, hconstruct⟩ := Option.isSome_iff_exists.mp h.construct_isSome
    have hc := CacheShape.Constructed.of_construct hconstruct
    obtain ⟨k, -, hsets⟩ := h.sets
    obtain ⟨j, hj⟩ := h.block
    refine ⟨shape, hconstruct, hc.faithful h.ways (k := k) ?_ hj⟩
    rw [hc.setCount, setQuotient, hsets]
    exact Int.toNat_natCast (2 ^ k)

/-- With `24 2 4` there are three sets and the mask is `2`: no address is in the second one. -/
theorem three_sets_unfaithful :
    ¬ ∃ shape, CacheShape.construct 24 2 4 = some shape ∧ shape.Faithful 2 4 := by
  rintro ⟨shape, hconstruct, hf⟩
  have hshape : CacheShape.construct 24 2 4 = some ⟨3, 0, 2⟩ := by decide
  rw [hshape] at hconstruct
  obtain rfl := Option.some.inj hconstruct
  obtain ⟨addr, b, hb, hset⟩ := hf.covered 1 (by decide)
  rw [CacheShape.place, if_pos (by decide)] at hb
  obtain rfl := Option.some.inj hb
  have hbit := congrArg (Nat.testBit · 0) hset
  simp at hbit

/-! ### The geometries of the model -/

def Geometry.shape (g : Geometry) : CacheShape := ⟨g.numSets, g.setBits, g.offsetBits⟩

theorem toUnsigned_natCast {x : Nat} (h : x < 2 ^ 32) : toUnsigned x = x := by
  unfold toUnsigned
  omega

/-- A `Geometry` is what the constructor makes of its three numbers. -/
theorem construct_geometry (g : Geometry) {csize assoc bsize : Int32}
    (hcsize : csize.toInt = g.csize) (hassoc : assoc.toInt = g.assoc)
    (hbsize : bsize.toInt = g.bsize) :
    CacheShape.construct csize assoc bsize = some g.shape ∧
      ∀ addr, g.shape.place addr = some (g.block addr) := by
  have hfits := g.fits
  have hlt := g.csize_lt
  have hsets := g.numSets_pos
  have hle : g.numSets ≤ g.csize := Nat.div_le_self _ _
  have hblock : g.bsize ≤ g.assoc * g.bsize := Nat.le_mul_of_pos_left _ g.assoc_pos
  have hbpos := g.bsize_pos
  have hproduct : assoc.toInt * bsize.toInt = ((g.assoc * g.bsize : Nat) : Int) := by
    rw [hassoc, hbsize, Int.natCast_mul]
  have hquotient : setQuotient csize assoc bsize = (g.numSets : Int) := by
    rw [setQuotient, hcsize, hproduct, ← Int.ofNat_tdiv, Geometry.numSets]
  have hconstruct : CacheShape.construct csize assoc bsize = some g.shape := by
    rw [CacheShape.construct, if_pos]
    · rw [hquotient, hbsize, toUnsigned_natCast (by omega), toUnsigned_natCast (by omega)]
      rfl
    · rw [hproduct, hquotient, IsInt, IsInt]
      omega
  refine ⟨hconstruct, ?_⟩
  intro addr
  rw [(CacheShape.Constructed.of_construct hconstruct).place_eq hsets, Geometry.block,
    Geometry.tag_eq_shift]
  rfl

end CoherenceFormal
