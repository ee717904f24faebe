import Mathlib.Data.Nat.Size
import Mathlib.Tactic.Linarith

/-!
# Bitmaps

A bitmap is an array of bytes read as an array of bits: bit `b` is bit `b % 8` of byte `b / 8`.  The
array here is a function on all integers.  A caller has its own part of it in mind, and what a loop
does when it runs off that part is as visible as the rest.

A loop that sets or clears `n` bits from `start` on is `forRange` of the operation on one bit, and
`test_forRange_set`, `test_forRange_clear` say what it leaves: the bits of the range, and no others,
have changed.  `ext_test` is how two bitmaps are shown equal.

The last section is on rounding up to a power of two by smearing the highest bit over all the lower
ones, which is how sizes are made to fit blocks.
-/

set_option autoImplicit false

namespace Bitmap

/-- The bytes of a bitmap, by index. -/
abbrev Bits := Int → BitVec 8

/-- The bit of its byte that stands for `b`. -/
def mask (b : Int) : BitVec 8 := 1#8 <<< (b.tmod 8).toNat

/-- Bit `b` is set. -/
def test (m : Bits) (b : Int) : Bool := m (b.tdiv 8) &&& mask b != 0#8

/-- Set bit `b`. -/
def set (b : Int) (m : Bits) : Bits :=
  Function.update m (b.tdiv 8) (m (b.tdiv 8) ||| mask b)

/-- Clear bit `b`. -/
def clear (b : Int) (m : Bits) : Bits :=
  Function.update m (b.tdiv 8) (m (b.tdiv 8) &&& ~~~mask b)

/-- Do something to the `n` bits from `start` on, in order. -/
def forRange (op : Int → Bits → Bits) (start : Int) : Nat → Bits → Bits
  | 0, m => m
  | n + 1, m => op (start + n) (forRange op start n m)

/-! ## One bit -/

theorem getLsbD_mask {b : Int} (hb : 0 ≤ b) (i : Nat) :
    (mask b).getLsbD i = decide ((i : Int) = b % 8) := by
  rw [mask, Int.tmod_eq_emod_of_nonneg hb, BitVec.getLsbD_shiftLeft, BitVec.getLsbD_one]
  rw [Bool.eq_iff_iff]
  simp only [Bool.and_eq_true, Bool.not_eq_true', decide_eq_true_eq, decide_eq_false_iff_not]
  omega

/-- A byte meets a mask in the one bit of it. -/
theorem and_mask_ne_zero {b : Int} (hb : 0 ≤ b) (v : BitVec 8) :
    (v &&& mask b != 0#8) = v.getLsbD (b % 8).toNat := by
  have hbit : ((b % 8).toNat : Int) = b % 8 := Int.toNat_of_nonneg (by omega)
  rw [Bool.eq_iff_iff, bne_iff_ne]
  constructor
  · intro h
    by_contra hclear
    refine h (BitVec.eq_of_getLsbD_eq fun i _ => ?_)
    rw [BitVec.getLsbD_and, getLsbD_mask hb, BitVec.getLsbD_zero]
    by_cases hi : (i : Int) = b % 8
    · obtain rfl : i = (b % 8).toNat := by omega
      simp [hclear]
    · simp [hi]
  · intro h h0
    have hget := congrArg (BitVec.getLsbD · (b % 8).toNat) h0
    simp only [BitVec.getLsbD_and, getLsbD_mask hb, h, hbit, BitVec.getLsbD_zero, decide_true,
      Bool.and_self, Bool.true_eq_false] at hget

theorem test_eq {m : Bits} {b : Int} (hb : 0 ≤ b) :
    test m b = (m (b / 8)).getLsbD (b % 8).toNat := by
  rw [test, and_mask_ne_zero hb, Int.tdiv_eq_ediv_of_nonneg hb]

theorem test_set {m : Bits} {b c : Int} (hb : 0 ≤ b) (hc : 0 ≤ c) :
    test (set b m) c = (decide (c = b) || test m c) := by
  have hbit : ((c % 8).toNat : Int) = c % 8 := Int.toNat_of_nonneg (by omega)
  rw [test_eq hc, test_eq hc, set, Int.tdiv_eq_ediv_of_nonneg hb]
  by_cases h : c / 8 = b / 8
  · have hiff : decide (c % 8 = b % 8) = decide (c = b) := by
      rw [decide_eq_decide]
      omega
    rw [h, Function.update_self, BitVec.getLsbD_or, getLsbD_mask hb, hbit, hiff, Bool.or_comm]
  · rw [Function.update_of_ne h, decide_eq_false (by rintro rfl; exact h rfl), Bool.false_or]

theorem test_clear {m : Bits} {b c : Int} (hb : 0 ≤ b) (hc : 0 ≤ c) :
    test (clear b m) c = (!decide (c = b) && test m c) := by
  have hbit : ((c % 8).toNat : Int) = c % 8 := Int.toNat_of_nonneg (by omega)
  rw [test_eq hc, test_eq hc, clear, Int.tdiv_eq_ediv_of_nonneg hb]
  by_cases h : c / 8 = b / 8
  · have hiff : decide (c % 8 = b % 8) = decide (c = b) := by
      rw [decide_eq_decide]
      omega
    have hlt : (c % 8).toNat < 8 := by omega
    rw [h, Function.update_self, BitVec.getLsbD_and, BitVec.getLsbD_not, getLsbD_mask hb, hbit,
      hiff, decide_eq_true hlt, Bool.true_and, Bool.and_comm]
  · rw [Function.update_of_ne h, decide_eq_false (by rintro rfl; exact h rfl), Bool.not_false,
      Bool.true_and]

/-- **Bitmaps are equal** if their bits are, and what lies before the first bit. -/
theorem ext_test {m m' : Bits} (hneg : ∀ i < 0, m i = m' i)
    (hbits : ∀ b, 0 ≤ b → test m b = test m' b) : m = m' := by
  funext i
  rcases lt_or_ge i 0 with hi | hi
  · exact hneg i hi
  · refine BitVec.eq_of_getLsbD_eq fun j hj => ?_
    have h := hbits (8 * i + j) (by omega)
    have hdiv : (8 * i + j) / 8 = i := by omega
    have hmod : ((8 * i + j) % 8).toNat = j := by omega
    rwa [test_eq (by omega), test_eq (by omega), hdiv, hmod] at h

/-! ## Ranges -/

variable {m : Bits} {start : Int}

/-- **Setting a range** sets its bits and leaves the others. -/
theorem test_forRange_set (hstart : 0 ≤ start) (n : Nat) {b : Int} (hb : 0 ≤ b) :
    test (forRange set start n m) b = true ↔ start ≤ b ∧ b < start + n ∨ test m b = true := by
  induction n with
  | zero =>
    refine ⟨Or.inr, fun h => h.elim (fun h => ?_) id⟩
    omega
  | succ n ih =>
    rw [forRange, test_set (by omega) hb, Bool.or_eq_true, decide_eq_true_eq, ih, ← or_assoc]
    refine or_congr_left ?_
    push_cast
    omega

/-- **Clearing a range** clears its bits and leaves the others. -/
theorem test_forRange_clear (hstart : 0 ≤ start) (n : Nat) {b : Int} (hb : 0 ≤ b) :
    test (forRange clear start n m) b = true ↔
      ¬ (start ≤ b ∧ b < start + n) ∧ test m b = true := by
  induction n with
  | zero =>
    refine ⟨fun h => ⟨?_, h⟩, And.right⟩
    omega
  | succ n ih =>
    rw [forRange, test_clear (by omega) hb, Bool.and_eq_true, Bool.not_eq_true',
      decide_eq_false_iff_not, ih, ← and_assoc]
    refine and_congr_left fun _ => ?_
    push_cast
    omega

/-- A loop that changes the byte of one bit at a time changes no byte outside its range. -/
theorem forRange_of_byte_notMem {op : Int → Bits → Bits}
    (hop : ∀ b m i, i ≠ b.tdiv 8 → op b m i = m i) (hstart : 0 ≤ start) {n : Nat} {i : Int}
    (hi : ∀ b, start ≤ b → b < start + n → i ≠ b / 8) : forRange op start n m i = m i := by
  induction n with
  | zero => rfl
  | succ n ih =>
    have hlast : i ≠ (start + n) / 8 := hi (start + n) (by omega) (by omega)
    rw [forRange, hop _ _ _ (by rwa [Int.tdiv_eq_ediv_of_nonneg (by omega)])]
    exact ih fun b hb hbn => hi b hb (by omega)

theorem set_of_ne {b : Int} {m : Bits} {i : Int} (h : i ≠ b.tdiv 8) : set b m i = m i :=
  Function.update_of_ne h _ _

theorem clear_of_ne {b : Int} {m : Bits} {i : Int} (h : i ≠ b.tdiv 8) : clear b m i = m i :=
  Function.update_of_ne h _ _

/-! ## Rounding up to a power of two -/

/-- Every bit that has a bit of `x` at most `w - 1` places above it, or at it. -/
def Smeared {n : Nat} (x y : BitVec n) (w : Nat) : Prop :=
  ∀ i, y.getLsbD i = true ↔ ∃ j, i ≤ j ∧ j < i + w ∧ x.getLsbD j = true

theorem Smeared.one {n : Nat} (x : BitVec n) : Smeared x x 1 := by
  intro i
  refine ⟨fun h => ⟨i, le_rfl, by omega, h⟩, ?_⟩
  rintro ⟨j, hij, hj, h⟩
  obtain rfl : j = i := by omega
  exact h

/-- One step of the smearing doubles its reach. -/
theorem Smeared.double {n : Nat} {x y : BitVec n} {w : Nat} (h : Smeared x y w) :
    Smeared x (y ||| (y >>> w)) (2 * w) := by
  intro i
  rw [BitVec.getLsbD_or, Bool.or_eq_true, BitVec.getLsbD_ushiftRight, h i, h (w + i)]
  constructor
  · rintro (⟨j, hij, hj, hx⟩ | ⟨j, hij, hj, hx⟩)
    · exact ⟨j, hij, by omega, hx⟩
    · exact ⟨j, by omega, by omega, hx⟩
  · rintro ⟨j, hij, hj, hx⟩
    rcases lt_or_ge j (i + w) with hlt | hge
    · exact Or.inl ⟨j, hij, hlt, hx⟩
    · exact Or.inr ⟨j, by omega, by omega, hx⟩

/-- Smeared over the whole width, a number is one less than the next power of two. -/
theorem Smeared.toNat_eq {n : Nat} {x y : BitVec n} (h : Smeared x y n) :
    y.toNat = 2 ^ x.toNat.size - 1 := by
  apply Nat.eq_of_testBit_eq
  intro i
  have hy : y.toNat.testBit i = true ↔ i < x.toNat.size := by
    rw [BitVec.testBit_toNat, h i, Nat.lt_size]
    constructor
    · rintro ⟨j, hij, -, hx⟩
      rw [← BitVec.testBit_toNat] at hx
      exact (Nat.pow_le_pow_right (by decide) hij).trans (Nat.ge_two_pow_of_testBit hx)
    · intro hle
      obtain ⟨j, hij, hj⟩ := Nat.exists_ge_and_testBit_of_ge_two_pow hle
      refine ⟨j, hij, ?_, by rwa [← BitVec.testBit_toNat]⟩
      have := BitVec.lt_of_getLsbD (by rwa [← BitVec.testBit_toNat] : x.getLsbD j = true)
      omega
  rw [Nat.testBit_two_pow_sub_one, Bool.eq_iff_iff, hy, decide_eq_true_iff]

end Bitmap
