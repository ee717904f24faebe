import RiscyOS.Lib.Memory

/-!
# A counter in two halves

A 32-bit machine reads and writes a 64-bit counter half by half, and adds to it with a carry between the
halves.  Counters run on and come around, so that a value lies between two others when it is met on the
way from the one to the other (`Between`).

A counter that is read low half first while it is running gives the low half of one moment and the high
half of a later one.  `between_join_iff` says when the two belong together.
-/

set_option autoImplicit false

namespace Halves

open Memory

/-- The low half. -/
def low (c : BitVec 64) : Word := c.setWidth 32

/-- The high half. -/
def high (c : BitVec 64) : Word := (c >>> 32).setWidth 32

/-- The counter with these halves. -/
def join (hi lo : Word) : BitVec 64 := hi ++ lo

/-- `x` is met on the way from `a` to `b`. -/
def Between (a b x : BitVec 64) : Prop := x - a ≤ b - a

instance (a b x : BitVec 64) : Decidable (Between a b x) := inferInstanceAs (Decidable (_ ≤ _))

variable {a b x n c : BitVec 64} {hi lo : Word}

theorem join_toNat (hi lo : Word) : (join hi lo).toNat = 2 ^ 32 * hi.toNat + lo.toNat := by
  rw [join, BitVec.toNat_append, ← Nat.shiftLeft_add_eq_or_of_lt lo.isLt, Nat.shiftLeft_eq,
    Nat.mul_comm]

theorem low_toNat (c : BitVec 64) : (low c).toNat = c.toNat % 2 ^ 32 := BitVec.toNat_setWidth 32 c

theorem high_toNat (c : BitVec 64) : (high c).toNat = c.toNat / 2 ^ 32 := by
  have hlt := c.isLt
  rw [high, BitVec.toNat_setWidth, BitVec.toNat_ushiftRight, Nat.shiftRight_eq_div_pow]
  omega

@[simp] theorem low_join : low (join hi lo) = lo := by
  apply BitVec.eq_of_toNat_eq
  rw [low_toNat, join_toNat]
  have := lo.isLt
  omega

@[simp] theorem high_join : high (join hi lo) = hi := by
  apply BitVec.eq_of_toNat_eq
  rw [high_toNat, join_toNat]
  have := lo.isLt
  omega

@[simp] theorem join_high_low (c : BitVec 64) : join (high c) (low c) = c := by
  apply BitVec.eq_of_toNat_eq
  rw [join_toNat, high_toNat, low_toNat]
  omega

/-- **Adding half by half**: the carry is one if the sum of the low halves has come out smaller. -/
theorem join_add (hi lo n : Word) :
    join (hi + if lo + n < lo then 1 else 0) (lo + n) = join hi lo + n.setWidth 64 := by
  have hhi := hi.isLt
  have hlo := lo.isLt
  have hn := n.isLt
  have hone : (1 : Word).toNat = 1 := rfl
  have hzero : (0 : Word).toNat = 0 := rfl
  apply BitVec.eq_of_toNat_eq
  have hcarry : lo + n < lo ↔ 2 ^ 32 ≤ lo.toNat + n.toNat := by
    rw [BitVec.lt_def, BitVec.toNat_add]
    omega
  rw [join_toNat, BitVec.toNat_add, BitVec.toNat_add, BitVec.toNat_add, join_toNat,
    BitVec.toNat_setWidth]
  by_cases h : 2 ^ 32 ≤ lo.toNat + n.toNat
  · rw [if_pos (hcarry.2 h), hone]
    omega
  · rw [if_neg fun hc => h (hcarry.1 hc), hzero]
    omega

/-- What is added to all three does not matter. -/
theorem between_add : Between (a + n) (b + n) (x + n) ↔ Between a b x := by
  have hsub : ∀ y : BitVec 64, y + n - (a + n) = y - a := fun y => by
    rw [BitVec.add_comm a n, ← BitVec.sub_sub, BitVec.add_sub_cancel]
  rw [Between, Between, hsub, hsub]

/-- **A counter read low half first** lies between its values at the two reads if and only if the low half
has not come around in between: it is not smaller at the second read, unless the high half is the same. -/
theorem between_join_iff :
    Between a b (join (high b) (low a)) ↔ high a = high b ∨ (low a).toNat ≤ (low b).toNat := by
  have ha := a.isLt
  have hb := b.isLt
  rw [Between, BitVec.le_def, BitVec.toNat_sub, BitVec.toNat_sub, join_toNat, ← BitVec.toNat_inj,
    high_toNat, high_toNat, low_toNat, low_toNat]
  omega

end Halves
