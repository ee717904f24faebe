import RiscyOS.Lib.Memory

/-!
# Dispatching interrupts

`external_interrupt_handler` reads the pending sources off the interrupt controller, as bits of a word,
and takes the handler of one of them from `peripheral_interrupt_table` until none is left.  Which one is
up to `logBaseTwo`, which shifts its argument to the right until nothing is left and counts.

It counts the last shift too: what it returns is the number of bits and not the index of the last of
them (`logBaseTwo_eq`), and the handler is that of the source after it.
-/

set_option autoImplicit false

namespace RiscyOS

open Memory

/-! ## `lib/maths.s` -/

/-- `logBaseTwo_loop`. -/
def logBaseTwoLoop : Nat → Word → Word → Option Word
  | 0, _, _ => none
  | fuel + 1, t0, a0 =>
    let t0 := t0 >>> 1
    let a0 := a0 + 1
    if t0 ≠ 0 then logBaseTwoLoop fuel t0 a0 else some a0

/-- `logBaseTwo`. -/
def logBaseTwo (a0 : Word) : Option Word :=
  if a0 = 0 then some (-1) else logBaseTwoLoop 32 a0 0

/-! ## `drivers/external_interrupts.s` -/

/-- `peripheral_interrupt_table`, entry `i`. -/
def interruptEntry (peripheralInterruptTable : Word) (i : Nat) : Word :=
  peripheralInterruptTable + BitVec.ofNat 32 (4 * i)

/-- `external_interrupt_handler`, given what the controller says each time it is asked: where it takes
the handlers from that it calls. -/
def externalInterruptHandler (peripheralInterruptTable : Word) : List Word → List Word
  | [] => []
  | intOut :: later =>
    if intOut = 0 then [] else
      match logBaseTwo intOut with
      | none => []
      | some a0 =>
        (peripheralInterruptTable + (a0 <<< 2)) ::
          externalInterruptHandler peripheralInterruptTable later

/-! ## The highest bit -/

/-- Bit `i` of `v` is set, and none above it. -/
def HighestBit (v : Word) (i : Nat) : Prop := v.getLsbD i = true ∧ ∀ j, i < j → v.getLsbD j = false

variable {v : Word} {i : Nat}

theorem getLsbD_log2 (hv : v ≠ 0) : v.getLsbD v.toNat.log2 = true := by
  have hne : v.toNat ≠ 0 := fun h => hv (BitVec.eq_of_toNat_eq h)
  have hle := Nat.log2_self_le hne
  have hlt : v.toNat < 2 ^ (v.toNat.log2 + 1) := Nat.lt_log2_self
  rw [BitVec.getLsbD, Nat.testBit_eq_decide_div_mod_eq, decide_eq_true_iff]
  rw [Nat.pow_succ] at hlt
  have hdiv : v.toNat / 2 ^ v.toNat.log2 = 1 := Nat.div_eq_of_lt_le (by omega) (by omega)
  rw [hdiv]

theorem getLsbD_eq_false_of_log2_lt (h : v.toNat.log2 < i) : v.getLsbD i = false := by
  have hlt : v.toNat < 2 ^ (v.toNat.log2 + 1) := Nat.lt_log2_self
  exact Nat.testBit_lt_two_pow (hlt.trans_le (Nat.pow_le_pow_right (by decide) h))

theorem HighestBit.eq_log2 (hv : v ≠ 0) (h : HighestBit v i) : i = v.toNat.log2 := by
  rcases Nat.lt_trichotomy i v.toNat.log2 with hlt | heq | hlt
  · exact absurd ((getLsbD_log2 hv).symm.trans (h.2 _ hlt)) (by decide)
  · exact heq
  · exact absurd (h.1.symm.trans (getLsbD_eq_false_of_log2_lt hlt)) (by decide)

theorem log2_lt (v : Word) : v.toNat.log2 < 32 := by
  by_cases h : v.toNat = 0
  · rw [h]
    decide
  · exact (Nat.log2_lt h).2 v.isLt

/-! ## What is computed -/

/-- The loop counts the bits from the highest one down. -/
theorem logBaseTwoLoop_eq {fuel : Nat} {t0 a0 : Word} (h0 : t0 ≠ 0) (hfuel : t0.toNat.log2 < fuel) :
    logBaseTwoLoop fuel t0 a0 = some (a0 + BitVec.ofNat 32 (t0.toNat.log2 + 1)) := by
  induction fuel generalizing t0 a0 with
  | zero => exact absurd hfuel (Nat.not_lt_zero _)
  | succ fuel ih =>
    have hshift : (t0 >>> 1).toNat = t0.toNat / 2 := by
      rw [BitVec.toNat_ushiftRight, Nat.shiftRight_eq_div_pow]
    have hlog := Nat.log2_def t0.toNat
    rw [logBaseTwoLoop]
    by_cases hnext : t0 >>> 1 = 0
    · have hsmall : ¬ 2 ≤ t0.toNat := by
        rw [hnext] at hshift
        have hzero : (0 : Word).toNat = 0 := rfl
        omega
      rw [if_neg (not_not.2 hnext), hlog, if_neg hsmall]
      rfl
    · have hlarge : 2 ≤ t0.toNat := by
        have hpos : (t0 >>> 1).toNat ≠ 0 := fun h => hnext (BitVec.eq_of_toNat_eq h)
        omega
      rw [if_pos hlarge, ← hshift] at hlog
      rw [if_pos hnext, ih hnext (by omega), hlog,
        BitVec.ofNat_add ((t0 >>> 1).toNat.log2 + 1) 1, BitVec.add_assoc, BitVec.add_comm 1]
      rfl

/-- **The number of bits**, for every argument but zero. -/
theorem logBaseTwo_eq (hv : v ≠ 0) : logBaseTwo v = some (BitVec.ofNat 32 (v.toNat.log2 + 1)) := by
  rw [logBaseTwo, if_neg hv, logBaseTwoLoop_eq hv (log2_lt v)]
  exact congrArg some (BitVec.zero_add _)

/-- **The entry after** that of the highest source is the one taken. -/
theorem externalInterruptHandler_cons (hv : v ≠ 0) (table : Word) (later : List Word) :
    externalInterruptHandler table (v :: later) =
      interruptEntry table (v.toNat.log2 + 1) :: externalInterruptHandler table later := by
  have hlt := log2_lt v
  rw [externalInterruptHandler, if_neg hv, logBaseTwo_eq hv]
  refine congrArg (fun x => (table + x) :: _) (BitVec.eq_of_toNat_eq ?_)
  rw [BitVec.toNat_shiftLeft, BitVec.toNat_ofNat, BitVec.toNat_ofNat, Nat.shiftLeft_eq]
  omega

/-- Different entries are at different places. -/
theorem interruptEntry_inj {table : Word} {j : Nat} (hi : i ≤ 32) (hj : j ≤ 32)
    (h : interruptEntry table i = interruptEntry table j) : i = j := by
  have h := congrArg BitVec.toNat ((BitVec.add_right_inj table).1 h)
  rw [BitVec.toNat_ofNat, BitVec.toNat_ofNat] at h
  omega

/-- **No interrupt is dispatched by its own index.**  For no argument but zero is `logBaseTwo` the index
of the highest bit, and with any set of sources pending the first handler called is taken from the entry
of one that is not. -/
theorem interrupt_dispatch_never (table v : Word) (later : List Word) (hv : v ≠ 0) :
    (¬ ∃ i, HighestBit v i ∧ logBaseTwo v = some (BitVec.ofNat 32 i)) ∧
      ∃ a rest, externalInterruptHandler table (v :: later) = a :: rest ∧
        ¬ ∃ i, v.getLsbD i = true ∧ a = interruptEntry table i := by
  have hlt := log2_lt v
  refine ⟨?_, _, _, externalInterruptHandler_cons hv table later, ?_⟩
  · rintro ⟨i, hi, hlog⟩
    obtain rfl := hi.eq_log2 hv
    rw [logBaseTwo_eq hv, Option.some.injEq] at hlog
    have hnat := congrArg BitVec.toNat hlog
    rw [BitVec.toNat_ofNat, BitVec.toNat_ofNat] at hnat
    omega
  · rintro ⟨i, hi, ha⟩
    have hle : i ≤ v.toNat.log2 := by
      by_contra hgt
      rw [getLsbD_eq_false_of_log2_lt (not_le.1 hgt)] at hi
      cases hi
    have heq := interruptEntry_inj (by omega) (by omega) ha
    omega

/-- With the transmitter of the serial port pending, source 8, the entry taken is that of source 9. -/
theorem interrupt_dispatch_transmitter :
    (¬ ∃ i, HighestBit 0x100 i ∧ logBaseTwo 0x100 = some (BitVec.ofNat 32 i)) ∧
      ∃ a rest, externalInterruptHandler 0x800 [0x100, 0] = a :: rest ∧
        ¬ ∃ i, (0x100 : Word).getLsbD i = true ∧ a = interruptEntry 0x800 i :=
  interrupt_dispatch_never 0x800 0x100 [0] (by decide)

/-- The logarithm of 1 is not 1. -/
theorem logBaseTwo_counts : ¬ ∀ (table v : Word) (later : List Word), v ≠ 0 →
    (∃ i, HighestBit v i ∧ logBaseTwo v = some (BitVec.ofNat 32 i)) ∧
      ∀ a rest, externalInterruptHandler table (v :: later) = a :: rest →
        ∃ i, v.getLsbD i = true ∧ a = interruptEntry table i := by
  intro h
  obtain ⟨i, hbit, hlog⟩ := (h 0x800 1 [] (by decide)).1
  obtain rfl := hbit.eq_log2 (by decide)
  exact absurd hlog (by decide +kernel)

end RiscyOS
