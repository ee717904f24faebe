import Mathlib.Tactic.IntervalCases
import RiscyOS.Lib.Rv32
import RiscyOS.Assembler.Instructions

/-!
# Fields and operands

What the assembler's shifts and masks come to, and what its readers have read when they succeed.

* `iWord`, `rWord` and so on — the fields as they are put together are those of the formats.  The fields of
  a token are `tokenOp`, `tokenFunct` and `tokenFuncts`.
* `inRange_iff`, `inRange_distance_iff`, `and_eq_zero_iff` — a comparison with a mask asks whether a value is a
  shorter one, with its sign or without.
* `Reader.bind_ok` and what follows it — a reader that succeeds, one part after the other.
-/

set_option autoImplicit false

namespace RiscyOS.Rva

open Memory Rv32

/-! ## Fields -/

/-- The fields that a token has. -/
def tokenOp (token : Word) : BitVec 7 := token.extractLsb' 20 5 ++ 3#2
def tokenFunct (token : Word) : BitVec 3 := token.extractLsb' 25 3
def tokenFuncts (token : Word) : BitVec 7 := token.extractLsb' 8 7

/-- A register as it is in the table. -/
abbrev regWord (r : Reg) : Word := r.setWidth 32

section Fields

variable (token v : Word) (d s t : Reg)

theorem uWord (h : v &&& 0x00000FFF = 0) :
    opField token ||| (regWord d <<< 7) ||| v = uType (v.extractLsb' 12 20) d (tokenOp token) := by
  apply BitVec.eq_of_getLsbD_eq
  intro k hk
  have hbit := congrArg (BitVec.getLsbD · k) h
  simp only [opField, uType, tokenOp, regWord, BitVec.getLsbD_or, BitVec.getLsbD_and, BitVec.getLsbD_ushiftRight,
    BitVec.getLsbD_shiftLeft, BitVec.getLsbD_setWidth, BitVec.getLsbD_append, BitVec.getLsbD_extractLsb'] at hbit ⊢
  interval_cases k <;> simp_all

theorem jWord : opField token ||| (regWord d <<< 7) ||| immJal v = jType (v.extractLsb' 1 20) d (tokenOp token) := by
  apply BitVec.eq_of_getLsbD_eq
  intro k hk
  simp only [opField, immJal, jType, tokenOp, regWord, BitVec.getLsbD_or, BitVec.getLsbD_and,
    BitVec.getLsbD_ushiftRight, BitVec.getLsbD_shiftLeft, BitVec.getLsbD_setWidth, BitVec.getLsbD_append,
    BitVec.getLsbD_extractLsb']
  interval_cases k <;> simp

theorem iWord : opField token ||| functField token ||| (regWord d <<< 7) ||| (regWord s <<< 15) |||
    ((v &&& 0x00000FFF) <<< 20) = iType (v.setWidth 12) s (tokenFunct token) d (tokenOp token) := by
  apply BitVec.eq_of_getLsbD_eq
  intro k hk
  simp only [opField, functField, iType, tokenOp, tokenFunct, regWord, BitVec.getLsbD_or, BitVec.getLsbD_and,
    BitVec.getLsbD_ushiftRight, BitVec.getLsbD_shiftLeft, BitVec.getLsbD_setWidth, BitVec.getLsbD_append,
    BitVec.getLsbD_extractLsb']
  interval_cases k <;> simp

theorem shiftWord : opField token ||| functField token ||| (regWord d <<< 7) ||| (regWord s <<< 15) |||
    functsField token ||| ((v &&& 0x0000001F) <<< 20) =
      rType (tokenFuncts token) (v.setWidth 5) s (tokenFunct token) d (tokenOp token) := by
  apply BitVec.eq_of_getLsbD_eq
  intro k hk
  simp only [opField, functField, functsField, rType, tokenOp, tokenFunct, tokenFuncts, regWord, BitVec.getLsbD_or,
    BitVec.getLsbD_and, BitVec.getLsbD_ushiftRight, BitVec.getLsbD_shiftLeft, BitVec.getLsbD_setWidth,
    BitVec.getLsbD_append, BitVec.getLsbD_extractLsb']
  interval_cases k <;> simp

theorem rWord : opField token ||| functField token ||| functsField token ||| (regWord d <<< 7) |||
    (regWord s <<< 15) ||| (regWord t <<< 20) =
      rType (tokenFuncts token) t s (tokenFunct token) d (tokenOp token) := by
  apply BitVec.eq_of_getLsbD_eq
  intro k hk
  simp only [opField, functField, functsField, rType, tokenOp, tokenFunct, tokenFuncts, regWord, BitVec.getLsbD_or,
    BitVec.getLsbD_and, BitVec.getLsbD_ushiftRight, BitVec.getLsbD_shiftLeft, BitVec.getLsbD_setWidth,
    BitVec.getLsbD_append, BitVec.getLsbD_extractLsb']
  interval_cases k <;> simp

theorem bWord : opField token ||| functField token ||| (regWord s <<< 15) ||| (regWord t <<< 20) ||| immBranch v =
    bType (v.extractLsb' 1 12) t s (tokenFunct token) (tokenOp token) := by
  apply BitVec.eq_of_getLsbD_eq
  intro k hk
  simp only [opField, functField, immBranch, bType, tokenOp, tokenFunct, regWord, BitVec.getLsbD_or,
    BitVec.getLsbD_and, BitVec.getLsbD_ushiftRight, BitVec.getLsbD_shiftLeft, BitVec.getLsbD_setWidth,
    BitVec.getLsbD_append, BitVec.getLsbD_extractLsb']
  interval_cases k <;> simp

theorem sWord : opField token ||| functField token ||| (regWord t <<< 20) |||
    ((((regWord s <<< 16) ||| (v &&& 0x00000FFF)) &&& 0xFE0) <<< 20) |||
    ((((regWord s <<< 16) ||| (v &&& 0x00000FFF)) &&& 0x01F) <<< 7) |||
    ((((regWord s <<< 16) ||| (v &&& 0x00000FFF)) &&& 0x001F0000) >>> 1) =
      sType (v.setWidth 12) t s (tokenFunct token) (tokenOp token) := by
  apply BitVec.eq_of_getLsbD_eq
  intro k hk
  simp only [opField, functField, sType, tokenOp, tokenFunct, regWord, BitVec.getLsbD_or,
    BitVec.getLsbD_and, BitVec.getLsbD_ushiftRight, BitVec.getLsbD_shiftLeft, BitVec.getLsbD_setWidth,
    BitVec.getLsbD_append, BitVec.getLsbD_extractLsb']
  interval_cases k <;> simp

theorem loadWord : opField token ||| functField token ||| (regWord d <<< 7) |||
    ((((regWord s <<< 16) ||| (v &&& 0x00000FFF)) &&& 0xFFF) <<< 20) |||
    ((((regWord s <<< 16) ||| (v &&& 0x00000FFF)) &&& 0x001F0000) >>> 1) =
      iType (v.setWidth 12) s (tokenFunct token) d (tokenOp token) := by
  apply BitVec.eq_of_getLsbD_eq
  intro k hk
  simp only [opField, functField, iType, tokenOp, tokenFunct, regWord, BitVec.getLsbD_or,
    BitVec.getLsbD_and, BitVec.getLsbD_ushiftRight, BitVec.getLsbD_shiftLeft, BitVec.getLsbD_setWidth,
    BitVec.getLsbD_append, BitVec.getLsbD_extractLsb']
  interval_cases k <;> simp

theorem csrWord : opField token ||| functField token ||| (regWord d <<< 7) ||| (v <<< 20) ||| (regWord s <<< 15) =
    iType (v.setWidth 12) s (tokenFunct token) d (tokenOp token) := by
  apply BitVec.eq_of_getLsbD_eq
  intro k hk
  simp only [opField, functField, iType, tokenOp, tokenFunct, regWord, BitVec.getLsbD_or,
    BitVec.getLsbD_and, BitVec.getLsbD_ushiftRight, BitVec.getLsbD_shiftLeft, BitVec.getLsbD_setWidth,
    BitVec.getLsbD_append, BitVec.getLsbD_extractLsb']
  interval_cases k <;> simp

end Fields

/-! ## Immediates -/

/-- **What the comparison with a mask asks**: that the value is a sign extension. -/
theorem inRange_iff {n : Nat} {mask v : Word} (hn : 0 < n) (hn' : n ≤ 32)
    (hmask : ∀ k < 32, mask.getLsbD k = decide (n - 1 ≤ k)) :
    inRange mask v = true ↔ v = (v.setWidth n).signExtend 32 := by
  have hall : ∀ b : Bool, (∀ k < 32, n - 1 ≤ k → v.getLsbD k = b) ↔ v &&& mask = if b then mask else 0 := by
    intro b
    constructor
    · intro h
      apply BitVec.eq_of_getLsbD_eq
      intro k hk
      rw [BitVec.getLsbD_and, hmask k hk]
      by_cases hle : n - 1 ≤ k
      · rw [h k hk hle]
        cases b <;> simp [hmask k hk, hle]
      · cases b <;> simp [hmask k hk, hle]
    · intro h k hk hle
      have hbit := congrArg (BitVec.getLsbD · k) h
      simp only [BitVec.getLsbD_and, hmask k hk, hle, decide_true, Bool.and_true] at hbit
      rw [hbit]
      cases b <;> simp [hmask k hk, hle]
  have hzero : v &&& mask = 0 ↔ ∀ k < 32, n - 1 ≤ k → v.getLsbD k = false := (hall false).symm
  have hones : v &&& mask = mask ↔ ∀ k < 32, n - 1 ≤ k → v.getLsbD k = true := (hall true).symm
  have hext : v = (v.setWidth n).signExtend 32 ↔ ∀ k < 32, n - 1 ≤ k → v.getLsbD k = v.getLsbD (n - 1) := by
    have hbit : ∀ k < 32, ((v.setWidth n).signExtend 32).getLsbD k =
        if k < n then v.getLsbD k else v.getLsbD (n - 1) := by
      intro k hk
      rw [BitVec.getLsbD_signExtend, BitVec.msb_eq_getLsbD_last, BitVec.getLsbD_setWidth, BitVec.getLsbD_setWidth]
      have hlast : n - 1 < n := by omega
      by_cases hkn : k < n <;> simp [hk, hkn, hlast]
    constructor
    · intro h k hk hle
      by_cases hkn : k < n
      · rw [show k = n - 1 by omega]
      · rw [h, hbit k hk, if_neg hkn, hbit (n - 1) (by omega), if_pos (by omega)]
    · intro h
      apply BitVec.eq_of_getLsbD_eq
      intro k hk
      rw [hbit k hk]
      split
      · rfl
      · exact h k hk (by omega)
  rw [inRange, decide_eq_true_iff, hzero, hones, hext]
  constructor
  · rintro (h | h) k hk hle
    · rw [h k hk hle, h (n - 1) (by omega) (Nat.le_refl _)]
    · rw [h k hk hle, h (n - 1) (by omega) (Nat.le_refl _)]
  · intro h
    cases hsign : v.getLsbD (n - 1) with
    | false => exact Or.inl fun k hk hle => (h k hk hle).trans hsign
    | true => exact Or.inr fun k hk hle => (h k hk hle).trans hsign

theorem setWidth_signExtend (imm : BitVec 12) : (imm.signExtend 32).setWidth 12 = imm := by
  apply BitVec.eq_of_getLsbD_eq
  intro k hk
  have h32 : k < 32 := by omega
  rw [BitVec.getLsbD_setWidth, BitVec.getLsbD_signExtend]
  simp [hk, h32]

theorem signed12_iff {v : Word} : signed12 v = true ↔ v = (v.setWidth 12).signExtend 32 :=
  inRange_iff (by decide) (by decide) (by decide)

theorem and_one_eq_zero_iff {v : Word} : v &&& 1 = 0 ↔ v.getLsbD 0 = false := by
  constructor
  · intro h
    have h0 := congrArg (BitVec.getLsbD · 0) h
    simp only [BitVec.getLsbD_and] at h0
    exact (Bool.and_true _).symm.trans h0
  · intro h
    apply BitVec.eq_of_getLsbD_eq
    intro k hk
    rw [BitVec.getLsbD_and]
    obtain rfl | hk0 := Nat.eq_zero_or_pos k
    · rw [h]
      rfl
    · simp [BitVec.getLsbD_one, Nat.pos_iff_ne_zero.1 hk0]

theorem getLsbD_append_zero {n : Nat} (x : BitVec n) : (x ++ 0#1).getLsbD 0 = false := by
  rw [BitVec.getLsbD_append]
  rfl

/-- An even value is its halfwords. -/
theorem append_zero_iff {n : Nat} {v : Word} : v &&& 1 = 0 ↔ v.extractLsb' 1 n ++ 0#1 = v.setWidth (n + 1) := by
  rw [and_one_eq_zero_iff]
  constructor
  · intro h
    apply BitVec.eq_of_getLsbD_eq
    intro k hk
    obtain rfl | hk0 := Nat.eq_zero_or_pos k
    · rw [getLsbD_append_zero, BitVec.getLsbD_setWidth, h, Bool.and_false]
    · rw [BitVec.getLsbD_append, BitVec.getLsbD_setWidth, BitVec.getLsbD_extractLsb']
      have hk1 : 1 + (k - 1) = k := by omega
      have hkn : k - 1 < n := by omega
      have hk2 : ¬ k < 1 := by omega
      simp [hk, hk1, hkn, hk2]
  · intro h
    have h0 := congrArg (BitVec.getLsbD · 0) h
    simp only [getLsbD_append_zero, BitVec.getLsbD_setWidth, Nat.succ_pos, decide_true, Bool.true_and] at h0
    exact h0.symm

/-- The halfwords of a distance are those that it was counted in. -/
theorem extractLsb'_distance {n : Nat} {offset : BitVec n} (hn : n < 32) :
    (distance offset).extractLsb' 1 n = offset := by
  apply BitVec.eq_of_getLsbD_eq
  intro k hk
  rw [BitVec.getLsbD_extractLsb', distance, BitVec.getLsbD_signExtend, BitVec.getLsbD_append]
  have h32 : 1 + k < 32 := by omega
  have hkn : 1 + k < n + 1 := by omega
  have h1 : ¬ 1 + k < 1 := by omega
  have hk1 : 1 + k - 1 = k := by omega
  simp [hk, h32, hkn, hk1]

/-- The targets that pass: a number of halfwords with its sign. -/
theorem inRange_distance_iff {n : Nat} {mask v : Word} (hn : n < 32)
    (hmask : ∀ k < 32, mask.getLsbD k = decide (n ≤ k)) :
    v &&& 1 = 0 ∧ inRange mask v = true ↔ v = distance (v.extractLsb' 1 n) := by
  rw [inRange_iff (Nat.succ_pos n) hn hmask, append_zero_iff, distance]
  constructor
  · rintro ⟨heven, h⟩
    rw [heven]
    exact h
  · intro h
    have heven : v.extractLsb' 1 n ++ 0#1 = v.setWidth (n + 1) := by
      rw [← append_zero_iff, and_one_eq_zero_iff, h, BitVec.getLsbD_signExtend, if_pos (Nat.succ_pos n),
        getLsbD_append_zero]
      rfl
    exact ⟨heven, by rwa [heven] at h⟩

/-- What is left of a value below a mask is all of it. -/
theorem and_eq_zero_iff {n : Nat} {mask v : Word} (hmask : ∀ k < 32, mask.getLsbD k = decide (n ≤ k)) :
    v &&& mask = 0 ↔ v = (v.setWidth n).setWidth 32 := by
  constructor
  · intro h
    apply BitVec.eq_of_getLsbD_eq
    intro k hk
    have hbit := congrArg (BitVec.getLsbD · k) h
    simp only [BitVec.getLsbD_and, hmask k hk] at hbit
    rw [BitVec.getLsbD_setWidth, BitVec.getLsbD_setWidth]
    by_cases hkn : n ≤ k
    · simpa [hk, hkn, Nat.not_lt.2 hkn] using hbit
    · simp [hk, Nat.lt_of_not_le hkn]
  · intro h
    rw [h]
    apply BitVec.eq_of_getLsbD_eq
    intro k hk
    rw [BitVec.getLsbD_and, hmask k hk, BitVec.getLsbD_setWidth, BitVec.getLsbD_setWidth]
    by_cases hkn : n ≤ k
    · simp [Nat.not_lt.2 hkn]
    · simp [hkn]

theorem upperImm_iff {v : Word} : v &&& 0x00000FFF = 0 ↔ v = upperImm (v.extractLsb' 12 20) := by
  constructor
  · intro h
    apply BitVec.eq_of_getLsbD_eq
    intro k hk
    have hbit := congrArg (BitVec.getLsbD · k) h
    simp only [BitVec.getLsbD_and] at hbit
    rw [upperImm, BitVec.getLsbD_append, BitVec.getLsbD_extractLsb']
    interval_cases k <;> simp_all
  · intro h
    rw [h]
    apply BitVec.eq_of_getLsbD_eq
    intro k hk
    rw [BitVec.getLsbD_and, upperImm, BitVec.getLsbD_append, BitVec.getLsbD_extractLsb']
    interval_cases k <;> simp

theorem extractLsb'_upperImm (imm : BitVec 20) : (upperImm imm).extractLsb' 12 20 = imm :=
  BitVec.extractLsb'_append_eq_left

theorem upperImm_and (imm : BitVec 20) : upperImm imm &&& 0x00000FFF = 0 := by
  rw [upperImm_iff, extractLsb'_upperImm]

/-- The upper bits of a word. -/
theorem and_upper (v : Word) : v &&& 0xFFFFF000 = upperImm (v.extractLsb' 12 20) := by
  apply BitVec.eq_of_getLsbD_eq
  intro k hk
  rw [BitVec.getLsbD_and, upperImm, BitVec.getLsbD_append, BitVec.getLsbD_extractLsb']
  interval_cases k <;> simp

theorem and_sign_eq_zero_iff {v : Word} : v &&& 0x00000800 = 0 ↔ v.toNat % 4096 < 2048 := by
  have hbit : v.getLsbD 11 = decide (v.toNat / 2048 % 2 = 1) := Nat.testBit_eq_decide_div_mod_eq
  have hiff : v &&& 0x00000800 = 0 ↔ v.getLsbD 11 = false := by
    constructor
    · intro h
      have h11 := congrArg (BitVec.getLsbD · 11) h
      simp only [BitVec.getLsbD_and] at h11
      exact (Bool.and_true _).symm.trans h11
    · intro h
      apply BitVec.eq_of_getLsbD_eq
      intro k hk
      rw [BitVec.getLsbD_and]
      interval_cases k <;> simp_all
  rw [hiff, hbit, decide_eq_false_iff_not]
  omega

/-- The upper part of an offset is what a lower part with its sign leaves. -/
theorem upperPart_eq (offset : Word) : upperPart offset = upperImm (hi20 offset) := by
  have hlt := offset.isLt
  have hupper : (offset &&& 0xFFFFF000).toNat = offset.toNat / 4096 * 4096 := by
    rw [and_upper, toNat_upperImm, BitVec.extractLsb'_toNat, Nat.shiftRight_eq_div_pow]
    omega
  apply BitVec.eq_of_toNat_eq
  rw [upperPart, toNat_upperImm, toNat_hi20]
  split
  · rename_i hsign
    have hlow := and_sign_eq_zero_iff.1 hsign
    rw [hupper]
    omega
  · rename_i hsign
    have hhigh : ¬ offset.toNat % 4096 < 2048 := fun h => hsign (and_sign_eq_zero_iff.2 h)
    have hone : (0x00001000 : Word).toNat = 4096 := rfl
    rw [BitVec.toNat_add, hupper, hone]
    omega

/-! ## Readers that succeed -/

section Readers

variable {α β : Type} {r : Reader α} {f : α → Reader β} {a b : α} {x : β} {c c' : Cursor} {code : Word}

theorem Reader.bind_ok : (r >>= f) c = (.ok x, c') ↔ ∃ a c₁, r c = (.ok a, c₁) ∧ f a c₁ = (.ok x, c') := by
  simp only [bind]
  generalize r c = q
  obtain ⟨q, c₁⟩ := q
  cases q with
  | error e => simp
  | ok a =>
    simp only [Prod.mk.injEq, Except.ok.injEq]
    exact ⟨fun h => ⟨a, c₁, ⟨rfl, rfl⟩, h⟩, fun ⟨a', c₂, ⟨ha, hc⟩, h⟩ => by rw [ha, hc]; exact h⟩

theorem Reader.pure_ok : (pure a : Reader α) c = (.ok b, c') ↔ a = b ∧ c = c' := by
  show ((Except.ok a, c) : Except Stop α × Cursor) = _ ↔ _
  simp

theorem fail_ok : (fail code : Reader α) c = (.ok b, c') ↔ False := by simp [fail]

theorem failHere_ok : (failHere code : Reader α) c = (.ok b, c') ↔ False := by simp [failHere]

theorem settle_ok {e : Word} {u : Unit} : settle e c = (.ok u, c') ↔ e = evalOkay ∧ c = c' := by
  rw [settle]
  split
  · rename_i h
    simp [Reader.pure_ok, h]
  · rename_i h
    simp [fail_ok, h]

end Readers

section Operands

variable (ctx : Context)

/-- The line is assembled for the output. -/
def Context.Final : Prop := ctx.firstPass = false ∧ ctx.lastPass = true

/-- There is a register. -/
def IsReg (c : Cursor) (r : Reg) (c' : Cursor) : Prop := getReg ctx c = (.ok (some (regWord r)), c')

/-- There is no register. -/
def NoReg (c c' : Cursor) : Prop := getReg ctx c = (.ok none, c')

/-- There is a character. -/
def Has (character : Char) (c c' : Cursor) : Prop := found ctx character c = (.ok true, c')

/-- There is another one. -/
def HasNot (character : Char) (c c' : Cursor) : Prop := found ctx character c = (.ok false, c')

/-- There is an expression, with no error in it. -/
def IsValue (c : Cursor) (v : Word) (c' : Cursor) : Prop :=
  ∃ r, evaluate ctx.env ctx.line c.position = .ok r ∧ r.error = evalOkay ∧ r.value = v ∧
    c' = { position := r.pos
           undefinedCount := c.undefinedCount + r.undefinedReads
           divZeroThisPass := c.divZeroThisPass || r.divZero }

/-- There is a register and a comma. -/
def RegComma (c : Cursor) (r : Reg) (c' : Cursor) : Prop := ∃ c₁, IsReg ctx c r c₁ ∧ Has ctx ',' c₁ c'

variable {ctx} {c c' : Cursor} {v w code mask : Word} {u : Unit} {valid : Word → Bool} {ch : Char}

theorem getReg_some : getReg ctx c = (.ok (some w), c') ↔ ∃ r, IsReg ctx c r c' ∧ w = regWord r := by
  constructor
  · intro h
    have hlt : w < 32 := by
      rw [getReg] at h
      split at h
      · rename_i ptr hptr
        split at hptr
        · exact absurd hptr (by simp)
        · have hw : ptr.value = w := by
            have := congrArg Prod.fst h
            simpa using this
          exact hw ▸ ctx.registers.value_lt _ _ hptr
      · exact absurd (congrArg Prod.fst h) (by simp)
    have hword : w = regWord (w.setWidth 5) := by
      apply BitVec.eq_of_toNat_eq
      rw [BitVec.lt_def] at hlt
      have hlt' : w.toNat < 32 := hlt
      simp only [regWord, BitVec.toNat_setWidth]
      omega
    exact ⟨w.setWidth 5, by rw [IsReg, ← hword]; exact h, hword⟩
  · rintro ⟨r, h, rfl⟩
    exact h

theorem register_ok : register ctx c = (.ok w, c') ↔ ∃ r, IsReg ctx c r c' ∧ w = regWord r := by
  rw [register, Reader.bind_ok, ← getReg_some]
  constructor
  · rintro ⟨reg, c₁, h, hnext⟩
    cases reg with
    | some reg =>
      obtain ⟨rfl, rfl⟩ := Reader.pure_ok.1 hnext
      exact h
    | none => exact absurd hnext failHere_ok.1
  · exact fun h => ⟨some w, c', h, Reader.pure_ok.2 ⟨rfl, rfl⟩⟩

theorem expect_ok : expect ctx ch code c = (.ok u, c') ↔ Has ctx ch c c' := by
  rw [expect, Reader.bind_ok]
  constructor
  · rintro ⟨b, c₁, h, hnext⟩
    cases b with
    | true =>
      obtain ⟨-, rfl⟩ := Reader.pure_ok.1 hnext
      exact h
    | false => exact absurd hnext failHere_ok.1
  · exact fun h => ⟨true, c', h, rfl⟩

/-- On the last pass no error is allowed. -/
theorem expression_ok (hfinal : ctx.Final) : expression ctx c = (.ok (evalOkay, v), c') ↔ IsValue ctx c v c' := by
  have hallow : ∀ e, allowError e ctx.firstPass ctx.lastPass = false := by
    intro e
    rw [allowError, hfinal.1, hfinal.2]
    rfl
  simp only [expression, IsValue, hallow, Bool.false_eq_true, if_false]
  cases evaluate ctx.env ctx.line c.position with
  | error => simp
  | ok r =>
    simp only [Prod.mk.injEq, Except.ok.injEq, exists_eq_left']
    exact ⟨fun ⟨⟨he, hv⟩, hc⟩ => ⟨he, hv, hc.symm⟩, fun ⟨he, hv, hc⟩ => ⟨⟨he, hv⟩, hc.symm⟩⟩

theorem checked_ok (hfinal : ctx.Final) :
    checked ctx valid code c = (.ok v, c') ↔ IsValue ctx c v c' ∧ valid v = true := by
  rw [checked, Reader.bind_ok]
  constructor
  · rintro ⟨r, c₁, h, hnext⟩
    split at hnext
    · rename_i hvalid
      obtain ⟨u, c₂, hsettle, hpure⟩ := Reader.bind_ok.1 hnext
      obtain ⟨hok, rfl⟩ := settle_ok.1 hsettle
      obtain ⟨rfl, rfl⟩ := Reader.pure_ok.1 hpure
      exact ⟨(expression_ok hfinal).1 (by rw [h, ← hok]), hvalid⟩
    · exact absurd hnext fail_ok.1
  · rintro ⟨h, hvalid⟩
    refine ⟨(evalOkay, v), c', (expression_ok hfinal).2 h, ?_⟩
    rw [if_pos hvalid]
    exact Reader.bind_ok.2 ⟨(), c', settle_ok.2 ⟨rfl, rfl⟩, Reader.pure_ok.2 ⟨rfl, rfl⟩⟩

theorem settled_ok (hfinal : ctx.Final) :
    settled ctx valid code c = (.ok v, c') ↔ IsValue ctx c v c' ∧ valid v = true := by
  rw [settled, Reader.bind_ok]
  constructor
  · rintro ⟨r, c₁, h, hnext⟩
    obtain ⟨u, c₂, hsettle, hlast⟩ := Reader.bind_ok.1 hnext
    obtain ⟨hok, rfl⟩ := settle_ok.1 hsettle
    split at hlast
    · rename_i hvalid
      obtain ⟨rfl, rfl⟩ := Reader.pure_ok.1 hlast
      exact ⟨(expression_ok hfinal).1 (by rw [h, ← hok]), hvalid⟩
    · exact absurd hlast fail_ok.1
  · rintro ⟨h, hvalid⟩
    refine ⟨(evalOkay, v), c', (expression_ok hfinal).2 h, Reader.bind_ok.2 ⟨(), c', settle_ok.2 ⟨rfl, rfl⟩, ?_⟩⟩
    rw [if_pos hvalid]
    exact Reader.pure_ok.2 ⟨rfl, rfl⟩

/-- The address of what is assembled. -/
abbrev Context.pc (ctx : Context) : Word := ctx.env.assemblyPointer

theorem offsetTo_ok (hfinal : ctx.Final) {n : Nat} (hn : n < 32)
    (hmask : ∀ k < 32, mask.getLsbD k = decide (n ≤ k)) : offsetTo ctx mask c = (.ok v, c') ↔
      ∃ offset : BitVec n, IsValue ctx c (ctx.pc + distance offset) c' ∧ v = distance offset := by
  rw [offsetTo, Reader.bind_ok]
  constructor
  · rintro ⟨r, c₁, h, hnext⟩
    split at hnext
    · exact absurd hnext fail_ok.1
    rename_i heven
    split at hnext
    · rename_i hrange
      obtain ⟨u, c₂, hsettle, hpure⟩ := Reader.bind_ok.1 hnext
      obtain ⟨hok, rfl⟩ := settle_ok.1 hsettle
      obtain ⟨rfl, rfl⟩ := Reader.pure_ok.1 hpure
      have hdist := (inRange_distance_iff hn hmask).1 ⟨not_not.1 heven, hrange⟩
      refine ⟨_, (expression_ok hfinal).1 ?_, hdist⟩
      rw [h, ← hdist, BitVec.add_comm, BitVec.sub_add_cancel, ← hok]
    · exact absurd hnext fail_ok.1
  · rintro ⟨offset, h, rfl⟩
    refine ⟨_, c', (expression_ok hfinal).2 h, ?_⟩
    have hsub : ctx.pc + distance offset - ctx.env.assemblyPointer = distance offset := by
      rw [BitVec.add_comm, BitVec.add_sub_cancel]
    have hself : (distance offset : Word) = distance ((distance offset).extractLsb' 1 n) :=
      congrArg distance (extractLsb'_distance hn).symm
    obtain ⟨heven, hrange⟩ := (inRange_distance_iff hn hmask).2 hself
    rw [hsub, if_neg (not_not.2 heven), if_pos hrange]
    exact Reader.bind_ok.2 ⟨(), c', settle_ok.2 ⟨rfl, rfl⟩, Reader.pure_ok.2 ⟨rfl, rfl⟩⟩

end Operands

end RiscyOS.Rva
