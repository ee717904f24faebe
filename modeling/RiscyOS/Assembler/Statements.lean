import RiscyOS.Assembler.InstructionSpec

/-!
# Statements of instructions

What stands on a line behind a mnemonic, `Statement`, is said in terms of the operands that can be read
there: registers, and values that are the immediates of an instruction.  For the instructions of the
machine, `rv32i_mnemonic` puts down words just if the line is such a statement, and the words are the
encodings of the instructions that it states (`rv32iMnemonic_iff`).

An address that is a symbol alone takes two instructions, and `upperImm_add_iff` says that there is just one
pair of immediates for it.  There is an error for everything else: a value that does not fit, an odd offset,
a register that is missing.
-/

set_option autoImplicit false

namespace RiscyOS.Rva

open Memory Rv32

variable (ctx : Context)

/-! ## What is stated -/

/-- The base register of an address, with its bracket and the character behind that. -/
def Base (c : Cursor) (s : Reg) (c' : Cursor) : Prop :=
  ∃ c₁ c₂, IsReg ctx c s c₁ ∧ Has ctx ']' c₁ c₂ ∧ c' = { c₂ with position := c₂.position + 1 }

/-- An address with a base register. -/
inductive Based : Cursor → Reg → BitVec 12 → Cursor → Prop
  | bare {c c₁ c' : Cursor} {s : Reg} (hbracket : Has ctx '[' c c₁) (hbase : Base ctx c₁ s c') : Based c s 0 c'
  | offset {c c₁ c₂ c₃ c' : Cursor} {s : Reg} {imm : BitVec 12} (hno : HasNot ctx '[' c c₁)
      (hvalue : IsValue ctx c₁ (imm.signExtend 32) c₂) (hbracket : Has ctx '[' c₂ c₃) (hbase : Base ctx c₃ s c') :
      Based c s imm c'

/-- An address without one. -/
def Symbol (c : Cursor) (v : Word) (c' : Cursor) : Prop :=
  ∃ c₁ c₂, HasNot ctx '[' c c₁ ∧ IsValue ctx c₁ v c₂ ∧ HasNot ctx '[' c₂ c'

/-- **The instructions that a line states** from a position on. -/
inductive Statement : Mnemonic → Cursor → List Instr → Cursor → Prop
  | lui {c c₁ c' : Cursor} {rd : Reg} {imm : BitVec 20} (hrd : RegComma ctx c rd c₁)
      (hvalue : IsValue ctx c₁ (upperImm imm) c') : Statement .lui c [.lui rd imm] c'
  | auipc {c c₁ c' : Cursor} {rd : Reg} {imm : BitVec 20} (hrd : RegComma ctx c rd c₁)
      (hvalue : IsValue ctx c₁ (upperImm imm) c') : Statement .auipc c [.auipc rd imm] c'
  | jal {c c₁ c' : Cursor} {rd : Reg} {offset : BitVec 20} (hrd : RegComma ctx c rd c₁)
      (htarget : IsValue ctx c₁ (ctx.pc + distance offset) c') : Statement .jal c [.jal rd offset] c'
  -- without a register, the link register
  | jalLink {c c₁ c' : Cursor} {offset : BitVec 20} (hno : NoReg ctx c c₁)
      (htarget : IsValue ctx c₁ (ctx.pc + distance offset) c') : Statement .jal c [.jal 1 offset] c'
  | jalr {c c₁ c' : Cursor} {rd rs : Reg} {imm : BitVec 12} (hrd : RegComma ctx c rd c₁)
      (haddr : Based ctx c₁ rs imm c') : Statement .jalr c [.jalr rd rs imm] c'
  | jalrLink {c c₁ c' : Cursor} {rs : Reg} (hrs : IsReg ctx c rs c₁) (hno : HasNot ctx ',' c₁ c') :
      Statement .jalr c [.jalr 1 rs 0] c'
  | branch {op : Cond} {c c₁ c₂ c' : Cursor} {rs rt : Reg} {offset : BitVec 12} (hrs : RegComma ctx c rs c₁)
      (hrt : RegComma ctx c₁ rt c₂) (htarget : IsValue ctx c₂ (ctx.pc + distance offset) c') :
      Statement (.branch op) c [.branch op rs rt offset] c'
  | load {op : LoadOp} {c c₁ c' : Cursor} {rd rs : Reg} {imm : BitVec 12} (hrd : RegComma ctx c rd c₁)
      (haddr : Based ctx c₁ rs imm c') : Statement (.load op) c [.load op rd rs imm] c'
  | loadSymbol {op : LoadOp} {c c₁ c' : Cursor} {rd : Reg} {hi : BitVec 20} {lo : BitVec 12}
      (hrd : RegComma ctx c rd c₁) (haddr : Symbol ctx c₁ (ctx.pc + (upperImm hi + lo.signExtend 32)) c') :
      Statement (.load op) c [.auipc rd hi, .load op rd rd lo] c'
  | store {op : StoreOp} {c c₁ c' : Cursor} {rt rs : Reg} {imm : BitVec 12} (hrt : RegComma ctx c rt c₁)
      (haddr : Based ctx c₁ rs imm c') : Statement (.store op) c [.store op rt rs imm] c'
  | storeSymbol {op : StoreOp} {c c₁ c₂ c₃ c' : Cursor} {rt rs : Reg} {hi : BitVec 20} {lo : BitVec 12}
      (hrt : RegComma ctx c rt c₁) (haddr : Symbol ctx c₁ (ctx.pc + (upperImm hi + lo.signExtend 32)) c₂)
      (hcomma : Has ctx ',' c₂ c₃) (hrs : IsReg ctx c₃ rs c') :
      Statement (.store op) c [.auipc rs hi, .store op rt rs lo] c'
  | imm {op : ImmOp} {c c₁ c₂ c' : Cursor} {rd rs : Reg} {imm : BitVec 12} (hrd : RegComma ctx c rd c₁)
      (hrs : RegComma ctx c₁ rs c₂) (hvalue : IsValue ctx c₂ (imm.signExtend 32) c') :
      Statement (.imm op) c [.imm op rd rs imm] c'
  | shift {op : ShiftOp} {c c₁ c₂ c' : Cursor} {rd rs : Reg} {shamt : BitVec 5} (hrd : RegComma ctx c rd c₁)
      (hrs : RegComma ctx c₁ rs c₂) (hvalue : IsValue ctx c₂ (shamt.setWidth 32) c') :
      Statement (.shift op) c [.shift op rd rs shamt] c'
  | reg {op : RegOp} {c c₁ c₂ c' : Cursor} {rd rs rt : Reg} (hrd : RegComma ctx c rd c₁)
      (hrs : RegComma ctx c₁ rs c₂) (hrt : IsReg ctx c₂ rt c') : Statement (.reg op) c [.reg op rd rs rt] c'
  | csr {op : CsrOp} {c c₁ c₂ c₃ c' : Cursor} {rd rs : Reg} {csr : BitVec 12} (hrd : RegComma ctx c rd c₁)
      (hcsr : IsValue ctx c₁ (csr.setWidth 32) c₂) (hcomma : Has ctx ',' c₂ c₃) (hrs : IsReg ctx c₃ rs c') :
      Statement (.csr op) c [.csr op rd rs csr] c'
  | csri {op : CsrOp} {c c₁ c₂ c₃ c' : Cursor} {rd : Reg} {imm : BitVec 5} {csr : BitVec 12}
      (hrd : RegComma ctx c rd c₁) (hcsr : IsValue ctx c₁ (csr.setWidth 32) c₂) (hcomma : Has ctx ',' c₂ c₃)
      (hvalue : IsValue ctx c₃ (imm.setWidth 32) c') : Statement (.csri op) c [.csri op rd imm csr] c'

/-! ## The classes -/

section Classes

variable {ctx} {c c' : Cursor} {token w : Word}

theorem or_swap (x y z : Word) : x ||| y ||| z = x ||| z ||| y := by
  rw [BitVec.or_assoc, BitVec.or_comm y, BitVec.or_assoc]

/-- A register and a comma, as they are read. -/
theorem register_comma {α : Type} {f : Word → Reader α} {x : α} :
    (do let r ← register ctx; comma ctx; f r : Reader α) c = (.ok x, c') ↔
      ∃ r c₁, RegComma ctx c r c₁ ∧ f (regWord r) c₁ = (.ok x, c') := by
  rw [Reader.bind_ok]
  constructor
  · rintro ⟨v, c₁, hreg, hrest⟩
    obtain ⟨r, hr, rfl⟩ := register_ok.1 hreg
    obtain ⟨u, c₂, hcomma, hf⟩ := Reader.bind_ok.1 hrest
    exact ⟨r, c₂, ⟨c₁, hr, expect_ok.1 hcomma⟩, hf⟩
  · rintro ⟨r, c₂, ⟨c₁, hr, hcomma⟩, hf⟩
    exact ⟨regWord r, c₁, register_ok.2 ⟨r, hr, rfl⟩, Reader.bind_ok.2 ⟨(), c₂, expect_ok.2 hcomma, hf⟩⟩

theorem uMnemonic_ok (hfinal : ctx.Final) : uMnemonic ctx token c = (.ok w, c') ↔
    ∃ rd imm c₁, RegComma ctx c rd c₁ ∧ IsValue ctx c₁ (upperImm imm) c' ∧ w = uType imm rd (tokenOp token) := by
  rw [uMnemonic, register_comma]
  constructor
  · rintro ⟨rd, c₁, hrd, hrest⟩
    obtain ⟨v, c₂, hvalue, hpure⟩ := Reader.bind_ok.1 hrest
    obtain ⟨rfl, rfl⟩ := Reader.pure_ok.1 hpure
    obtain ⟨hv, hlow⟩ := (checked_ok hfinal).1 hvalue
    have hlow := of_decide_eq_true hlow
    exact ⟨rd, _, c₁, hrd, by rwa [← upperImm_iff.1 hlow], uWord _ _ _ hlow⟩
  · rintro ⟨rd, imm, c₁, hrd, hvalue, rfl⟩
    have hlow := upperImm_and imm
    refine ⟨rd, c₁, hrd, Reader.bind_ok.2 ⟨_, _, (checked_ok hfinal).2 ⟨hvalue, decide_eq_true hlow⟩, ?_⟩⟩
    rw [Reader.pure_ok, uWord _ _ _ hlow, extractLsb'_upperImm]
    exact ⟨rfl, rfl⟩

theorem jMnemonic_ok (hfinal : ctx.Final) : jMnemonic ctx token c = (.ok w, c') ↔ ∃ rd offset c₁,
    (RegComma ctx c rd c₁ ∨ rd = 1 ∧ NoReg ctx c c₁) ∧ IsValue ctx c₁ (ctx.pc + distance offset) c' ∧
      w = jType offset rd (tokenOp token) := by
  have htarget : ∀ {v c₁}, offsetTo ctx 0xFFF00000 c₁ = (.ok v, c') ↔
      ∃ offset : BitVec 20, IsValue ctx c₁ (ctx.pc + distance offset) c' ∧ v = distance offset :=
    offsetTo_ok hfinal (by decide) (by decide)
  have hword : ∀ (rd : Reg) (offset : BitVec 20),
      opField token ||| (regWord rd <<< 7) ||| immJal (distance offset) = jType offset rd (tokenOp token) := by
    intro rd offset
    rw [jWord, extractLsb'_distance (by decide)]
  rw [jMnemonic, Reader.bind_ok]
  constructor
  · rintro ⟨reg, c₁, hreg, hrest⟩
    cases reg with
    | some reg =>
      obtain ⟨rd, hrd, rfl⟩ := getReg_some.1 hreg
      obtain ⟨u, c₂, hcomma, hrest⟩ := Reader.bind_ok.1 hrest
      obtain ⟨v, c₃, hvalue, hpure⟩ := Reader.bind_ok.1 hrest
      obtain ⟨rfl, rfl⟩ := Reader.pure_ok.1 hpure
      obtain ⟨offset, hv, rfl⟩ := htarget.1 hvalue
      exact ⟨rd, offset, c₂, Or.inl ⟨c₁, hrd, expect_ok.1 hcomma⟩, hv, hword rd offset⟩
    | none =>
      obtain ⟨v, c₃, hvalue, hpure⟩ := Reader.bind_ok.1 hrest
      obtain ⟨rfl, rfl⟩ := Reader.pure_ok.1 hpure
      obtain ⟨offset, hv, rfl⟩ := htarget.1 hvalue
      exact ⟨1, offset, c₁, Or.inr ⟨rfl, hreg⟩, hv, hword 1 offset⟩
  · rintro ⟨rd, offset, c₁, hrd | ⟨rfl, hno⟩, hv, rfl⟩
    · obtain ⟨c₂, hreg, hcomma⟩ := hrd
      refine ⟨_, c₂, hreg, Reader.bind_ok.2 ⟨(), c₁, expect_ok.2 hcomma, ?_⟩⟩
      exact Reader.bind_ok.2 ⟨_, c', htarget.2 ⟨offset, hv, rfl⟩, Reader.pure_ok.2 ⟨hword rd offset, rfl⟩⟩
    · refine ⟨none, c₁, hno, ?_⟩
      exact Reader.bind_ok.2 ⟨_, c', htarget.2 ⟨offset, hv, rfl⟩, Reader.pure_ok.2 ⟨hword 1 offset, rfl⟩⟩

theorem bMnemonic_ok (hfinal : ctx.Final) : bMnemonic ctx token c = (.ok w, c') ↔ ∃ a b offset c₁ c₂,
    RegComma ctx c a c₁ ∧ RegComma ctx c₁ b c₂ ∧ IsValue ctx c₂ (ctx.pc + distance offset) c' ∧
      w = if token &&& 0xF0000000 ≠ 0 then bType offset a b (tokenFunct token) (tokenOp token)
        else bType offset b a (tokenFunct token) (tokenOp token) := by
  have htarget : ∀ {v c₁ c'}, offsetTo ctx 0xFFFFF000 c₁ = (.ok v, c') ↔
      ∃ offset : BitVec 12, IsValue ctx c₁ (ctx.pc + distance offset) c' ∧ v = distance offset :=
    offsetTo_ok hfinal (by decide) (by decide)
  have hword : ∀ (a b : Reg) (offset : BitVec 12), opField token ||| functField token ||| (regWord a <<< 15) |||
      (regWord b <<< 20) ||| immBranch (distance offset) = bType offset b a (tokenFunct token) (tokenOp token) := by
    intro a b offset
    rw [bWord, extractLsb'_distance (by decide)]
  have hswapped : ∀ (a b : Reg) (offset : BitVec 12), opField token ||| functField token ||| (regWord a <<< 20) |||
      (regWord b <<< 15) ||| immBranch (distance offset) = bType offset a b (tokenFunct token) (tokenOp token) := by
    intro a b offset
    rw [or_swap _ (regWord a <<< 20)]
    exact hword b a offset
  rw [bMnemonic, register_comma]
  simp only [register_comma]
  constructor
  · rintro ⟨a, c₁, ha, b, c₂, hb, hrest⟩
    obtain ⟨v, c₃, hvalue, hpure⟩ := Reader.bind_ok.1 hrest
    obtain ⟨offset, hv, rfl⟩ := htarget.1 hvalue
    refine ⟨a, b, offset, c₁, c₂, ha, hb, ?_⟩
    by_cases hswap : token &&& 0xF0000000 ≠ 0
    · simp only [if_pos hswap] at hpure ⊢
      obtain ⟨hw, rfl⟩ := Reader.pure_ok.1 hpure
      exact ⟨hv, hw.symm.trans (hswapped a b offset)⟩
    · simp only [if_neg hswap] at hpure ⊢
      obtain ⟨hw, rfl⟩ := Reader.pure_ok.1 hpure
      exact ⟨hv, hw.symm.trans (hword a b offset)⟩
  · rintro ⟨a, b, offset, c₁, c₂, ha, hb, hv, rfl⟩
    refine ⟨a, c₁, ha, b, c₂, hb, Reader.bind_ok.2 ⟨_, c', htarget.2 ⟨offset, hv, rfl⟩, ?_⟩⟩
    split
    · exact Reader.pure_ok.2 ⟨hswapped a b offset, rfl⟩
    · exact Reader.pure_ok.2 ⟨hword a b offset, rfl⟩

/-- The value of an immediate, which is taken off for `SUBI`. -/
def immediate (token v : Word) : Word := if token &&& 0x10000000 ≠ 0 then -v else v

theorem immMnemonic_ok (hfinal : ctx.Final) (hsort : token &&& 0x06000000 ≠ 0x02000000) :
    iMnemonic ctx token c = (.ok w, c') ↔ ∃ rd rs imm v c₁ c₂, RegComma ctx c rd c₁ ∧ RegComma ctx c₁ rs c₂ ∧
      IsValue ctx c₂ v c' ∧ immediate token v = BitVec.signExtend 32 imm ∧
      w = iType imm rs (tokenFunct token) rd (tokenOp token) := by
  rw [iMnemonic, register_comma]
  simp only [register_comma, if_neg hsort]
  constructor
  · rintro ⟨rd, c₁, hrd, rs, c₂, hrs, hrest⟩
    obtain ⟨r, c₃, hvalue, hrest⟩ := Reader.bind_ok.1 hrest
    have hrest : (if signed12 (immediate token r.2) = true then _ else _ : Reader Word) c₃ = _ := hrest
    split at hrest
    · rename_i hfits
      obtain ⟨u, c₄, hsettle, hpure⟩ := Reader.bind_ok.1 hrest
      obtain ⟨hok, rfl⟩ := settle_ok.1 hsettle
      obtain ⟨rfl, rfl⟩ := Reader.pure_ok.1 hpure
      exact ⟨rd, rs, _, r.2, c₁, c₂, hrd, hrs, (expression_ok hfinal).1 (by rw [hvalue, ← hok]),
        signed12_iff.1 hfits, iWord token (immediate token r.2) rd rs⟩
    · exact absurd hrest fail_ok.1
  · rintro ⟨rd, rs, imm, v, c₁, c₂, hrd, hrs, hv, himm, rfl⟩
    refine ⟨rd, c₁, hrd, rs, c₂, hrs, Reader.bind_ok.2 ⟨(evalOkay, v), c', (expression_ok hfinal).2 hv, ?_⟩⟩
    have hback : (immediate token v).setWidth 12 = imm := by rw [himm, setWidth_signExtend]
    show (if signed12 (immediate token v) = true then _ else _ : Reader Word) c' = _
    rw [if_pos (signed12_iff.2 (by rw [hback, himm]))]
    refine Reader.bind_ok.2 ⟨(), c', settle_ok.2 ⟨rfl, rfl⟩, Reader.pure_ok.2 ⟨?_, rfl⟩⟩
    exact (iWord token (immediate token v) rd rs).trans (by rw [hback])

theorem shiftMnemonic_ok (hfinal : ctx.Final) (hsort : token &&& 0x06000000 = 0x02000000) :
    iMnemonic ctx token c = (.ok w, c') ↔ ∃ rd rs shamt v c₁ c₂, RegComma ctx c rd c₁ ∧ RegComma ctx c₁ rs c₂ ∧
      IsValue ctx c₂ v c' ∧ immediate token v = BitVec.setWidth 32 shamt ∧
      w = rType (tokenFuncts token) shamt rs (tokenFunct token) rd (tokenOp token) := by
  have hfits_iff : ∀ {v : Word}, v &&& 0xFFFFFFE0 = 0 ↔ v = (v.setWidth 5).setWidth 32 :=
    and_eq_zero_iff (by decide)
  rw [iMnemonic, register_comma]
  simp only [register_comma, if_pos hsort]
  constructor
  · rintro ⟨rd, c₁, hrd, rs, c₂, hrs, hrest⟩
    obtain ⟨r, c₃, hvalue, hrest⟩ := Reader.bind_ok.1 hrest
    have hrest : (if immediate token r.2 &&& 0xFFFFFFE0 = 0 then _ else _ : Reader Word) c₃ = _ := hrest
    split at hrest
    · rename_i hfits
      obtain ⟨u, c₄, hsettle, hpure⟩ := Reader.bind_ok.1 hrest
      obtain ⟨hok, rfl⟩ := settle_ok.1 hsettle
      obtain ⟨rfl, rfl⟩ := Reader.pure_ok.1 hpure
      exact ⟨rd, rs, _, r.2, c₁, c₂, hrd, hrs, (expression_ok hfinal).1 (by rw [hvalue, ← hok]),
        hfits_iff.1 hfits, shiftWord token (immediate token r.2) rd rs⟩
    · exact absurd hrest fail_ok.1
  · rintro ⟨rd, rs, shamt, v, c₁, c₂, hrd, hrs, hv, himm, rfl⟩
    refine ⟨rd, c₁, hrd, rs, c₂, hrs, Reader.bind_ok.2 ⟨(evalOkay, v), c', (expression_ok hfinal).2 hv, ?_⟩⟩
    have hback : (immediate token v).setWidth 5 = shamt := by
      rw [himm, BitVec.setWidth_setWidth_of_le _ (by decide), BitVec.setWidth_eq]
    show (if immediate token v &&& 0xFFFFFFE0 = 0 then _ else _ : Reader Word) c' = _
    rw [if_pos (hfits_iff.2 (by rw [hback, himm]))]
    refine Reader.bind_ok.2 ⟨(), c', settle_ok.2 ⟨rfl, rfl⟩, Reader.pure_ok.2 ⟨?_, rfl⟩⟩
    exact (shiftWord token (immediate token v) rd rs).trans (by rw [hback])

theorem rMnemonic_ok : rMnemonic ctx token c = (.ok w, c') ↔ ∃ rd rs rt c₁ c₂, RegComma ctx c rd c₁ ∧
    RegComma ctx c₁ rs c₂ ∧ IsReg ctx c₂ rt c' ∧
      w = rType (tokenFuncts token) rt rs (tokenFunct token) rd (tokenOp token) := by
  rw [rMnemonic, register_comma]
  simp only [register_comma]
  constructor
  · rintro ⟨rd, c₁, hrd, rs, c₂, hrs, hrest⟩
    obtain ⟨v, c₃, hreg, hpure⟩ := Reader.bind_ok.1 hrest
    obtain ⟨rt, hrt, rfl⟩ := register_ok.1 hreg
    obtain ⟨rfl, rfl⟩ := Reader.pure_ok.1 hpure
    exact ⟨rd, rs, rt, c₁, c₂, hrd, hrs, hrt, rWord ..⟩
  · rintro ⟨rd, rs, rt, c₁, c₂, hrd, hrs, hrt, rfl⟩
    refine ⟨rd, c₁, hrd, rs, c₂, hrs, Reader.bind_ok.2 ⟨_, c', register_ok.2 ⟨rt, hrt, rfl⟩, ?_⟩⟩
    exact Reader.pure_ok.2 ⟨rWord .., rfl⟩

/-- A value with no more bits than the mask leaves. -/
theorem settled_field_ok (hfinal : ctx.Final) {n : Nat} {mask code v : Word} (hn : n ≤ 32)
    (hmask : ∀ k < 32, mask.getLsbD k = decide (n ≤ k)) :
    settled ctx (fun value => value &&& mask = 0) code c = (.ok v, c') ↔
      ∃ field : BitVec n, IsValue ctx c (field.setWidth 32) c' ∧ v = field.setWidth 32 := by
  rw [settled_ok hfinal, decide_eq_true_iff, and_eq_zero_iff hmask]
  constructor
  · rintro ⟨hv, hfits⟩
    exact ⟨v.setWidth n, by rwa [← hfits], hfits⟩
  · rintro ⟨field, hv, rfl⟩
    exact ⟨hv, by rw [BitVec.setWidth_setWidth_of_le _ hn, BitVec.setWidth_eq]⟩

theorem csrWord_setWidth (d s : Reg) (csr : BitVec 12) : opField token ||| functField token ||| (regWord d <<< 7) |||
    (csr.setWidth 32 <<< 20) ||| (regWord s <<< 15) = iType csr s (tokenFunct token) d (tokenOp token) := by
  rw [csrWord, BitVec.setWidth_setWidth_of_le _ (by decide), BitVec.setWidth_eq]

theorem parseCsr_ok (hfinal : ctx.Final) : parseCsr ctx c = (.ok w, c') ↔
    ∃ csr : BitVec 12, IsValue ctx c (csr.setWidth 32) c' ∧ w = csr.setWidth 32 <<< 20 := by
  have hfield : ∀ {v c₁}, settled ctx (fun value => value &&& 0xFFFFF000 = 0) symOorange c = (.ok v, c₁) ↔
      ∃ csr : BitVec 12, IsValue ctx c (csr.setWidth 32) c₁ ∧ v = csr.setWidth 32 :=
    settled_field_ok hfinal (by decide) (by decide)
  rw [parseCsr, Reader.bind_ok]
  constructor
  · rintro ⟨v, c₁, hv, hpure⟩
    obtain ⟨rfl, rfl⟩ := Reader.pure_ok.1 hpure
    obtain ⟨csr, hcsr, rfl⟩ := hfield.1 hv
    exact ⟨csr, hcsr, rfl⟩
  · rintro ⟨csr, hcsr, rfl⟩
    exact ⟨_, c', hfield.2 ⟨csr, hcsr, rfl⟩, Reader.pure_ok.2 ⟨rfl, rfl⟩⟩

/-- What is written to a CSR: five bits that are a register, or stand for themselves. -/
def IsSource (ctx : Context) (token : Word) (c : Cursor) (s : Reg) (c' : Cursor) : Prop :=
  if token &&& 0x10000000 = 0 then IsReg ctx c s c' else IsValue ctx c (s.setWidth 32) c'

theorem parseCsr2_ok (hfinal : ctx.Final) : parseCsr2 ctx token c = (.ok w, c') ↔
    ∃ s, IsSource ctx token c s c' ∧ w = regWord s <<< 15 := by
  have hfield : ∀ {v c₁}, settled ctx (fun value => value &&& 0xFFFFFFE0 = 0) symOorange c = (.ok v, c₁) ↔
      ∃ s : Reg, IsValue ctx c (s.setWidth 32) c₁ ∧ v = s.setWidth 32 :=
    settled_field_ok hfinal (by decide) (by decide)
  simp only [parseCsr2, IsSource]
  split <;> rw [Reader.bind_ok]
  · constructor
    · rintro ⟨v, c₁, hv, hpure⟩
      obtain ⟨rfl, rfl⟩ := Reader.pure_ok.1 hpure
      obtain ⟨s, hs, rfl⟩ := register_ok.1 hv
      exact ⟨s, hs, rfl⟩
    · rintro ⟨s, hs, rfl⟩
      exact ⟨_, c', register_ok.2 ⟨s, hs, rfl⟩, Reader.pure_ok.2 ⟨rfl, rfl⟩⟩
  · constructor
    · rintro ⟨v, c₁, hv, hpure⟩
      obtain ⟨rfl, rfl⟩ := Reader.pure_ok.1 hpure
      obtain ⟨s, hs, rfl⟩ := hfield.1 hv
      exact ⟨s, hs, rfl⟩
    · rintro ⟨s, hs, rfl⟩
      exact ⟨_, c', hfield.2 ⟨s, hs, rfl⟩, Reader.pure_ok.2 ⟨rfl, rfl⟩⟩

theorem csrMnemonic_ok (hfinal : ctx.Final) : csrMnemonic ctx token c = (.ok w, c') ↔ ∃ rd s csr c₁ c₂ c₃,
    RegComma ctx c rd c₁ ∧ IsValue ctx c₁ (BitVec.setWidth 32 csr) c₂ ∧ Has ctx ',' c₂ c₃ ∧
      IsSource ctx token c₃ s c' ∧ w = iType csr s (tokenFunct token) rd (tokenOp token) := by
  rw [csrMnemonic, register_comma]
  constructor
  · rintro ⟨rd, c₁, hrd, hrest⟩
    obtain ⟨v, c₂, hcsr, hrest⟩ := Reader.bind_ok.1 hrest
    obtain ⟨csr, hv, rfl⟩ := (parseCsr_ok hfinal).1 hcsr
    obtain ⟨u, c₃, hcomma, hrest⟩ := Reader.bind_ok.1 hrest
    obtain ⟨v, c₄, hsrc, hpure⟩ := Reader.bind_ok.1 hrest
    obtain ⟨s, hs, rfl⟩ := (parseCsr2_ok hfinal).1 hsrc
    obtain ⟨rfl, rfl⟩ := Reader.pure_ok.1 hpure
    exact ⟨rd, s, csr, c₁, c₂, c₃, hrd, hv, expect_ok.1 hcomma, hs, csrWord_setWidth ..⟩
  · rintro ⟨rd, s, csr, c₁, c₂, c₃, hrd, hcsr, hcomma, hs, rfl⟩
    refine ⟨rd, c₁, hrd, Reader.bind_ok.2 ⟨_, c₂, (parseCsr_ok hfinal).2 ⟨csr, hcsr, rfl⟩, ?_⟩⟩
    refine Reader.bind_ok.2 ⟨(), c₃, expect_ok.2 hcomma, ?_⟩
    refine Reader.bind_ok.2 ⟨_, c', (parseCsr2_ok hfinal).2 ⟨s, hs, rfl⟩, ?_⟩
    exact Reader.pure_ok.2 ⟨csrWord_setWidth .., rfl⟩

/-! ## Addresses -/

theorem baseRegister_ok : baseRegister ctx c = (.ok w, c') ↔ ∃ s, Base ctx c s c' ∧ w = regWord s := by
  rw [baseRegister, Reader.bind_ok]
  constructor
  · rintro ⟨reg, c₁, hreg, hrest⟩
    cases reg with
    | none => exact absurd hrest failHere_ok.1
    | some reg =>
      obtain ⟨s, hs, rfl⟩ := getReg_some.1 hreg
      obtain ⟨u, c₂, hbracket, hlast⟩ := Reader.bind_ok.1 hrest
      obtain ⟨hw, hc⟩ := Prod.mk.inj hlast
      exact ⟨s, ⟨c₁, c₂, hs, expect_ok.1 hbracket, hc.symm⟩, (Except.ok.inj hw).symm⟩
  · rintro ⟨s, ⟨c₁, c₂, hs, hbracket, rfl⟩, rfl⟩
    exact ⟨_, c₁, hs, Reader.bind_ok.2 ⟨(), c₂, expect_ok.2 hbracket, rfl⟩⟩

/-- `AUIPC` for an offset. -/
def auipcWord (s offset : Word) : Word := (0x00000017 : Word) ||| (s <<< 7) ||| upperPart offset

theorem auipcWord_eq (s : Reg) (offset : Word) :
    auipcWord (regWord s) offset = encode (.auipc s (hi20 offset)) := by
  rw [auipcWord, upperPart_eq]
  refine (uWord 0x00500000 _ s (upperImm_and _)).trans ?_
  rw [extractLsb'_upperImm]
  rfl

/-- The register of a load, out of its word. -/
theorem field_rd (d : Reg) :
    ((opField token ||| functField token ||| (regWord d <<< 7)) >>> 7) &&& 0x1F = regWord d := by
  apply BitVec.eq_of_getLsbD_eq
  intro k hk
  simp only [opField, functField, regWord, BitVec.getLsbD_or, BitVec.getLsbD_and, BitVec.getLsbD_ushiftRight,
    BitVec.getLsbD_shiftLeft, BitVec.getLsbD_setWidth]
  interval_cases k <;> simp

theorem addrMode_ok (hfinal : ctx.Final) {opCode : Word} {a : Address} :
    addrMode ctx token opCode c = (.ok a, c') ↔
      (∃ s imm, Based ctx c s imm c' ∧ a = ⟨none, regWord s, BitVec.signExtend 32 imm⟩) ∨
      (token &&& 0x0FFF0000 ≠ 0x01950000 ∧ ∃ v c₁, Symbol ctx c v c₁ ∧
        if token &&& 0x000F0000 = 0x00040000 then ∃ s c₂, Has ctx ',' c₁ c₂ ∧ IsReg ctx c₂ s c' ∧
          a = ⟨some (auipcWord (regWord s) (v - ctx.pc)), regWord s, v - ctx.pc⟩
        else c₁ = c' ∧ a = ⟨some (auipcWord ((opCode >>> 7) &&& 0x1F) (v - ctx.pc)), (opCode >>> 7) &&& 0x1F,
          v - ctx.pc⟩) := by
  rw [addrMode, Reader.bind_ok]
  constructor
  · rintro ⟨b, c₁, hbracket, hrest⟩
    cases b with
    | true =>
      obtain ⟨reg, c₂, hbase, hpure⟩ := Reader.bind_ok.1 hrest
      obtain ⟨s, hs, rfl⟩ := baseRegister_ok.1 hbase
      obtain ⟨rfl, rfl⟩ := Reader.pure_ok.1 hpure
      exact Or.inl ⟨s, 0, .bare hbracket hs, rfl⟩
    | false =>
      obtain ⟨r, c₂, hvalue, hrest⟩ := Reader.bind_ok.1 hrest
      obtain ⟨u, c₃, hsettle, hrest⟩ := Reader.bind_ok.1 hrest
      obtain ⟨hok, rfl⟩ := settle_ok.1 hsettle
      have hv : IsValue ctx c₁ r.2 c₂ := (expression_ok hfinal).1 (by rw [hvalue, ← hok])
      obtain ⟨b, c₃, hnext, hrest⟩ := Reader.bind_ok.1 hrest
      cases b with
      | true =>
        obtain ⟨reg, c₄, hbase, hlast⟩ := Reader.bind_ok.1 hrest
        obtain ⟨s, hs, rfl⟩ := baseRegister_ok.1 hbase
        by_cases hfits : signed12 r.2 = true
        · rw [if_pos hfits] at hlast
          obtain ⟨rfl, rfl⟩ := Reader.pure_ok.1 hlast
          have himm := signed12_iff.1 hfits
          exact Or.inl ⟨s, r.2.setWidth 12, .offset hbracket (by rwa [← himm]) hnext hs, by rw [← himm]⟩
        · rw [if_neg hfits] at hlast
          exact absurd hlast fail_ok.1
      | false =>
        have hrest : (if token &&& 0x0FFF0000 = 0x01950000 then _ else _ : Reader Address) c₃ = _ := hrest
        by_cases hjalr : token &&& 0x0FFF0000 = 0x01950000
        · rw [if_pos hjalr] at hrest
          exact absurd hrest failHere_ok.1
        · rw [if_neg hjalr] at hrest
          refine Or.inr ⟨hjalr, r.2, c₃, ⟨c₁, c₂, hbracket, hv, hnext⟩, ?_⟩
          by_cases hstore : token &&& 0x000F0000 = 0x00040000
          · rw [if_pos hstore] at hrest ⊢
            obtain ⟨u, c₄, hcomma, hrest⟩ := Reader.bind_ok.1 hrest
            obtain ⟨reg, c₅, hreg, hpure⟩ := Reader.bind_ok.1 hrest
            obtain ⟨s, hs, rfl⟩ := register_ok.1 hreg
            obtain ⟨ha, rfl⟩ := Reader.pure_ok.1 hpure
            exact ⟨s, c₄, expect_ok.1 hcomma, hs, ha.symm⟩
          · rw [if_neg hstore] at hrest ⊢
            obtain ⟨ha, rfl⟩ := Reader.pure_ok.1 hrest
            exact ⟨rfl, ha.symm⟩
  · rintro (⟨s, imm, hbased, rfl⟩ | ⟨hjalr, v, c₁, ⟨c₂, c₃, hbracket, hv, hnext⟩, hlast⟩)
    · cases hbased with
      | bare hbracket hbase =>
        refine ⟨true, _, hbracket, Reader.bind_ok.2 ⟨_, c', baseRegister_ok.2 ⟨s, hbase, rfl⟩, ?_⟩⟩
        exact Reader.pure_ok.2 ⟨rfl, rfl⟩
      | offset hno hv hbracket hbase =>
        refine ⟨false, _, hno, Reader.bind_ok.2 ⟨_, _, (expression_ok hfinal).2 hv, ?_⟩⟩
        refine Reader.bind_ok.2 ⟨(), _, settle_ok.2 ⟨rfl, rfl⟩, ?_⟩
        refine Reader.bind_ok.2 ⟨true, _, hbracket, Reader.bind_ok.2 ⟨_, c', baseRegister_ok.2 ⟨s, hbase, rfl⟩, ?_⟩⟩
        rw [if_pos (signed12_iff.2 (by rw [setWidth_signExtend]))]
        exact Reader.pure_ok.2 ⟨rfl, rfl⟩
    · refine ⟨false, c₂, hbracket, Reader.bind_ok.2 ⟨_, c₃, (expression_ok hfinal).2 hv, ?_⟩⟩
      refine Reader.bind_ok.2 ⟨(), _, settle_ok.2 ⟨rfl, rfl⟩, Reader.bind_ok.2 ⟨false, c₁, hnext, ?_⟩⟩
      show (if token &&& 0x0FFF0000 = 0x01950000 then _ else _ : Reader Address) c₁ = _
      rw [if_neg hjalr]
      by_cases hstore : token &&& 0x000F0000 = 0x00040000
      · rw [if_pos hstore] at hlast ⊢
        obtain ⟨s, c₄, hcomma, hs, rfl⟩ := hlast
        refine Reader.bind_ok.2 ⟨(), c₄, expect_ok.2 hcomma, ?_⟩
        exact Reader.bind_ok.2 ⟨_, c', register_ok.2 ⟨s, hs, rfl⟩, Reader.pure_ok.2 ⟨rfl, rfl⟩⟩
      · rw [if_neg hstore] at hlast ⊢
        obtain ⟨rfl, rfl⟩ := hlast
        exact Reader.pure_ok.2 ⟨rfl, rfl⟩

theorem sMnemonic_ok (hfinal : ctx.Final) (hsort : token &&& 0x000F0000 = 0x00040000)
    (hjalr : token &&& 0x0FFF0000 ≠ 0x01950000) {ws : List Word} : sMnemonic ctx token c = (.ok ws, c') ↔
      (∃ rt rs imm c₁, RegComma ctx c rt c₁ ∧ Based ctx c₁ rs imm c' ∧
        ws = [sType imm rt rs (tokenFunct token) (tokenOp token)]) ∨
      (∃ rt rs v c₁ c₂ c₃, RegComma ctx c rt c₁ ∧ Symbol ctx c₁ v c₂ ∧ Has ctx ',' c₂ c₃ ∧ IsReg ctx c₃ rs c' ∧
        ws = [encode (.auipc rs (hi20 (v - ctx.pc))),
          sType (lo12 (v - ctx.pc)) rt rs (tokenFunct token) (tokenOp token)]) := by
  rw [sMnemonic, register_comma]
  constructor
  · rintro ⟨rt, c₁, hrt, hrest⟩
    obtain ⟨a, c₂, haddr, hpure⟩ := Reader.bind_ok.1 hrest
    obtain ⟨hw, rfl⟩ := Reader.pure_ok.1 hpure
    rcases (addrMode_ok hfinal).1 haddr with ⟨rs, imm, hbased, rfl⟩ | ⟨-, v, c₃, hsymbol, hlast⟩
    · refine Or.inl ⟨rt, rs, imm, c₁, hrt, hbased, hw.symm.trans (congrArg (List.cons · []) ?_)⟩
      exact (sWord token (imm.signExtend 32) rs rt).trans (by rw [setWidth_signExtend])
    · rw [if_pos hsort] at hlast
      obtain ⟨rs, c₄, hcomma, hrs, rfl⟩ := hlast
      refine Or.inr ⟨rt, rs, v, c₁, c₃, c₄, hrt, hsymbol, hcomma, hrs, hw.symm.trans ?_⟩
      exact congrArg₂ (fun w w' => [w, w']) (auipcWord_eq rs _) (sWord token (v - ctx.pc) rs rt)
  · rintro (⟨rt, rs, imm, c₁, hrt, hbased, rfl⟩ | ⟨rt, rs, v, c₁, c₂, c₃, hrt, hsymbol, hcomma, hrs, rfl⟩)
    · refine ⟨rt, c₁, hrt, Reader.bind_ok.2 ⟨_, c', (addrMode_ok hfinal).2 (Or.inl ⟨rs, imm, hbased, rfl⟩), ?_⟩⟩
      refine Reader.pure_ok.2 ⟨congrArg (List.cons · []) ?_, rfl⟩
      exact (sWord token (imm.signExtend 32) rs rt).trans (by rw [setWidth_signExtend])
    · refine ⟨rt, c₁, hrt, Reader.bind_ok.2 ⟨⟨some (auipcWord (regWord rs) (v - ctx.pc)), regWord rs, v - ctx.pc⟩, c',
        (addrMode_ok hfinal).2 (Or.inr ⟨hjalr, v, c₂, hsymbol, ?_⟩), ?_⟩⟩
      · rw [if_pos hsort]
        exact ⟨rs, c₃, hcomma, hrs, rfl⟩
      · refine Reader.pure_ok.2 ⟨?_, rfl⟩
        exact congrArg₂ (fun w w' => [w, w']) (auipcWord_eq rs _) (sWord token (v - ctx.pc) rs rt)

theorem loadMnemonic_ok (hfinal : ctx.Final) (hsort : token &&& 0x000F0000 ≠ 0x00040000) {ws : List Word} :
    loadMnemonic ctx token c = (.ok ws, c') ↔
      (∃ rd rs imm c₁, RegComma ctx c rd c₁ ∧ Based ctx c₁ rs imm c' ∧
        ws = [iType imm rs (tokenFunct token) rd (tokenOp token)]) ∨
      (token &&& 0x0FFF0000 ≠ 0x01950000 ∧ ∃ rd v c₁, RegComma ctx c rd c₁ ∧ Symbol ctx c₁ v c' ∧
        ws = [encode (.auipc rd (hi20 (v - ctx.pc))),
          iType (lo12 (v - ctx.pc)) rd (tokenFunct token) rd (tokenOp token)]) ∨
      (token &&& 0x0FF00000 = 0x01900000 ∧ ∃ rs c₁, IsReg ctx c rs c₁ ∧ HasNot ctx ',' c₁ c' ∧
        ws = [opField token ||| functField token ||| (regWord rs <<< 15) ||| 0x080]) := by
  rw [loadMnemonic, Reader.bind_ok]
  constructor
  · rintro ⟨reg, c₁, hreg, hrest⟩
    obtain ⟨rd, hrd, rfl⟩ := register_ok.1 hreg
    obtain ⟨b, c₂, hcomma, hrest⟩ := Reader.bind_ok.1 hrest
    cases b with
    | true =>
      have hrd : RegComma ctx c rd c₂ := ⟨c₁, hrd, hcomma⟩
      obtain ⟨a, c₃, haddr, hpure⟩ := Reader.bind_ok.1 hrest
      obtain ⟨hw, rfl⟩ := Reader.pure_ok.1 hpure
      rcases (addrMode_ok hfinal).1 haddr with ⟨rs, imm, hbased, rfl⟩ | ⟨hjalr, v, c₃, hsymbol, hlast⟩
      · refine Or.inl ⟨rd, rs, imm, c₂, hrd, hbased, hw.symm.trans (congrArg (List.cons · []) ?_)⟩
        exact (loadWord token (imm.signExtend 32) rd rs).trans (by rw [setWidth_signExtend])
      · rw [if_neg hsort, field_rd] at hlast
        obtain ⟨rfl, rfl⟩ := hlast
        refine Or.inr (Or.inl ⟨hjalr, rd, v, c₂, hrd, hsymbol, hw.symm.trans ?_⟩)
        exact congrArg₂ (fun w w' => [w, w']) (auipcWord_eq rd _) (loadWord token (v - ctx.pc) rd rd)
    | false =>
      have hrest : (if token &&& 0x0FF00000 = 0x01900000 then _ else _ : Reader (List Word)) c₂ = _ := hrest
      by_cases hlink : token &&& 0x0FF00000 = 0x01900000
      · rw [if_pos hlink] at hrest
        obtain ⟨hw, rfl⟩ := Reader.pure_ok.1 hrest
        exact Or.inr (Or.inr ⟨hlink, rd, c₁, hrd, hcomma, hw.symm⟩)
      · rw [if_neg hlink] at hrest
        exact absurd hrest failHere_ok.1
  · rintro (⟨rd, rs, imm, c₂, ⟨c₁, hrd, hcomma⟩, hbased, rfl⟩ |
      ⟨hjalr, rd, v, c₂, ⟨c₁, hrd, hcomma⟩, hsymbol, rfl⟩ | ⟨hlink, rs, c₁, hrs, hno, rfl⟩)
    · refine ⟨_, c₁, register_ok.2 ⟨rd, hrd, rfl⟩, Reader.bind_ok.2 ⟨true, c₂, hcomma, ?_⟩⟩
      refine Reader.bind_ok.2 ⟨_, c', (addrMode_ok hfinal).2 (Or.inl ⟨rs, imm, hbased, rfl⟩), ?_⟩
      refine Reader.pure_ok.2 ⟨congrArg (List.cons · []) ?_, rfl⟩
      exact (loadWord token (imm.signExtend 32) rd rs).trans (by rw [setWidth_signExtend])
    · refine ⟨_, c₁, register_ok.2 ⟨rd, hrd, rfl⟩, Reader.bind_ok.2 ⟨true, c₂, hcomma, ?_⟩⟩
      refine Reader.bind_ok.2 ⟨⟨some (auipcWord (regWord rd) (v - ctx.pc)), regWord rd, v - ctx.pc⟩, c',
        (addrMode_ok hfinal).2 (Or.inr ⟨hjalr, v, c', hsymbol, ?_⟩), ?_⟩
      · rw [if_neg hsort, field_rd]
        exact ⟨rfl, rfl⟩
      · refine Reader.pure_ok.2 ⟨?_, rfl⟩
        exact congrArg₂ (fun w w' => [w, w']) (auipcWord_eq rd _) (loadWord token (v - ctx.pc) rd rd)
    · refine ⟨_, c₁, register_ok.2 ⟨rs, hrs, rfl⟩, Reader.bind_ok.2 ⟨false, c', hno, ?_⟩⟩
      show (if token &&& 0x0FF00000 = 0x01900000 then _ else _ : Reader (List Word)) c' = _
      rw [if_pos hlink]
      exact Reader.pure_ok.2 ⟨rfl, rfl⟩

end Classes

/-! ## Tokens -/

/-- The token that an instruction has. -/
def tokenOf (m : Mnemonic) : Word := (baseMnemonics.lookup m.name).getD 0

theorem lookup_mnemonic (m : Mnemonic) : baseMnemonics.lookup m.name = some (tokenOf m) := by
  cases m with
  | lui | auipc | jal | jalr => rfl
  | branch op | load op | store op | imm op | shift op | reg op | csr op | csri op => cases op <;> rfl

/-- It is what the table has for the name. -/
theorem value_tokenOf (m : Mnemonic) : rv32iMnemonicTable.value? m.name.toList = some (tokenOf m) := by
  obtain ⟨l, l', heq, -⟩ := List.lookup_eq_some_iff.1 (lookup_mnemonic m)
  have hmem : (m.name, tokenOf m) ∈ baseMnemonics := heq ▸ List.mem_append_right l (List.mem_cons_self ..)
  exact value_mnemonic (s := (m.name, tokenOf m)) (List.mem_append_left pseudoMnemonics hmem)

theorem tokenOf_upper : (tokenOf .lui &&& 0x000F0000 = 0 ∧ tokenOp (tokenOf .lui) = 0x37) ∧
    tokenOf .auipc &&& 0x000F0000 = 0 ∧ tokenOp (tokenOf .auipc) = 0x17 :=
  ⟨⟨rfl, rfl⟩, rfl, rfl⟩

theorem tokenOf_jump : (tokenOf .jal &&& 0x000F0000 = 0x00010000 ∧ tokenOp (tokenOf .jal) = 0x6f) ∧
    tokenOf .jalr = 0x01950000 :=
  ⟨⟨rfl, rfl⟩, rfl⟩

theorem tokenOf_branch (op : Cond) : tokenOf (.branch op) &&& 0x000F0000 = 0x00030000 ∧
    tokenOp (tokenOf (.branch op)) = 0x63 ∧ tokenFunct (tokenOf (.branch op)) = op.funct3 ∧
      tokenOf (.branch op) &&& 0xF0000000 = 0 := by
  cases op <;> exact ⟨rfl, rfl, rfl, rfl⟩

theorem tokenOf_load (op : LoadOp) : tokenOf (.load op) &&& 0x000F0000 = 0x00050000 ∧
    tokenOp (tokenOf (.load op)) = 0x03 ∧ tokenFunct (tokenOf (.load op)) = op.funct3 ∧
      tokenOf (.load op) &&& 0x0FF00000 ≠ 0x01900000 ∧ tokenOf (.load op) &&& 0x0FFF0000 ≠ 0x01950000 := by
  cases op <;> exact ⟨rfl, rfl, rfl, by decide, by decide⟩

theorem tokenOf_store (op : StoreOp) : tokenOf (.store op) &&& 0x000F0000 = 0x00040000 ∧
    tokenOp (tokenOf (.store op)) = 0x23 ∧ tokenFunct (tokenOf (.store op)) = op.funct3 ∧
      tokenOf (.store op) &&& 0x0FFF0000 ≠ 0x01950000 := by
  cases op <;> exact ⟨rfl, rfl, rfl, by decide⟩

theorem tokenOf_imm (op : ImmOp) : tokenOf (.imm op) &&& 0x000F0000 = 0x00020000 ∧
    tokenOp (tokenOf (.imm op)) = 0x13 ∧ tokenFunct (tokenOf (.imm op)) = op.funct3 ∧
      tokenOf (.imm op) &&& 0x06000000 ≠ 0x02000000 ∧ tokenOf (.imm op) &&& 0x10000000 = 0 := by
  cases op <;> exact ⟨rfl, rfl, rfl, by decide, rfl⟩

theorem tokenOf_shift (op : ShiftOp) : tokenOf (.shift op) &&& 0x000F0000 = 0x00020000 ∧
    tokenOp (tokenOf (.shift op)) = 0x13 ∧
      (tokenFuncts (tokenOf (.shift op)), tokenFunct (tokenOf (.shift op))) = op.functs ∧
      tokenOf (.shift op) &&& 0x06000000 = 0x02000000 ∧ tokenOf (.shift op) &&& 0x10000000 = 0 := by
  cases op <;> exact ⟨rfl, rfl, rfl, rfl, rfl⟩

theorem tokenOf_reg (op : RegOp) : tokenOf (.reg op) &&& 0x000F0000 = 0x00060000 ∧
    tokenOp (tokenOf (.reg op)) = 0x33 ∧
      (tokenFuncts (tokenOf (.reg op)), tokenFunct (tokenOf (.reg op))) = op.functs := by
  cases op <;> exact ⟨rfl, rfl, rfl⟩

theorem tokenOf_csr (op : CsrOp) : tokenOf (.csr op) &&& 0x000F0000 = 0x000A0000 ∧
    tokenOp (tokenOf (.csr op)) = 0x73 ∧ tokenFunct (tokenOf (.csr op)) = op.funct3 ∧
      tokenOf (.csr op) &&& 0x10000000 = 0 := by
  cases op <;> exact ⟨rfl, rfl, rfl, rfl⟩

theorem tokenOf_csri (op : CsrOp) : tokenOf (.csri op) &&& 0x000F0000 = 0x000A0000 ∧
    tokenOp (tokenOf (.csri op)) = 0x73 ∧ tokenFunct (tokenOf (.csri op)) = op.funct3 + 4 ∧
      tokenOf (.csri op) &&& 0x10000000 ≠ 0 := by
  cases op <;> exact ⟨rfl, rfl, rfl, by decide⟩

/-! ## All of them -/

/-- A word for which there is just one. -/
theorem one_ok {r : Reader Word} {c c' : Cursor} {ws : List Word} :
    (do return [← r] : Reader (List Word)) c = (.ok ws, c') ↔ ∃ w, r c = (.ok w, c') ∧ ws = [w] := by
  rw [Reader.bind_ok]
  constructor
  · rintro ⟨w, c₁, hw, hpure⟩
    obtain ⟨rfl, rfl⟩ := Reader.pure_ok.1 hpure
    exact ⟨w, hw, rfl⟩
  · rintro ⟨w, hw, rfl⟩
    exact ⟨w, c', hw, Reader.pure_ok.2 ⟨rfl, rfl⟩⟩

/-- `c'` is behind a line that states instructions which are these words. -/
def States (m : Mnemonic) (c : Cursor) (ws : List Word) (c' : Cursor) : Prop :=
  ∃ is, Statement ctx m c is c' ∧ ws = is.map encode

section All

variable {ctx} {c c' : Cursor} {allocate : Nat → Nat} {ws : List Word}

theorem add_sub_pc (d : Word) : ctx.pc + d - ctx.pc = d := by rw [BitVec.add_comm, BitVec.add_sub_cancel]

/-- The offset to a symbol is in the two immediates, in one way only. -/
theorem pc_add_iff {hi : BitVec 20} {lo : BitVec 12} {v : Word} :
    ctx.pc + (upperImm hi + lo.signExtend 32) = v ↔ hi = hi20 (v - ctx.pc) ∧ lo = lo12 (v - ctx.pc) := by
  rw [← upperImm_add_iff, BitVec.add_comm, BitVec.eq_sub_iff_add_eq]

theorem upper_iff (hfinal : ctx.Final) {token : Word} (hsort : token &&& 0x000F0000 = 0) :
    rv32iMnemonic ctx allocate token c = (.ok ws, c') ↔ ∃ rd imm c₁, RegComma ctx c rd c₁ ∧
      IsValue ctx c₁ (upperImm imm) c' ∧ ws = [uType imm rd (tokenOp token)] := by
  rw [rv32iMnemonic, if_pos hsort, one_ok]
  simp only [uMnemonic_ok hfinal]
  constructor
  · rintro ⟨w, ⟨rd, imm, c₁, hrd, hv, rfl⟩, rfl⟩
    exact ⟨rd, imm, c₁, hrd, hv, rfl⟩
  · rintro ⟨rd, imm, c₁, hrd, hv, rfl⟩
    exact ⟨_, ⟨rd, imm, c₁, hrd, hv, rfl⟩, rfl⟩

theorem lui_iff (hfinal : ctx.Final) : rv32iMnemonic ctx allocate (tokenOf .lui) c = (.ok ws, c') ↔
    States ctx .lui c ws c' := by
  rw [upper_iff hfinal tokenOf_upper.1.1, tokenOf_upper.1.2]
  constructor
  · rintro ⟨rd, imm, c₁, hrd, hv, rfl⟩
    exact ⟨_, .lui hrd hv, rfl⟩
  · rintro ⟨_, hst, rfl⟩
    cases hst with
    | lui hrd hv => exact ⟨_, _, _, hrd, hv, rfl⟩

theorem auipc_iff (hfinal : ctx.Final) : rv32iMnemonic ctx allocate (tokenOf .auipc) c = (.ok ws, c') ↔
    States ctx .auipc c ws c' := by
  rw [upper_iff hfinal tokenOf_upper.2.1, tokenOf_upper.2.2]
  constructor
  · rintro ⟨rd, imm, c₁, hrd, hv, rfl⟩
    exact ⟨_, .auipc hrd hv, rfl⟩
  · rintro ⟨_, hst, rfl⟩
    cases hst with
    | auipc hrd hv => exact ⟨_, _, _, hrd, hv, rfl⟩

theorem jal_iff (hfinal : ctx.Final) : rv32iMnemonic ctx allocate (tokenOf .jal) c = (.ok ws, c') ↔
    States ctx .jal c ws c' := by
  obtain ⟨⟨hsort, hop⟩, -⟩ := tokenOf_jump
  rw [rv32iMnemonic, if_neg (by rw [hsort]; decide), if_pos hsort, one_ok]
  constructor
  · rintro ⟨w, hw, rfl⟩
    obtain ⟨rd, offset, c₁, hrd | ⟨rfl, hno⟩, hv, rfl⟩ := (jMnemonic_ok hfinal).1 hw
    · exact ⟨_, .jal hrd hv, by rw [hop]; rfl⟩
    · exact ⟨_, .jalLink hno hv, by rw [hop]; rfl⟩
  · rintro ⟨_, hst, rfl⟩
    cases hst with
    | jal hrd hv => exact ⟨_, (jMnemonic_ok hfinal).2 ⟨_, _, _, Or.inl hrd, hv, rfl⟩, by rw [hop]; rfl⟩
    | jalLink hno hv => exact ⟨_, (jMnemonic_ok hfinal).2 ⟨_, _, _, Or.inr ⟨rfl, hno⟩, hv, rfl⟩, by rw [hop]; rfl⟩

theorem jalr_iff (hfinal : ctx.Final) : rv32iMnemonic ctx allocate (tokenOf .jalr) c = (.ok ws, c') ↔
    States ctx .jalr c ws c' := by
  rw [tokenOf_jump.2]
  show loadMnemonic ctx 0x01950000 c = (.ok ws, c') ↔ _
  rw [loadMnemonic_ok hfinal (by decide)]
  have hlink : ∀ rs : Reg, opField 0x01950000 ||| functField 0x01950000 ||| (regWord rs <<< 15) ||| 0x080 =
      encode (.jalr 1 rs 0) := by
    intro rs
    rw [or_swap _ (regWord rs <<< 15), ← BitVec.or_zero (x := _ ||| regWord rs <<< 15)]
    exact iWord 0x01950000 0 1 rs
  constructor
  · rintro (⟨rd, rs, imm, c₁, hrd, haddr, rfl⟩ | ⟨hjalr, -⟩ | ⟨-, rs, c₁, hrs, hno, rfl⟩)
    · exact ⟨_, .jalr hrd haddr, rfl⟩
    · exact absurd rfl hjalr
    · exact ⟨_, .jalrLink hrs hno, by rw [hlink]; rfl⟩
  · rintro ⟨_, hst, rfl⟩
    cases hst with
    | jalr hrd haddr => exact Or.inl ⟨_, _, _, _, hrd, haddr, rfl⟩
    | jalrLink hrs hno => exact Or.inr (Or.inr ⟨rfl, _, _, hrs, hno, by rw [hlink]; rfl⟩)

theorem branch_iff (hfinal : ctx.Final) (op : Cond) :
    rv32iMnemonic ctx allocate (tokenOf (.branch op)) c = (.ok ws, c') ↔ States ctx (.branch op) c ws c' := by
  obtain ⟨hsort, hop, hfunct, hplain⟩ := tokenOf_branch op
  have hdispatch : rv32iMnemonic ctx allocate (tokenOf (.branch op)) =
      (do return [← bMnemonic ctx (tokenOf (.branch op))]) := by
    simp only [rv32iMnemonic, hsort]
    rfl
  rw [hdispatch, one_ok]
  simp only [bMnemonic_ok hfinal, hop, hfunct, hplain]
  constructor
  · rintro ⟨w, ⟨rs, rt, offset, c₁, c₂, hrs, hrt, hv, rfl⟩, rfl⟩
    exact ⟨_, .branch hrs hrt hv, rfl⟩
  · rintro ⟨_, hst, rfl⟩
    cases hst with
    | branch hrs hrt hv => exact ⟨_, ⟨_, _, _, _, _, hrs, hrt, hv, rfl⟩, rfl⟩

theorem load_iff (hfinal : ctx.Final) (op : LoadOp) :
    rv32iMnemonic ctx allocate (tokenOf (.load op)) c = (.ok ws, c') ↔ States ctx (.load op) c ws c' := by
  obtain ⟨hsort, hop, hfunct, hlink, hjalr⟩ := tokenOf_load op
  have hdispatch : rv32iMnemonic ctx allocate (tokenOf (.load op)) = loadMnemonic ctx (tokenOf (.load op)) := by
    simp only [rv32iMnemonic, hsort]
    rfl
  rw [hdispatch, loadMnemonic_ok hfinal (by rw [hsort]; decide), hop, hfunct]
  constructor
  · rintro (⟨rd, rs, imm, c₁, hrd, haddr, rfl⟩ | ⟨-, rd, v, c₁, hrd, haddr, rfl⟩ | ⟨hlink', -⟩)
    · exact ⟨_, .load hrd haddr, rfl⟩
    · exact ⟨_, .loadSymbol hrd (by rwa [pc_add_iff.2 ⟨rfl, rfl⟩]), rfl⟩
    · exact absurd hlink' hlink
  · rintro ⟨_, hst, rfl⟩
    cases hst with
    | load hrd haddr => exact Or.inl ⟨_, _, _, _, hrd, haddr, rfl⟩
    | loadSymbol hrd haddr =>
      refine Or.inr (Or.inl ⟨hjalr, _, _, _, hrd, haddr, ?_⟩)
      obtain ⟨hhi, hlo⟩ := pc_add_iff.1 rfl
      rw [← hhi, ← hlo]
      rfl

theorem store_iff (hfinal : ctx.Final) (op : StoreOp) :
    rv32iMnemonic ctx allocate (tokenOf (.store op)) c = (.ok ws, c') ↔ States ctx (.store op) c ws c' := by
  obtain ⟨hsort, hop, hfunct, hjalr⟩ := tokenOf_store op
  have hdispatch : rv32iMnemonic ctx allocate (tokenOf (.store op)) = sMnemonic ctx (tokenOf (.store op)) := by
    simp only [rv32iMnemonic, hsort]
    rfl
  rw [hdispatch, sMnemonic_ok hfinal hsort hjalr, hop, hfunct]
  constructor
  · rintro (⟨rt, rs, imm, c₁, hrt, haddr, rfl⟩ | ⟨rt, rs, v, c₁, c₂, c₃, hrt, haddr, hcomma, hrs, rfl⟩)
    · exact ⟨_, .store hrt haddr, rfl⟩
    · exact ⟨_, .storeSymbol hrt (by rwa [pc_add_iff.2 ⟨rfl, rfl⟩]) hcomma hrs, rfl⟩
  · rintro ⟨_, hst, rfl⟩
    cases hst with
    | store hrt haddr => exact Or.inl ⟨_, _, _, _, hrt, haddr, rfl⟩
    | storeSymbol hrt haddr hcomma hrs =>
      refine Or.inr ⟨_, _, _, _, _, _, hrt, haddr, hcomma, hrs, ?_⟩
      obtain ⟨hhi, hlo⟩ := pc_add_iff.1 rfl
      rw [← hhi, ← hlo]
      rfl

theorem imm_iff (hfinal : ctx.Final) (op : ImmOp) :
    rv32iMnemonic ctx allocate (tokenOf (.imm op)) c = (.ok ws, c') ↔ States ctx (.imm op) c ws c' := by
  obtain ⟨hsort, hop, hfunct, hshift, hplain⟩ := tokenOf_imm op
  have hdispatch : rv32iMnemonic ctx allocate (tokenOf (.imm op)) =
      (do return [← iMnemonic ctx (tokenOf (.imm op))]) := by
    simp only [rv32iMnemonic, hsort]
    rfl
  have himm : ∀ v, immediate (tokenOf (.imm op)) v = v := fun v => if_neg (not_not.2 hplain)
  rw [hdispatch, one_ok]
  simp only [immMnemonic_ok hfinal hshift, hop, hfunct, himm]
  constructor
  · rintro ⟨w, ⟨rd, rs, imm, v, c₁, c₂, hrd, hrs, hv, rfl, rfl⟩, rfl⟩
    exact ⟨_, .imm hrd hrs hv, rfl⟩
  · rintro ⟨_, hst, rfl⟩
    cases hst with
    | imm hrd hrs hv => exact ⟨_, ⟨_, _, _, _, _, _, hrd, hrs, hv, rfl, rfl⟩, rfl⟩

theorem shift_iff (hfinal : ctx.Final) (op : ShiftOp) :
    rv32iMnemonic ctx allocate (tokenOf (.shift op)) c = (.ok ws, c') ↔ States ctx (.shift op) c ws c' := by
  obtain ⟨hsort, hop, hfuncts, hshift, hplain⟩ := tokenOf_shift op
  obtain ⟨hhigh, hlow⟩ := Prod.mk.inj hfuncts
  have hdispatch : rv32iMnemonic ctx allocate (tokenOf (.shift op)) =
      (do return [← iMnemonic ctx (tokenOf (.shift op))]) := by
    simp only [rv32iMnemonic, hsort]
    rfl
  have himm : ∀ v, immediate (tokenOf (.shift op)) v = v := fun v => if_neg (not_not.2 hplain)
  rw [hdispatch, one_ok]
  simp only [shiftMnemonic_ok hfinal hshift, hop, hhigh, hlow, himm]
  constructor
  · rintro ⟨w, ⟨rd, rs, shamt, v, c₁, c₂, hrd, hrs, hv, rfl, rfl⟩, rfl⟩
    exact ⟨_, .shift hrd hrs hv, rfl⟩
  · rintro ⟨_, hst, rfl⟩
    cases hst with
    | shift hrd hrs hv => exact ⟨_, ⟨_, _, _, _, _, _, hrd, hrs, hv, rfl, rfl⟩, rfl⟩

theorem reg_iff (op : RegOp) :
    rv32iMnemonic ctx allocate (tokenOf (.reg op)) c = (.ok ws, c') ↔ States ctx (.reg op) c ws c' := by
  obtain ⟨hsort, hop, hfuncts⟩ := tokenOf_reg op
  obtain ⟨hhigh, hlow⟩ := Prod.mk.inj hfuncts
  have hdispatch : rv32iMnemonic ctx allocate (tokenOf (.reg op)) =
      (do return [← rMnemonic ctx (tokenOf (.reg op))]) := by
    simp only [rv32iMnemonic, hsort]
    rfl
  rw [hdispatch, one_ok]
  simp only [rMnemonic_ok, hop, hhigh, hlow]
  constructor
  · rintro ⟨w, ⟨rd, rs, rt, c₁, c₂, hrd, hrs, hrt, rfl⟩, rfl⟩
    exact ⟨_, .reg hrd hrs hrt, rfl⟩
  · rintro ⟨_, hst, rfl⟩
    cases hst with
    | reg hrd hrs hrt => exact ⟨_, ⟨_, _, _, _, _, hrd, hrs, hrt, rfl⟩, rfl⟩

theorem csr_iff (hfinal : ctx.Final) (op : CsrOp) :
    rv32iMnemonic ctx allocate (tokenOf (.csr op)) c = (.ok ws, c') ↔ States ctx (.csr op) c ws c' := by
  obtain ⟨hsort, hop, hfunct, hplain⟩ := tokenOf_csr op
  have hdispatch : rv32iMnemonic ctx allocate (tokenOf (.csr op)) =
      (do return [← csrMnemonic ctx (tokenOf (.csr op))]) := by
    simp only [rv32iMnemonic, hsort]
    rfl
  rw [hdispatch, one_ok]
  simp only [csrMnemonic_ok hfinal, hop, hfunct, IsSource, if_pos hplain]
  constructor
  · rintro ⟨w, ⟨rd, rs, csr, c₁, c₂, c₃, hrd, hcsr, hcomma, hrs, rfl⟩, rfl⟩
    exact ⟨_, .csr hrd hcsr hcomma hrs, rfl⟩
  · rintro ⟨_, hst, rfl⟩
    cases hst with
    | csr hrd hcsr hcomma hrs => exact ⟨_, ⟨_, _, _, _, _, _, hrd, hcsr, hcomma, hrs, rfl⟩, rfl⟩

theorem csri_iff (hfinal : ctx.Final) (op : CsrOp) :
    rv32iMnemonic ctx allocate (tokenOf (.csri op)) c = (.ok ws, c') ↔ States ctx (.csri op) c ws c' := by
  obtain ⟨hsort, hop, hfunct, himm⟩ := tokenOf_csri op
  have hdispatch : rv32iMnemonic ctx allocate (tokenOf (.csri op)) =
      (do return [← csrMnemonic ctx (tokenOf (.csri op))]) := by
    simp only [rv32iMnemonic, hsort]
    rfl
  rw [hdispatch, one_ok]
  simp only [csrMnemonic_ok hfinal, hop, hfunct, IsSource, if_neg himm]
  constructor
  · rintro ⟨w, ⟨rd, imm, csr, c₁, c₂, c₃, hrd, hcsr, hcomma, hv, rfl⟩, rfl⟩
    exact ⟨_, .csri hrd hcsr hcomma hv, rfl⟩
  · rintro ⟨_, hst, rfl⟩
    cases hst with
    | csri hrd hcsr hcomma hv => exact ⟨_, ⟨_, _, _, _, _, _, hrd, hcsr, hcomma, hv, rfl⟩, rfl⟩

end All

/-- **An instruction is assembled to what it states.**  On the last pass there are words for a line just if
it is a statement of its instruction, and they are the encodings of what is stated. -/
theorem rv32iMnemonic_iff {ctx : Context} {c c' : Cursor} {allocate : Nat → Nat} {ws : List Word}
    (hfinal : ctx.Final) (m : Mnemonic) {token : Word}
    (htoken : rv32iMnemonicTable.value? m.name.toList = some token) :
    rv32iMnemonic ctx allocate token c = (.ok ws, c') ↔ ∃ is, Statement ctx m c is c' ∧ ws = is.map encode := by
  obtain rfl : tokenOf m = token := Option.some.inj ((value_tokenOf m).symm.trans htoken)
  cases m with
  | lui => exact lui_iff hfinal
  | auipc => exact auipc_iff hfinal
  | jal => exact jal_iff hfinal
  | jalr => exact jalr_iff hfinal
  | branch op => exact branch_iff hfinal op
  | load op => exact load_iff hfinal op
  | store op => exact store_iff hfinal op
  | imm op => exact imm_iff hfinal op
  | shift op => exact shift_iff hfinal op
  | reg op => exact reg_iff op
  | csr op => exact csr_iff hfinal op
  | csri op => exact csri_iff hfinal op

/-- A line of the output, with no symbols. -/
def lineOnly (line : Line) : Context where
  env := emptyEnv
  registers := registerTable
  line := line
  firstPass := false
  lastPass := true

theorem rv32iMnemonic_lw : ∃ is, Statement (lineOnly "ra, 8[sp] ".toList) (.load .lw) ⟨0, 0, false⟩ is ⟨10, 0, false⟩ ∧
    [0x00812083] = is.map encode :=
  (rv32iMnemonic_iff ⟨rfl, rfl⟩ (.load .lw) (value_tokenOf (.load .lw))).1
    (show rv32iMnemonic (lineOnly "ra, 8[sp] ".toList) id _ _ = _ by decide +kernel)

end RiscyOS.Rva
