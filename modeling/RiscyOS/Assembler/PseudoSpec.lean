import RiscyOS.Assembler.Statements

/-!
# Pseudo-instructions of one word

Names that the assembler has for instructions of the machine, written another way.  `Expansion` says which
instruction stands for a line of them, and `pseudo_iff` that it is the one that is assembled.

`Means` is what the names promise: `seqz` tells whether a register is zero, `bleu` branches on one that is not
above another.  `step_pseudo` — the word that is assembled does that.
-/

set_option autoImplicit false

namespace RiscyOS.Rva

open Memory Rv32

/-! ## Names -/

/-- From one register to another. -/
inductive MoveOp where
  | mv | not | neg | seqz | snez | sltz | sgtz
  deriving DecidableEq, Repr

/-- Branches that compare with zero. -/
inductive ZeroOp where
  | beqz | bnez | blez | bgez | bltz | bgtz
  deriving DecidableEq, Repr

/-- Branches with their registers exchanged. -/
inductive SwapOp where
  | bgt | ble | bgtu | bleu
  deriving DecidableEq, Repr

/-- The counters, and their upper halves. -/
inductive CounterOp where
  | rdcycle | rdtime | rdinstret | rdcycleh | rdtimeh | rdinstreth
  deriving DecidableEq, Repr

inductive PseudoOp where
  | move (op : MoveOp)
  | zero (op : ZeroOp)
  | swap (op : SwapOp)
  | subi | j | jr | ret | nop | csrr
  | csr (op : CsrOp)
  | csri (op : CsrOp)
  | counter (op : CounterOp)
  deriving DecidableEq, Repr

def MoveOp.name : MoveOp → String
  | mv => "mv" | not => "not" | neg => "neg" | seqz => "seqz" | snez => "snez" | sltz => "sltz" | sgtz => "sgtz"

def ZeroOp.name : ZeroOp → String
  | beqz => "beqz" | bnez => "bnez" | blez => "blez" | bgez => "bgez" | bltz => "bltz" | bgtz => "bgtz"

def SwapOp.name : SwapOp → String
  | bgt => "bgt" | ble => "ble" | bgtu => "bgtu" | bleu => "bleu"

def CounterOp.name : CounterOp → String
  | rdcycle => "rdcycle" | rdtime => "rdtime" | rdinstret => "rdinstret"
  | rdcycleh => "rdcycleh" | rdtimeh => "rdtimeh" | rdinstreth => "rdinstreth"

def PseudoOp.name : PseudoOp → String
  | move op => op.name
  | zero op => op.name
  | swap op => op.name
  | subi => "subi" | j => "j" | jr => "jr" | ret => "ret" | nop => "nop" | csrr => "csrr"
  | csr .rw => "csrw" | csr .rs => "csrs" | csr .rc => "csrc"
  | csri .rw => "csrwi" | csri .rs => "csrsi" | csri .rc => "csrci"
  | counter op => op.name

/-! ## The instructions that stand for them -/

def MoveOp.expand (rd rs : Reg) : MoveOp → Instr
  | mv => .imm .addi rd rs 0
  | not => .imm .xori rd rs (-1)
  | neg => .reg .sub rd 0 rs
  | seqz => .imm .sltiu rd rs 1
  | snez => .reg .sltu rd 0 rs
  | sltz => .reg .slt rd rs 0
  | sgtz => .reg .slt rd 0 rs

def ZeroOp.expand (rs : Reg) (offset : BitVec 12) : ZeroOp → Instr
  | beqz => .branch .eq rs 0 offset
  | bnez => .branch .ne rs 0 offset
  | blez => .branch .ge 0 rs offset
  | bgez => .branch .ge rs 0 offset
  | bltz => .branch .lt rs 0 offset
  | bgtz => .branch .lt 0 rs offset

def SwapOp.expand (rs rt : Reg) (offset : BitVec 12) : SwapOp → Instr
  | bgt => .branch .lt rt rs offset
  | ble => .branch .ge rt rs offset
  | bgtu => .branch .ltu rt rs offset
  | bleu => .branch .geu rt rs offset

/-- The CSR of a counter. -/
def CounterOp.csr : CounterOp → BitVec 12
  | rdcycle => 0xc00 | rdtime => 0xc01 | rdinstret => 0xc02
  | rdcycleh => 0xc80 | rdtimeh => 0xc81 | rdinstreth => 0xc82

variable (ctx : Context)

/-- **The instruction for a line.** -/
inductive Expansion : PseudoOp → Cursor → Instr → Cursor → Prop
  | move {op : MoveOp} {c c₁ c' : Cursor} {rd rs : Reg} (hrd : RegComma ctx c rd c₁) (hrs : IsReg ctx c₁ rs c') :
      Expansion (.move op) c (op.expand rd rs) c'
  | zero {op : ZeroOp} {c c₁ c' : Cursor} {rs : Reg} {offset : BitVec 12} (hrs : RegComma ctx c rs c₁)
      (htarget : IsValue ctx c₁ (ctx.pc + distance offset) c') : Expansion (.zero op) c (op.expand rs offset) c'
  | swap {op : SwapOp} {c c₁ c₂ c' : Cursor} {rs rt : Reg} {offset : BitVec 12} (hrs : RegComma ctx c rs c₁)
      (hrt : RegComma ctx c₁ rt c₂) (htarget : IsValue ctx c₂ (ctx.pc + distance offset) c') :
      Expansion (.swap op) c (op.expand rs rt offset) c'
  | subi {c c₁ c₂ c' : Cursor} {rd rs : Reg} {v : Word} {imm : BitVec 12} (hrd : RegComma ctx c rd c₁)
      (hrs : RegComma ctx c₁ rs c₂) (hvalue : IsValue ctx c₂ v c') (himm : -v = imm.signExtend 32) :
      Expansion .subi c (.imm .addi rd rs imm) c'
  -- an odd target passes
  | j {c c' : Cursor} {offset : BitVec 20} {low : BitVec 1}
      (htarget : IsValue ctx c (ctx.pc + (offset ++ low).signExtend 32) c') : Expansion .j c (.jal 0 offset) c'
  | jr {c c' : Cursor} {rs : Reg} (hrs : IsReg ctx c rs c') : Expansion .jr c (.jalr 0 rs 0) c'
  | ret {c : Cursor} : Expansion .ret c (.jalr 0 1 0) c
  | nop {c : Cursor} : Expansion .nop c (.imm .addi 0 0 0) c
  | csrr {c c₁ c' : Cursor} {rd : Reg} {csr : BitVec 12} (hrd : RegComma ctx c rd c₁)
      (hcsr : IsValue ctx c₁ (csr.setWidth 32) c') : Expansion .csrr c (.csr .rs rd 0 csr) c'
  | csr {op : CsrOp} {c c₁ c₂ c' : Cursor} {rs : Reg} {csr : BitVec 12} (hcsr : IsValue ctx c (csr.setWidth 32) c₁)
      (hcomma : Has ctx ',' c₁ c₂) (hrs : IsReg ctx c₂ rs c') : Expansion (.csr op) c (.csr op 0 rs csr) c'
  | csri {op : CsrOp} {c c₁ c₂ c' : Cursor} {imm : BitVec 5} {csr : BitVec 12}
      (hcsr : IsValue ctx c (csr.setWidth 32) c₁) (hcomma : Has ctx ',' c₁ c₂)
      (hvalue : IsValue ctx c₂ (imm.setWidth 32) c') : Expansion (.csri op) c (.csri op 0 imm csr) c'
  | counter {op : CounterOp} {c c' : Cursor} {rd : Reg} (hrd : IsReg ctx c rd c') :
      Expansion (.counter op) c (.csr .rs rd 0 op.csr) c'

/-! ## Tokens -/

/-- The token of a name. -/
def pseudoTokenOf (op : PseudoOp) : Word := (pseudoMnemonics.lookup op.name).getD 0

theorem lookup_pseudo (op : PseudoOp) : pseudoMnemonics.lookup op.name = some (pseudoTokenOf op) := by
  cases op with
  | subi | j | jr | ret | nop | csrr => rfl
  | move op | zero op | swap op | csr op | csri op | counter op => cases op <;> rfl

/-- It is what the table has for the name. -/
theorem value_pseudoTokenOf (op : PseudoOp) : rv32iMnemonicTable.value? op.name.toList = some (pseudoTokenOf op) := by
  obtain ⟨l, l', heq, -⟩ := List.lookup_eq_some_iff.1 (lookup_pseudo op)
  have hmem : (op.name, pseudoTokenOf op) ∈ pseudoMnemonics := heq ▸ List.mem_append_right l (List.mem_cons_self ..)
  exact value_mnemonic (s := (op.name, pseudoTokenOf op)) (List.mem_append_right baseMnemonics hmem)

/-! ## Words -/

section Words

variable (token v : Word) (d s t : Reg)

/-- The operands of a move to which an immediate belongs. -/
theorem moveImmWord (imm : BitVec 12) (f : BitVec 3) :
    (((regWord d <<< 7) ||| (regWord s <<< 15) ||| (regWord s <<< 20)) &&& 0x000FFF80) |||
      iType imm 0 f 0 0x13 = iType imm s f d 0x13 := by
  apply BitVec.eq_of_getLsbD_eq
  intro k hk
  simp only [iType, regWord, BitVec.getLsbD_or, BitVec.getLsbD_and, BitVec.getLsbD_shiftLeft,
    BitVec.getLsbD_setWidth, BitVec.getLsbD_append]
  interval_cases k <;> simp

/-- Those of a move with `x0` on the left. -/
theorem moveRegWord (f7 : BitVec 7) (f : BitVec 3) :
    (((regWord d <<< 7) ||| (regWord s <<< 15) ||| (regWord s <<< 20)) &&& 0x01F07F80) |||
      rType f7 0 0 f 0 0x33 = rType f7 s 0 f d 0x33 := by
  apply BitVec.eq_of_getLsbD_eq
  intro k hk
  simp only [rType, regWord, BitVec.getLsbD_or, BitVec.getLsbD_and, BitVec.getLsbD_shiftLeft,
    BitVec.getLsbD_setWidth, BitVec.getLsbD_append]
  interval_cases k <;> simp

/-- And with `x0` on the right. -/
theorem moveRegWord' (f7 : BitVec 7) (f : BitVec 3) :
    (((regWord d <<< 7) ||| (regWord s <<< 15) ||| (regWord s <<< 20)) &&& 0x000FFF80) |||
      rType f7 0 0 f 0 0x33 = rType f7 0 s f d 0x33 := by
  apply BitVec.eq_of_getLsbD_eq
  intro k hk
  simp only [rType, regWord, BitVec.getLsbD_or, BitVec.getLsbD_and, BitVec.getLsbD_shiftLeft,
    BitVec.getLsbD_setWidth, BitVec.getLsbD_append]
  interval_cases k <;> simp

theorem moveWord (op : MoveOp) :
    (((regWord d <<< 7) ||| (regWord s <<< 15) ||| (regWord s <<< 20)) &&&
      (movePatterns (pseudoTokenOf (.move op))).1) ||| (movePatterns (pseudoTokenOf (.move op))).2 =
      encode (op.expand d s) := by
  cases op with
  | mv => exact moveImmWord d s 0 0
  | not => exact moveImmWord d s (-1) 4
  | neg => exact moveRegWord d s 0x20 0
  | seqz => exact moveImmWord d s 1 3
  | snez => exact moveRegWord d s 0 3
  | sltz => exact moveRegWord' d s 0 2
  | sgtz => exact moveRegWord d s 0 2

theorem zeroWord : (0x00000063 : Word) ||| functField token ||| immBranch v ||| (regWord s <<< 15) =
    bType (v.extractLsb' 1 12) 0 s (tokenFunct token) 0x63 := by
  apply BitVec.eq_of_getLsbD_eq
  intro k hk
  simp only [functField, immBranch, bType, tokenFunct, regWord, BitVec.getLsbD_or, BitVec.getLsbD_and,
    BitVec.getLsbD_ushiftRight, BitVec.getLsbD_shiftLeft, BitVec.getLsbD_setWidth, BitVec.getLsbD_append,
    BitVec.getLsbD_extractLsb']
  interval_cases k <;> simp

theorem zeroWord' : (0x00000063 : Word) ||| functField token ||| immBranch v ||| (regWord s <<< 20) =
    bType (v.extractLsb' 1 12) s 0 (tokenFunct token) 0x63 := by
  apply BitVec.eq_of_getLsbD_eq
  intro k hk
  simp only [functField, immBranch, bType, tokenFunct, regWord, BitVec.getLsbD_or, BitVec.getLsbD_and,
    BitVec.getLsbD_ushiftRight, BitVec.getLsbD_shiftLeft, BitVec.getLsbD_setWidth, BitVec.getLsbD_append,
    BitVec.getLsbD_extractLsb']
  interval_cases k <;> simp

theorem csrPseudoWord : functField token ||| (0x00000073 : Word) ||| (regWord d <<< 7) ||| (v <<< 20) |||
    (regWord s <<< 15) = iType (v.setWidth 12) s (tokenFunct token) d 0x73 := by
  apply BitVec.eq_of_getLsbD_eq
  intro k hk
  simp only [functField, iType, tokenFunct, regWord, BitVec.getLsbD_or, BitVec.getLsbD_and,
    BitVec.getLsbD_ushiftRight, BitVec.getLsbD_shiftLeft, BitVec.getLsbD_setWidth, BitVec.getLsbD_append,
    BitVec.getLsbD_extractLsb']
  interval_cases k <;> simp

theorem jPseudoWord : immJal v ||| 0x0000006F = jType (v.extractLsb' 1 20) 0 0x6f := by
  apply BitVec.eq_of_getLsbD_eq
  intro k hk
  simp only [immJal, jType, BitVec.getLsbD_or, BitVec.getLsbD_and, BitVec.getLsbD_shiftLeft,
    BitVec.getLsbD_append, BitVec.getLsbD_extractLsb']
  interval_cases k <;> simp

end Words

/-! ## The classes -/

section Classes

variable {ctx} {c c' : Cursor} {token w : Word} {allocate : Nat → Nat} {ws : List Word}

theorem movePseudo_ok (op : MoveOp) : movePseudo ctx (pseudoTokenOf (.move op)) c = (.ok w, c') ↔
    ∃ rd rs c₁, RegComma ctx c rd c₁ ∧ IsReg ctx c₁ rs c' ∧ w = encode (op.expand rd rs) := by
  rw [movePseudo, register_comma]
  constructor
  · rintro ⟨rd, c₁, hrd, hrest⟩
    obtain ⟨v, c₂, hreg, hpure⟩ := Reader.bind_ok.1 hrest
    obtain ⟨rs, hrs, rfl⟩ := register_ok.1 hreg
    obtain ⟨hw, rfl⟩ := Reader.pure_ok.1 hpure
    exact ⟨rd, rs, c₁, hrd, hrs, hw.symm.trans (moveWord rd rs op)⟩
  · rintro ⟨rd, rs, c₁, hrd, hrs, rfl⟩
    refine ⟨rd, c₁, hrd, Reader.bind_ok.2 ⟨_, c', register_ok.2 ⟨rs, hrs, rfl⟩, ?_⟩⟩
    exact Reader.pure_ok.2 ⟨moveWord rd rs op, rfl⟩

theorem branchPseudo_ok (hfinal : ctx.Final) : branchPseudo ctx token c = (.ok w, c') ↔ ∃ rs offset c₁,
    RegComma ctx c rs c₁ ∧ IsValue ctx c₁ (ctx.pc + distance offset) c' ∧
      w = if token &&& 0x01000000 ≠ 0 then bType offset rs 0 (tokenFunct token) 0x63
        else bType offset 0 rs (tokenFunct token) 0x63 := by
  have htarget : ∀ {v c₁ c'}, offsetTo ctx 0xFFFFF000 c₁ = (.ok v, c') ↔
      ∃ offset : BitVec 12, IsValue ctx c₁ (ctx.pc + distance offset) c' ∧ v = distance offset :=
    offsetTo_ok hfinal (by decide) (by decide)
  have hleft : ∀ (s : Reg) (offset : BitVec 12), (0x00000063 : Word) ||| functField token ||| immBranch (distance offset) |||
      (regWord s <<< 15) = bType offset 0 s (tokenFunct token) 0x63 := by
    intro s offset
    rw [zeroWord, extractLsb'_distance (by decide)]
  have hright : ∀ (s : Reg) (offset : BitVec 12), (0x00000063 : Word) ||| functField token ||| immBranch (distance offset) |||
      (regWord s <<< 20) = bType offset s 0 (tokenFunct token) 0x63 := by
    intro s offset
    rw [zeroWord', extractLsb'_distance (by decide)]
  rw [branchPseudo, register_comma]
  constructor
  · rintro ⟨rs, c₁, hrs, hrest⟩
    obtain ⟨v, c₂, hvalue, hpure⟩ := Reader.bind_ok.1 hrest
    obtain ⟨offset, hv, rfl⟩ := htarget.1 hvalue
    refine ⟨rs, offset, c₁, hrs, ?_⟩
    by_cases hside : token &&& 0x01000000 ≠ 0
    · simp only [if_pos hside] at hpure ⊢
      obtain ⟨hw, rfl⟩ := Reader.pure_ok.1 hpure
      exact ⟨hv, hw.symm.trans (hright rs offset)⟩
    · simp only [if_neg hside] at hpure ⊢
      obtain ⟨hw, rfl⟩ := Reader.pure_ok.1 hpure
      exact ⟨hv, hw.symm.trans (hleft rs offset)⟩
  · rintro ⟨rs, offset, c₁, hrs, hv, rfl⟩
    refine ⟨rs, c₁, hrs, Reader.bind_ok.2 ⟨_, c', htarget.2 ⟨offset, hv, rfl⟩, ?_⟩⟩
    split
    · exact Reader.pure_ok.2 ⟨hright rs offset, rfl⟩
    · exact Reader.pure_ok.2 ⟨hleft rs offset, rfl⟩

theorem jrPseudo_ok : jrPseudo ctx c = (.ok w, c') ↔ ∃ rs, IsReg ctx c rs c' ∧ w = encode (.jalr 0 rs 0) := by
  have hword : ∀ rs : Reg, (0x00000067 : Word) ||| (regWord rs <<< 15) = encode (.jalr 0 rs 0) := by
    intro rs
    apply BitVec.eq_of_getLsbD_eq
    intro k hk
    simp only [encode, iType, regWord, BitVec.getLsbD_or, BitVec.getLsbD_shiftLeft, BitVec.getLsbD_setWidth,
      BitVec.getLsbD_append]
    interval_cases k <;> simp
  rw [jrPseudo, Reader.bind_ok]
  constructor
  · rintro ⟨v, c₁, hreg, hpure⟩
    obtain ⟨rs, hrs, rfl⟩ := register_ok.1 hreg
    obtain ⟨hw, rfl⟩ := Reader.pure_ok.1 hpure
    exact ⟨rs, hrs, hw.symm.trans (hword rs)⟩
  · rintro ⟨rs, hrs, rfl⟩
    exact ⟨_, c', register_ok.2 ⟨rs, hrs, rfl⟩, Reader.pure_ok.2 ⟨hword rs, rfl⟩⟩

theorem jPseudo_ok (hfinal : ctx.Final) : jPseudo ctx c = (.ok w, c') ↔ ∃ (offset : BitVec 20) (low : BitVec 1),
    IsValue ctx c (ctx.pc + (offset ++ low).signExtend 32) c' ∧ w = encode (.jal 0 offset) := by
  have hfits : ∀ {v : Word}, inRange 0xFFF00000 v = true ↔ v = (v.setWidth 21).signExtend 32 :=
    inRange_iff (by decide) (by decide) (by decide)
  rw [jPseudo, Reader.bind_ok]
  constructor
  · rintro ⟨r, c₁, hvalue, hrest⟩
    have hrest : (if inRange 0xFFF00000 (r.2 - ctx.pc) = true then _ else _ : Reader Word) c₁ = _ := hrest
    split at hrest
    · rename_i hrange
      obtain ⟨u, c₂, hsettle, hpure⟩ := Reader.bind_ok.1 hrest
      obtain ⟨hok, rfl⟩ := settle_ok.1 hsettle
      obtain ⟨hw, rfl⟩ := Reader.pure_ok.1 hpure
      have hsplit : (r.2 - ctx.pc).extractLsb' 1 20 ++ (r.2 - ctx.pc).extractLsb' 0 1 = (r.2 - ctx.pc).setWidth 21 := by
        apply BitVec.eq_of_getLsbD_eq
        intro k hk
        simp only [BitVec.getLsbD_append, BitVec.getLsbD_extractLsb', BitVec.getLsbD_setWidth]
        grind
      refine ⟨(r.2 - ctx.pc).extractLsb' 1 20, (r.2 - ctx.pc).extractLsb' 0 1, ?_, hw.symm.trans (jPseudoWord _)⟩
      rw [hsplit, ← hfits.1 hrange, BitVec.add_comm, BitVec.sub_add_cancel]
      exact (expression_ok hfinal).1 (by rw [hvalue, ← hok])
    · exact absurd hrest fail_ok.1
  · rintro ⟨offset, low, hv, rfl⟩
    refine ⟨_, c', (expression_ok hfinal).2 hv, ?_⟩
    have hsub : ctx.pc + (offset ++ low).signExtend 32 - ctx.env.assemblyPointer = (offset ++ low).signExtend 32 := by
      rw [BitVec.add_comm, BitVec.add_sub_cancel]
    have hback : ((offset ++ low).signExtend 32).setWidth 21 = offset ++ low := by
      apply BitVec.eq_of_getLsbD_eq
      intro k hk
      have h32 : k < 32 := by omega
      rw [BitVec.getLsbD_setWidth, BitVec.getLsbD_signExtend]
      simp [hk, h32]
    have hoffset : ((offset ++ low).signExtend 32).extractLsb' 1 20 = offset := by
      apply BitVec.eq_of_getLsbD_eq
      intro k hk
      rw [BitVec.getLsbD_extractLsb', BitVec.getLsbD_signExtend, BitVec.getLsbD_append]
      grind
    rw [hsub, if_pos (hfits.2 (by rw [hback]))]
    refine Reader.bind_ok.2 ⟨(), c', settle_ok.2 ⟨rfl, rfl⟩, Reader.pure_ok.2 ⟨?_, rfl⟩⟩
    rw [jPseudoWord, hoffset]
    rfl

/-- A CSR that is read. -/
theorem csrPseudo_read (hfinal : ctx.Final) (hread : token &&& 0x20000000 ≠ 0) :
    csrPseudo ctx token c = (.ok w, c') ↔ ∃ rd csr c₁, RegComma ctx c rd c₁ ∧
      IsValue ctx c₁ (BitVec.setWidth 32 csr) c' ∧ w = iType csr 0 (tokenFunct token) rd 0x73 := by
  have hword : ∀ (rd : Reg) (csr : BitVec 12), functField token ||| (0x00000073 : Word) ||| (regWord rd <<< 7) |||
      (csr.setWidth 32 <<< 20) = iType csr 0 (tokenFunct token) rd 0x73 := by
    intro rd csr
    have h := csrPseudoWord token (csr.setWidth 32) rd 0
    rw [BitVec.setWidth_setWidth_of_le _ (by decide), BitVec.setWidth_eq] at h
    exact BitVec.or_zero.symm.trans h
  simp only [csrPseudo, if_pos hread]
  rw [register_comma]
  constructor
  · rintro ⟨rd, c₁, hrd, hrest⟩
    obtain ⟨v, c₂, hcsr, hpure⟩ := Reader.bind_ok.1 hrest
    obtain ⟨csr, hv, rfl⟩ := (parseCsr_ok hfinal).1 hcsr
    obtain ⟨hw, rfl⟩ := Reader.pure_ok.1 hpure
    exact ⟨rd, csr, c₁, hrd, hv, hw.symm.trans (hword rd csr)⟩
  · rintro ⟨rd, csr, c₁, hrd, hv, rfl⟩
    refine ⟨rd, c₁, hrd, Reader.bind_ok.2 ⟨_, c', (parseCsr_ok hfinal).2 ⟨csr, hv, rfl⟩, ?_⟩⟩
    exact Reader.pure_ok.2 ⟨hword rd csr, rfl⟩

/-- A CSR that is written. -/
theorem csrPseudo_write (hfinal : ctx.Final) (hwrite : token &&& 0x20000000 = 0) :
    csrPseudo ctx token c = (.ok w, c') ↔ ∃ s csr c₁ c₂, IsValue ctx c (BitVec.setWidth 32 csr) c₁ ∧
      Has ctx ',' c₁ c₂ ∧ IsSource ctx token c₂ s c' ∧ w = iType csr s (tokenFunct token) 0 0x73 := by
  have hword : ∀ (s : Reg) (csr : BitVec 12), functField token ||| (0x00000073 : Word) ||| (csr.setWidth 32 <<< 20) |||
      (regWord s <<< 15) = iType csr s (tokenFunct token) 0 0x73 := by
    intro s csr
    have h := csrPseudoWord token (csr.setWidth 32) 0 s
    rw [BitVec.setWidth_setWidth_of_le _ (by decide), BitVec.setWidth_eq] at h
    rw [← h, show regWord 0 <<< 7 = 0#32 from rfl, BitVec.or_zero]
  simp only [csrPseudo, if_neg (not_not.2 hwrite)]
  rw [Reader.bind_ok]
  constructor
  · rintro ⟨v, c₁, hcsr, hrest⟩
    obtain ⟨csr, hv, rfl⟩ := (parseCsr_ok hfinal).1 hcsr
    obtain ⟨u, c₂, hcomma, hrest⟩ := Reader.bind_ok.1 hrest
    obtain ⟨v, c₃, hsrc, hpure⟩ := Reader.bind_ok.1 hrest
    obtain ⟨s, hs, rfl⟩ := (parseCsr2_ok hfinal).1 hsrc
    obtain ⟨hw, rfl⟩ := Reader.pure_ok.1 hpure
    exact ⟨s, csr, c₁, c₂, hv, expect_ok.1 hcomma, hs, hw.symm.trans (hword s csr)⟩
  · rintro ⟨s, csr, c₁, c₂, hv, hcomma, hs, rfl⟩
    refine ⟨_, c₁, (parseCsr_ok hfinal).2 ⟨csr, hv, rfl⟩, Reader.bind_ok.2 ⟨(), c₂, expect_ok.2 hcomma, ?_⟩⟩
    refine Reader.bind_ok.2 ⟨_, c', (parseCsr2_ok hfinal).2 ⟨s, hs, rfl⟩, ?_⟩
    exact Reader.pure_ok.2 ⟨hword s csr, rfl⟩

/-- The fields that the token of a counter gives. -/
theorem counterWord (op : CounterOp) (d : Reg) :
    ((pseudoTokenOf (.counter op) &&& (0xFF000000 : Word)) ||| (0x00000073 : Word) |||
      ((pseudoTokenOf (.counter op) &&& 0x0000F000) <<< 8) |||
      ((pseudoTokenOf (.counter op) &&& 0x00000700) <<< 4)) ||| (regWord d <<< 7) =
      encode (.csr .rs d 0 op.csr) := by
  have hfields : (pseudoTokenOf (.counter op) &&& (0xFF000000 : Word)) ||| (0x00000073 : Word) |||
      ((pseudoTokenOf (.counter op) &&& 0x0000F000) <<< 8) |||
      ((pseudoTokenOf (.counter op) &&& 0x00000700) <<< 4) = iType op.csr 0 2 0 0x73 := by
    cases op <;> rfl
  rw [hfields]
  apply BitVec.eq_of_getLsbD_eq
  intro k hk
  simp only [encode, iType, CsrOp.funct3, regWord, BitVec.getLsbD_or, BitVec.getLsbD_shiftLeft,
    BitVec.getLsbD_setWidth, BitVec.getLsbD_append]
  interval_cases k <;> simp

theorem counterPseudo_ok (op : CounterOp) : counterPseudo ctx (pseudoTokenOf (.counter op)) c = (.ok w, c') ↔
    ∃ rd, IsReg ctx c rd c' ∧ w = encode (.csr .rs rd 0 op.csr) := by
  have hplain : pseudoTokenOf (.counter op) &&& 0x00000700 = 0x00000200 := by cases op <;> rfl
  simp only [counterPseudo, if_pos hplain]
  rw [Reader.bind_ok]
  constructor
  · rintro ⟨v, c₁, hreg, hpure⟩
    obtain ⟨rd, hrd, rfl⟩ := register_ok.1 hreg
    obtain ⟨hw, rfl⟩ := Reader.pure_ok.1 hpure
    exact ⟨rd, hrd, hw.symm.trans (counterWord op rd)⟩
  · rintro ⟨rd, hrd, rfl⟩
    exact ⟨_, c', register_ok.2 ⟨rd, hrd, rfl⟩, Reader.pure_ok.2 ⟨counterWord op rd, rfl⟩⟩

/-- How a pseudo-instruction is read. -/
theorem pseudo_dispatch (hsort : token &&& 0x000F0000 = 0x00090000) :
    rv32iMnemonic ctx allocate token c = (.ok ws, c') ↔
      ∃ w, pseudoMnemonic ctx token c = (.ok w, c') ∧ ws = [w] := by
  have hdispatch : rv32iMnemonic ctx allocate token = (do return [← pseudoMnemonic ctx token]) := by
    simp only [rv32iMnemonic, hsort]
    rfl
  rw [hdispatch, one_ok]

/-- Where the word of an expansion is, the words of a line are. -/
theorem words_iff {op : PseudoOp} (h : ∀ w, pseudoMnemonic ctx token c = (.ok w, c') ↔
    ∃ i, Expansion ctx op c i c' ∧ w = encode i) (hsort : token &&& 0x000F0000 = 0x00090000) :
    rv32iMnemonic ctx allocate token c = (.ok ws, c') ↔ ∃ i, Expansion ctx op c i c' ∧ ws = [encode i] := by
  rw [pseudo_dispatch hsort]
  constructor
  · rintro ⟨w, hw, rfl⟩
    obtain ⟨i, hi, rfl⟩ := (h w).1 hw
    exact ⟨i, hi, rfl⟩
  · rintro ⟨i, hi, rfl⟩
    exact ⟨_, (h _).2 ⟨i, hi, rfl⟩, rfl⟩

theorem move_iff (op : MoveOp) : rv32iMnemonic ctx allocate (pseudoTokenOf (.move op)) c = (.ok ws, c') ↔
    ∃ i, Expansion ctx (.move op) c i c' ∧ ws = [encode i] := by
  have hdispatch : pseudoMnemonic ctx (pseudoTokenOf (.move op)) = movePseudo ctx (pseudoTokenOf (.move op)) := by
    cases op <;> rfl
  refine words_iff (fun w => ?_) (by cases op <;> rfl)
  rw [hdispatch, movePseudo_ok]
  constructor
  · rintro ⟨rd, rs, c₁, hrd, hrs, rfl⟩
    exact ⟨_, .move hrd hrs, rfl⟩
  · rintro ⟨_, hexp, rfl⟩
    cases hexp with
    | move hrd hrs => exact ⟨_, _, _, hrd, hrs, rfl⟩

theorem zero_iff (hfinal : ctx.Final) (op : ZeroOp) :
    rv32iMnemonic ctx allocate (pseudoTokenOf (.zero op)) c = (.ok ws, c') ↔
      ∃ i, Expansion ctx (.zero op) c i c' ∧ ws = [encode i] := by
  have hdispatch : pseudoMnemonic ctx (pseudoTokenOf (.zero op)) = branchPseudo ctx (pseudoTokenOf (.zero op)) := by
    cases op <;> rfl
  have hword : ∀ (rs : Reg) (offset : BitVec 12), (if pseudoTokenOf (.zero op) &&& 0x01000000 ≠ 0 then
      bType offset rs 0 (tokenFunct (pseudoTokenOf (.zero op))) 0x63
      else bType offset 0 rs (tokenFunct (pseudoTokenOf (.zero op))) 0x63) = encode (op.expand rs offset) := by
    intro rs offset
    cases op <;> rfl
  refine words_iff (fun w => ?_) (by cases op <;> rfl)
  rw [hdispatch, branchPseudo_ok hfinal]
  simp only [hword]
  constructor
  · rintro ⟨rs, offset, c₁, hrs, hv, rfl⟩
    exact ⟨_, .zero hrs hv, rfl⟩
  · rintro ⟨_, hexp, rfl⟩
    cases hexp with
    | zero hrs hv => exact ⟨_, _, _, hrs, hv, rfl⟩

theorem swap_iff (hfinal : ctx.Final) (op : SwapOp) :
    rv32iMnemonic ctx allocate (pseudoTokenOf (.swap op)) c = (.ok ws, c') ↔
      ∃ i, Expansion ctx (.swap op) c i c' ∧ ws = [encode i] := by
  have hsort : pseudoTokenOf (.swap op) &&& 0x000F0000 = 0x00030000 := by cases op <;> rfl
  have hdispatch : rv32iMnemonic ctx allocate (pseudoTokenOf (.swap op)) =
      (do return [← bMnemonic ctx (pseudoTokenOf (.swap op))]) := by
    simp only [rv32iMnemonic, hsort]
    rfl
  have hword : ∀ (a b : Reg) (offset : BitVec 12), (if pseudoTokenOf (.swap op) &&& 0xF0000000 ≠ 0 then
      bType offset a b (tokenFunct (pseudoTokenOf (.swap op))) (tokenOp (pseudoTokenOf (.swap op)))
      else bType offset b a (tokenFunct (pseudoTokenOf (.swap op))) (tokenOp (pseudoTokenOf (.swap op)))) =
      encode (op.expand a b offset) := by
    intro a b offset
    cases op <;> rfl
  rw [hdispatch, one_ok]
  simp only [bMnemonic_ok hfinal, hword]
  constructor
  · rintro ⟨w, ⟨a, b, offset, c₁, c₂, ha, hb, hv, rfl⟩, rfl⟩
    exact ⟨_, .swap ha hb hv, rfl⟩
  · rintro ⟨_, hexp, rfl⟩
    cases hexp with
    | swap hrs hrt hv => exact ⟨_, ⟨_, _, _, _, _, hrs, hrt, hv, rfl⟩, rfl⟩

theorem subi_iff (hfinal : ctx.Final) : rv32iMnemonic ctx allocate (pseudoTokenOf .subi) c = (.ok ws, c') ↔
    ∃ i, Expansion ctx .subi c i c' ∧ ws = [encode i] := by
  have hdispatch : rv32iMnemonic ctx allocate (pseudoTokenOf .subi) =
      (do return [← iMnemonic ctx (pseudoTokenOf .subi)]) := rfl
  have hneg : ∀ v, immediate (pseudoTokenOf .subi) v = -v := fun v => if_pos (by decide)
  have hword : ∀ (rd rs : Reg) (imm : BitVec 12), iType imm rs (tokenFunct (pseudoTokenOf .subi)) rd
      (tokenOp (pseudoTokenOf .subi)) = encode (.imm .addi rd rs imm) := fun _ _ _ => rfl
  rw [hdispatch, one_ok]
  simp only [immMnemonic_ok hfinal (show pseudoTokenOf .subi &&& 0x06000000 ≠ 0x02000000 by decide), hneg, hword]
  constructor
  · rintro ⟨w, ⟨rd, rs, imm, v, c₁, c₂, hrd, hrs, hv, himm, rfl⟩, rfl⟩
    exact ⟨_, .subi hrd hrs hv himm, rfl⟩
  · rintro ⟨_, hexp, rfl⟩
    cases hexp with
    | subi hrd hrs hv himm => exact ⟨_, ⟨_, _, _, _, _, _, hrd, hrs, hv, himm, rfl⟩, rfl⟩

theorem csrPseudo_iff (hfinal : ctx.Final) (op : CsrOp) :
    rv32iMnemonic ctx allocate (pseudoTokenOf (.csr op)) c = (.ok ws, c') ↔
      ∃ i, Expansion ctx (.csr op) c i c' ∧ ws = [encode i] := by
  have hdispatch : pseudoMnemonic ctx (pseudoTokenOf (.csr op)) = csrPseudo ctx (pseudoTokenOf (.csr op)) := by
    cases op <;> rfl
  have hwrite : pseudoTokenOf (.csr op) &&& 0x20000000 = 0 := by cases op <;> rfl
  have hplain : pseudoTokenOf (.csr op) &&& 0x10000000 = 0 := by cases op <;> rfl
  have hfunct : tokenFunct (pseudoTokenOf (.csr op)) = op.funct3 := by cases op <;> rfl
  refine words_iff (fun w => ?_) (by cases op <;> rfl)
  rw [hdispatch, csrPseudo_write hfinal hwrite]
  simp only [IsSource, if_pos hplain, hfunct]
  constructor
  · rintro ⟨s, csr, c₁, c₂, hv, hcomma, hs, rfl⟩
    exact ⟨_, .csr hv hcomma hs, rfl⟩
  · rintro ⟨_, hexp, rfl⟩
    cases hexp with
    | csr hv hcomma hs => exact ⟨_, _, _, _, hv, hcomma, hs, rfl⟩

theorem csriPseudo_iff (hfinal : ctx.Final) (op : CsrOp) :
    rv32iMnemonic ctx allocate (pseudoTokenOf (.csri op)) c = (.ok ws, c') ↔
      ∃ i, Expansion ctx (.csri op) c i c' ∧ ws = [encode i] := by
  have hdispatch : pseudoMnemonic ctx (pseudoTokenOf (.csri op)) = csrPseudo ctx (pseudoTokenOf (.csri op)) := by
    cases op <;> rfl
  have hwrite : pseudoTokenOf (.csri op) &&& 0x20000000 = 0 := by cases op <;> rfl
  have himm : pseudoTokenOf (.csri op) &&& 0x10000000 ≠ 0 := by cases op <;> decide
  have hfunct : tokenFunct (pseudoTokenOf (.csri op)) = op.funct3 + 4 := by cases op <;> rfl
  refine words_iff (fun w => ?_) (by cases op <;> rfl)
  rw [hdispatch, csrPseudo_write hfinal hwrite]
  simp only [IsSource, if_neg himm, hfunct]
  constructor
  · rintro ⟨s, csr, c₁, c₂, hv, hcomma, hs, rfl⟩
    exact ⟨_, .csri hv hcomma hs, rfl⟩
  · rintro ⟨_, hexp, rfl⟩
    cases hexp with
    | csri hv hcomma hs => exact ⟨_, _, _, _, hv, hcomma, hs, rfl⟩

end Classes

/-- The words for a line, one name after the other. -/
theorem expansion_ok {ctx : Context} {c c' : Cursor} {allocate : Nat → Nat} {ws : List Word} (hfinal : ctx.Final)
    (op : PseudoOp) : rv32iMnemonic ctx allocate (pseudoTokenOf op) c = (.ok ws, c') ↔
      ∃ i, Expansion ctx op c i c' ∧ ws = [encode i] := by
  cases op with
  | move op => exact move_iff op
  | zero op => exact zero_iff hfinal op
  | swap op => exact swap_iff hfinal op
  | subi => exact subi_iff hfinal
  | j =>
    refine words_iff (fun w => ?_) rfl
    show jPseudo ctx c = (.ok w, c') ↔ _
    rw [jPseudo_ok hfinal]
    constructor
    · rintro ⟨offset, low, hv, rfl⟩
      exact ⟨_, .j hv, rfl⟩
    · rintro ⟨_, hexp, rfl⟩
      cases hexp with
      | j hv => exact ⟨_, _, hv, rfl⟩
  | jr =>
    refine words_iff (fun w => ?_) rfl
    show jrPseudo ctx c = (.ok w, c') ↔ _
    rw [jrPseudo_ok]
    constructor
    · rintro ⟨rs, hrs, rfl⟩
      exact ⟨_, .jr hrs, rfl⟩
    · rintro ⟨_, hexp, rfl⟩
      cases hexp with
      | jr hrs => exact ⟨_, hrs, rfl⟩
  | ret =>
    refine words_iff (fun w => ?_) rfl
    show (pure _ : Reader Word) c = (.ok w, c') ↔ _
    rw [Reader.pure_ok]
    constructor
    · rintro ⟨rfl, rfl⟩
      exact ⟨_, .ret, rfl⟩
    · rintro ⟨_, hexp, rfl⟩
      cases hexp with
      | ret => exact ⟨rfl, rfl⟩
  | nop =>
    refine words_iff (fun w => ?_) rfl
    show (pure _ : Reader Word) c = (.ok w, c') ↔ _
    rw [Reader.pure_ok]
    constructor
    · rintro ⟨rfl, rfl⟩
      exact ⟨_, .nop, rfl⟩
    · rintro ⟨_, hexp, rfl⟩
      cases hexp with
      | nop => exact ⟨rfl, rfl⟩
  | csrr =>
    refine words_iff (fun w => ?_) rfl
    show csrPseudo ctx (pseudoTokenOf .csrr) c = (.ok w, c') ↔ _
    rw [csrPseudo_read hfinal (by decide)]
    constructor
    · rintro ⟨rd, csr, c₁, hrd, hv, rfl⟩
      exact ⟨_, .csrr hrd hv, rfl⟩
    · rintro ⟨_, hexp, rfl⟩
      cases hexp with
      | csrr hrd hv => exact ⟨_, _, _, hrd, hv, rfl⟩
  | csr op => exact csrPseudo_iff hfinal op
  | csri op => exact csriPseudo_iff hfinal op
  | counter op =>
    have hdispatch : pseudoMnemonic ctx (pseudoTokenOf (.counter op)) =
        counterPseudo ctx (pseudoTokenOf (.counter op)) := by
      cases op <;> rfl
    refine words_iff (fun w => ?_) (by cases op <;> rfl)
    rw [hdispatch, counterPseudo_ok]
    constructor
    · rintro ⟨rd, hrd, rfl⟩
      exact ⟨_, .counter hrd, rfl⟩
    · rintro ⟨_, hexp, rfl⟩
      cases hexp with
      | counter hrd => exact ⟨_, hrd, rfl⟩

/-- **A pseudo-instruction is assembled to the instruction that stands for it**, and a line is accepted just if
there is one. -/
theorem pseudo_iff {ctx : Context} {c c' : Cursor} {allocate : Nat → Nat} {ws : List Word} (hfinal : ctx.Final)
    (op : PseudoOp) {token : Word} (htoken : rv32iMnemonicTable.value? op.name.toList = some token) :
    rv32iMnemonic ctx allocate token c = (.ok ws, c') ↔ ∃ i, Expansion ctx op c i c' ∧ ws = [encode i] := by
  obtain rfl : pseudoTokenOf op = token := Option.some.inj ((value_pseudoTokenOf op).symm.trans htoken)
  exact expansion_ok hfinal op

theorem pseudo_seqz : ∃ i, Expansion (lineOnly "a0, a1".toList) (.move .seqz) ⟨0, 0, false⟩ i ⟨6, 0, false⟩ ∧
    [0x0015B513] = [encode i] :=
  (pseudo_iff ⟨rfl, rfl⟩ (.move .seqz) (value_pseudoTokenOf (.move .seqz))).1
    (show rv32iMnemonic (lineOnly "a0, a1".toList) id _ _ = _ by decide +kernel)

/-! ## What the names promise -/

def MoveOp.eval (op : MoveOp) (x : Word) : Word :=
  match op with
  | mv => x
  | not => ~~~x
  | neg => -x
  | seqz => flag (x = 0)
  | snez => flag (x ≠ 0)
  | sltz => flag (x.toInt < 0)
  | sgtz => flag (0 < x.toInt)

def ZeroOp.holds (op : ZeroOp) (x : Word) : Bool :=
  match op with
  | beqz => x = 0
  | bnez => x ≠ 0
  | blez => x.toInt ≤ 0
  | bgez => 0 ≤ x.toInt
  | bltz => x.toInt < 0
  | bgtz => 0 < x.toInt

def SwapOp.holds (op : SwapOp) (x y : Word) : Bool :=
  match op with
  | bgt => y.toInt < x.toInt
  | ble => x.toInt ≤ y.toInt
  | bgtu => y < x
  | bleu => x ≤ y

/-- To a target or on. -/
def branchTo (s : State) (taken : Bool) (target : Word) : State := if taken then s.jump target else s.next

/-- **What a line is to do.** -/
inductive Means : PseudoOp → Cursor → (State → State) → Cursor → Prop
  | move {op : MoveOp} {c c₁ c' : Cursor} {rd rs : Reg} (hrd : RegComma ctx c rd c₁) (hrs : IsReg ctx c₁ rs c') :
      Means (.move op) c (fun s => s.set rd (op.eval (s.get rs))) c'
  | zero {op : ZeroOp} {c c₁ c' : Cursor} {rs : Reg} {target : Word} (hrs : RegComma ctx c rs c₁)
      (htarget : IsValue ctx c₁ target c') : Means (.zero op) c (fun s => branchTo s (op.holds (s.get rs)) target) c'
  | swap {op : SwapOp} {c c₁ c₂ c' : Cursor} {rs rt : Reg} {target : Word} (hrs : RegComma ctx c rs c₁)
      (hrt : RegComma ctx c₁ rt c₂) (htarget : IsValue ctx c₂ target c') :
      Means (.swap op) c (fun s => branchTo s (op.holds (s.get rs) (s.get rt)) target) c'
  | subi {c c₁ c₂ c' : Cursor} {rd rs : Reg} {v : Word} (hrd : RegComma ctx c rd c₁) (hrs : RegComma ctx c₁ rs c₂)
      (hvalue : IsValue ctx c₂ v c') : Means .subi c (fun s => s.set rd (s.get rs - v)) c'
  -- a target at an odd distance is missed by one
  | j {c c' : Cursor} {target : Word} (htarget : IsValue ctx c target c') :
      Means .j c (fun s => s.jump (target - ((target - ctx.pc) &&& 1))) c'
  | jr {c c' : Cursor} {rs : Reg} (hrs : IsReg ctx c rs c') : Means .jr c (fun s => s.jump (s.get rs &&& ~~~1)) c'
  | ret {c : Cursor} : Means .ret c (fun s => s.jump (s.get 1 &&& ~~~1)) c
  | nop {c : Cursor} : Means .nop c State.next c
  | csrr {c c₁ c' : Cursor} {rd : Reg} {csr : BitVec 12} (hrd : RegComma ctx c rd c₁)
      (hcsr : IsValue ctx c₁ (csr.setWidth 32) c') : Means .csrr c (fun s => s.set rd (s.csrs csr)) c'
  | csr {op : CsrOp} {c c₁ c₂ c' : Cursor} {rs : Reg} {csr : BitVec 12} (hcsr : IsValue ctx c (csr.setWidth 32) c₁)
      (hcomma : Has ctx ',' c₁ c₂) (hrs : IsReg ctx c₂ rs c') :
      Means (.csr op) c (fun s => (s.setCsr csr (op.eval (s.csrs csr) (s.get rs))).next) c'
  | csri {op : CsrOp} {c c₁ c₂ c' : Cursor} {imm : BitVec 5} {csr : BitVec 12}
      (hcsr : IsValue ctx c (csr.setWidth 32) c₁) (hcomma : Has ctx ',' c₁ c₂)
      (hvalue : IsValue ctx c₂ (imm.setWidth 32) c') :
      Means (.csri op) c (fun s => (s.setCsr csr (op.eval (s.csrs csr) (imm.setWidth 32))).next) c'
  | counter {op : CounterOp} {c c' : Cursor} {rd : Reg} (hrd : IsReg ctx c rd c') :
      Means (.counter op) c (fun s => s.set rd (s.csrs op.csr)) c'

section Meaning

variable {s : State} {rd rs rt : Reg}

theorem exec_move (op : MoveOp) : exec s (op.expand rd rs) = s.set rd (op.eval (s.get rs)) := by
  cases op with
  | mv => simp [MoveOp.expand, MoveOp.eval, exec, ImmOp.eval]
  | not =>
    have hones : s.get rs ^^^ (-1 : BitVec 12).signExtend 32 = ~~~s.get rs := BitVec.xor_allOnes
    simp only [MoveOp.expand, MoveOp.eval, exec, ImmOp.eval, hones]
  | neg => simp [MoveOp.expand, MoveOp.eval, exec, RegOp.eval]
  | seqz =>
    have hone : s.get rs < (1 : BitVec 12).signExtend 32 ↔ s.get rs = 0 := BitVec.lt_one_iff (by decide)
    simp only [MoveOp.expand, MoveOp.eval, exec, ImmOp.eval, hone]
  | snez =>
    have hpos : s.get 0 < s.get rs ↔ s.get rs ≠ 0 := BitVec.pos_iff_ne_zero _
    simp only [MoveOp.expand, MoveOp.eval, exec, RegOp.eval, hpos]
  | sltz => simp [MoveOp.expand, MoveOp.eval, exec, RegOp.eval]
  | sgtz => simp [MoveOp.expand, MoveOp.eval, exec, RegOp.eval]

theorem exec_branch {c : Cond} {offset : BitVec 12} : exec s (.branch c rs rt offset) =
    branchTo s (c.holds (s.get rs) (s.get rt)) (s.pc + distance offset) := by
  simp only [exec, branchTo, State.next]
  split <;> rfl

theorem exec_zero (op : ZeroOp) {offset : BitVec 12} :
    exec s (op.expand rs offset) = branchTo s (op.holds (s.get rs)) (s.pc + distance offset) := by
  cases op <;> exact exec_branch

theorem exec_swap (op : SwapOp) {offset : BitVec 12} :
    exec s (op.expand rs rt offset) = branchTo s (op.holds (s.get rs) (s.get rt)) (s.pc + distance offset) := by
  cases op <;> exact exec_branch

theorem sub_and_one (x : Word) : x - (x &&& 1) = x &&& ~~~1 := by
  have hdisjoint : (x &&& ~~~1) &&& (x &&& 1) = 0 := by
    apply BitVec.eq_of_getLsbD_eq
    intro k hk
    simp only [BitVec.getLsbD_and, BitVec.getLsbD_not]
    cases (1 : Word).getLsbD k <;> simp
  have hsplit : (x &&& ~~~1) + (x &&& 1) = x := by
    rw [BitVec.add_eq_or_of_and_eq_zero _ _ hdisjoint]
    apply BitVec.eq_of_getLsbD_eq
    intro k hk
    simp only [BitVec.getLsbD_or, BitVec.getLsbD_and, BitVec.getLsbD_not, hk, decide_true]
    cases (1 : Word).getLsbD k <;> simp
  exact (BitVec.eq_sub_iff_add_eq.2 hsplit).symm

theorem distance_eq_and (offset : BitVec 20) (low : BitVec 1) :
    distance offset = (offset ++ low).signExtend 32 &&& ~~~1 := by
  apply BitVec.eq_of_getLsbD_eq
  intro k hk
  have hmsb : (offset ++ low).msb = (offset ++ 0#1).msb := by
    rw [BitVec.msb_append, BitVec.msb_append]
    rfl
  have hone : (1 : Word).getLsbD k = decide (k = 0) := by simp [BitVec.getLsbD_one]
  rw [distance, BitVec.getLsbD_and, BitVec.getLsbD_not, hone, BitVec.getLsbD_signExtend,
    BitVec.getLsbD_signExtend, hmsb, BitVec.getLsbD_append, BitVec.getLsbD_append]
  obtain rfl | hk0 := Nat.eq_zero_or_pos k
  · simp
  · have h1 : ¬ k < 1 := by omega
    have h0 : ¬ k = 0 := by omega
    simp [hk, h1, h0]

theorem exec_jalr_x0 : exec s (.jalr 0 rs 0) = s.jump (s.get rs &&& ~~~1) := by
  rw [exec, State.set_x0, State.next, State.jump_jump, show (0 : BitVec 12).signExtend 32 = 0#32 from rfl,
    BitVec.add_zero]

theorem exec_expansion {op : PseudoOp} {c c' : Cursor} {i : Instr} (h : Expansion ctx op c i c') :
    ∃ act, Means ctx op c act c' ∧ ∀ s : State, s.pc = ctx.pc → exec s i = act s := by
  cases h with
  | move hrd hrs => exact ⟨_, .move hrd hrs, fun s _ => exec_move _⟩
  | zero hrs hv => exact ⟨_, .zero hrs hv, fun s hpc => by rw [exec_zero, hpc]⟩
  | swap hrs hrt hv => exact ⟨_, .swap hrs hrt hv, fun s hpc => by rw [exec_swap, hpc]⟩
  | subi hrd hrs hv himm =>
    refine ⟨_, .subi hrd hrs hv, fun s _ => ?_⟩
    rw [exec, ImmOp.eval, ← himm, BitVec.sub_eq_add_neg]
  | j hv =>
    refine ⟨_, .j hv, fun s hpc => ?_⟩
    rw [exec, State.set_x0, State.next, State.jump_jump, add_sub_pc, distance_eq_and, ← sub_and_one, hpc,
      BitVec.sub_eq_add_neg, BitVec.sub_eq_add_neg, BitVec.add_assoc]
  | jr hrs =>
    refine ⟨_, .jr hrs, fun s _ => ?_⟩
    rw [exec_jalr_x0]
  | ret =>
    refine ⟨_, .ret, fun s _ => ?_⟩
    rw [exec_jalr_x0]
  | nop => exact ⟨_, .nop, fun s _ => State.set_zero⟩
  | csrr hrd hv =>
    refine ⟨_, .csrr hrd hv, fun s _ => ?_⟩
    show (s.setCsr _ (s.csrs _ ||| 0#32)).set _ _ = _
    rw [BitVec.or_zero, State.setCsr_self]
  | csr hv hcomma hrs => exact ⟨_, .csr hv hcomma hrs, fun s _ => State.set_zero⟩
  | csri hv hcomma himm => exact ⟨_, .csri hv hcomma himm, fun s _ => State.set_zero⟩
  | counter hrd =>
    refine ⟨_, .counter hrd, fun s _ => ?_⟩
    show (s.setCsr _ (s.csrs _ ||| 0#32)).set _ _ = _
    rw [BitVec.or_zero, State.setCsr_self]

end Meaning

/-- **The word of a pseudo-instruction does what its name promises.** -/
theorem step_pseudo {ctx : Context} {c c' : Cursor} {allocate : Nat → Nat} {ws : List Word} (hfinal : ctx.Final)
    (op : PseudoOp) {token : Word} (htoken : rv32iMnemonicTable.value? op.name.toList = some token)
    (h : rv32iMnemonic ctx allocate token c = (.ok ws, c')) :
    ∃ act, Means ctx op c act c' ∧
      ∀ s : State, s.pc = ctx.pc → Installed s.mem s.pc ws → step s = some (act s) := by
  obtain rfl : pseudoTokenOf op = token := Option.some.inj ((value_pseudoTokenOf op).symm.trans htoken)
  obtain ⟨i, hi, rfl⟩ := (expansion_ok hfinal op).1 h
  obtain ⟨act, hmeans, hexec⟩ := exec_expansion ctx hi
  exact ⟨act, hmeans, fun s hpc hinst => (step_encode hinst.1).trans (congrArg some (hexec s hpc))⟩

theorem step_bgt : ∃ act, Means (lineOnly "a0, a1, 8".toList) (.swap .bgt) ⟨0, 0, false⟩ act ⟨9, 0, false⟩ ∧
    ∀ s : State, s.pc = (lineOnly "a0, a1, 8".toList).pc → Installed s.mem s.pc [0x00A5C463] → step s = some (act s) :=
  step_pseudo ⟨rfl, rfl⟩ (.swap .bgt) (value_pseudoTokenOf (.swap .bgt))
    (show rv32iMnemonic (lineOnly "a0, a1, 8".toList) id _ _ = _ by decide +kernel)

end RiscyOS.Rva
