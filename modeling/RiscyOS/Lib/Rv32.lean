import RiscyOS.Lib.Memory

/-!
# The instructions of RV32

The base integer instruction set with the multiplication and CSR extensions, as the manual's tables
have it.

* `Instr` — the instructions.  An immediate is the field that the instruction word has room for, so
  every value of the type is an instruction.  What is added to a register is its sign extension, and
  the offsets of jumps and branches are counted in halfwords.
* `encode`, `decode` — the six formats, as concatenations of fields; `decode_encode` takes them apart
  again.  The immediates of jumps and branches are scrambled in the word.
* `State`, `exec` — what an instruction does to the registers, the program counter and the memory.
-/

set_option autoImplicit false

namespace Rv32

open Memory

/-- A register, by number. -/
abbrev Reg := BitVec 5

/-! ## Instructions -/

/-- What a branch asks of its two registers. -/
inductive Cond where
  | eq | ne | lt | ge | ltu | geu
  deriving DecidableEq, Repr

inductive LoadOp where
  | lb | lh | lw | lbu | lhu
  deriving DecidableEq, Repr

inductive StoreOp where
  | sb | sh | sw
  deriving DecidableEq, Repr

/-- Operations on a register and an immediate. -/
inductive ImmOp where
  | addi | slti | sltiu | xori | ori | andi
  deriving DecidableEq, Repr

/-- Shifts by a fixed amount. -/
inductive ShiftOp where
  | slli | srli | srai
  deriving DecidableEq, Repr

/-- Operations on two registers. -/
inductive RegOp where
  | add | sub | sll | slt | sltu | xor | srl | sra | or | and
  | mul | mulh | mulhsu | mulhu | div | divu | rem | remu
  deriving DecidableEq, Repr

/-- What is done to a control and status register. -/
inductive CsrOp where
  | rw | rs | rc
  deriving DecidableEq, Repr

inductive Instr where
  | lui (rd : Reg) (imm : BitVec 20)
  | auipc (rd : Reg) (imm : BitVec 20)
  | jal (rd : Reg) (offset : BitVec 20)
  | jalr (rd rs : Reg) (imm : BitVec 12)
  | branch (c : Cond) (rs rt : Reg) (offset : BitVec 12)
  | load (op : LoadOp) (rd rs : Reg) (imm : BitVec 12)
  | store (op : StoreOp) (rt rs : Reg) (imm : BitVec 12)
  | imm (op : ImmOp) (rd rs : Reg) (imm : BitVec 12)
  | shift (op : ShiftOp) (rd rs : Reg) (shamt : BitVec 5)
  | reg (op : RegOp) (rd rs rt : Reg)
  | csr (op : CsrOp) (rd rs : Reg) (csr : BitVec 12)
  | csri (op : CsrOp) (rd : Reg) (imm : BitVec 5) (csr : BitVec 12)
  deriving DecidableEq, Repr

/-! The names that assemblers have for them. -/

def Cond.name : Cond → String
  | .eq => "beq" | .ne => "bne" | .lt => "blt" | .ge => "bge" | .ltu => "bltu" | .geu => "bgeu"

def LoadOp.name : LoadOp → String
  | .lb => "lb" | .lh => "lh" | .lw => "lw" | .lbu => "lbu" | .lhu => "lhu"

def StoreOp.name : StoreOp → String
  | .sb => "sb" | .sh => "sh" | .sw => "sw"

def ImmOp.name : ImmOp → String
  | .addi => "addi" | .slti => "slti" | .sltiu => "sltiu" | .xori => "xori" | .ori => "ori" | .andi => "andi"

def ShiftOp.name : ShiftOp → String
  | .slli => "slli" | .srli => "srli" | .srai => "srai"

def RegOp.name : RegOp → String
  | .add => "add" | .sub => "sub" | .sll => "sll" | .slt => "slt" | .sltu => "sltu" | .xor => "xor"
  | .srl => "srl" | .sra => "sra" | .or => "or" | .and => "and" | .mul => "mul" | .mulh => "mulh"
  | .mulhsu => "mulhsu" | .mulhu => "mulhu" | .div => "div" | .divu => "divu" | .rem => "rem" | .remu => "remu"

def CsrOp.name : CsrOp → String
  | .rw => "csrrw" | .rs => "csrrs" | .rc => "csrrc"

/-- Of the variant with an immediate. -/
def CsrOp.nameImm : CsrOp → String
  | .rw => "csrrwi" | .rs => "csrrsi" | .rc => "csrrci"

/-- The operation of an instruction. -/
inductive Mnemonic where
  | lui | auipc | jal | jalr
  | branch (c : Cond)
  | load (op : LoadOp)
  | store (op : StoreOp)
  | imm (op : ImmOp)
  | shift (op : ShiftOp)
  | reg (op : RegOp)
  | csr (op : CsrOp)
  | csri (op : CsrOp)
  deriving DecidableEq, Repr

def Mnemonic.name : Mnemonic → String
  | lui => "lui" | auipc => "auipc" | jal => "jal" | jalr => "jalr"
  | branch c => c.name
  | load op => op.name
  | store op => op.name
  | imm op => op.name
  | shift op => op.name
  | reg op => op.name
  | csr op => op.name
  | csri op => op.nameImm

/-! ## Formats -/

/-- The fields of an instruction of R-type. -/
def rType (funct7 : BitVec 7) (rt rs : Reg) (funct3 : BitVec 3) (rd : Reg) (opcode : BitVec 7) : Word :=
  funct7 ++ rt ++ rs ++ funct3 ++ rd ++ opcode

def iType (imm : BitVec 12) (rs : Reg) (funct3 : BitVec 3) (rd : Reg) (opcode : BitVec 7) : Word :=
  imm ++ rs ++ funct3 ++ rd ++ opcode

def sType (imm : BitVec 12) (rt rs : Reg) (funct3 : BitVec 3) (opcode : BitVec 7) : Word :=
  imm.extractLsb' 5 7 ++ rt ++ rs ++ funct3 ++ imm.extractLsb' 0 5 ++ opcode

/-- The offset is in halfwords. -/
def bType (offset : BitVec 12) (rt rs : Reg) (funct3 : BitVec 3) (opcode : BitVec 7) : Word :=
  offset.extractLsb' 11 1 ++ offset.extractLsb' 4 6 ++ rt ++ rs ++ funct3 ++ offset.extractLsb' 0 4 ++
    offset.extractLsb' 10 1 ++ opcode

def uType (imm : BitVec 20) (rd : Reg) (opcode : BitVec 7) : Word := imm ++ rd ++ opcode

/-- The offset is in halfwords. -/
def jType (offset : BitVec 20) (rd : Reg) (opcode : BitVec 7) : Word :=
  offset.extractLsb' 19 1 ++ offset.extractLsb' 0 10 ++ offset.extractLsb' 10 1 ++
    offset.extractLsb' 11 8 ++ rd ++ opcode

/-- The fields of a word, which are the same ones in all formats that have them. -/
def opcode (w : Word) : BitVec 7 := w.extractLsb' 0 7
def rd (w : Word) : Reg := w.extractLsb' 7 5
def funct3 (w : Word) : BitVec 3 := w.extractLsb' 12 3
def rs (w : Word) : Reg := w.extractLsb' 15 5
def rt (w : Word) : Reg := w.extractLsb' 20 5
def funct7 (w : Word) : BitVec 7 := w.extractLsb' 25 7
def iImm (w : Word) : BitVec 12 := w.extractLsb' 20 12
def sImm (w : Word) : BitVec 12 := w.extractLsb' 25 7 ++ w.extractLsb' 7 5
def bOffset (w : Word) : BitVec 12 :=
  w.extractLsb' 31 1 ++ w.extractLsb' 7 1 ++ w.extractLsb' 25 6 ++ w.extractLsb' 8 4
def uImm (w : Word) : BitVec 20 := w.extractLsb' 12 20
def jOffset (w : Word) : BitVec 20 :=
  w.extractLsb' 31 1 ++ w.extractLsb' 12 8 ++ w.extractLsb' 20 1 ++ w.extractLsb' 21 10

section Fields

variable {f7 op : BitVec 7} {t s d : Reg} {f3 : BitVec 3} {i : BitVec 12} {u : BitVec 20}

@[simp] theorem fields_rType : opcode (rType f7 t s f3 d op) = op ∧ rd (rType f7 t s f3 d op) = d ∧
    funct3 (rType f7 t s f3 d op) = f3 ∧ rs (rType f7 t s f3 d op) = s ∧ rt (rType f7 t s f3 d op) = t ∧
    funct7 (rType f7 t s f3 d op) = f7 := by
  refine ⟨?_, ?_, ?_, ?_, ?_, ?_⟩ <;>
  · apply BitVec.eq_of_getLsbD_eq
    intro k hk
    simp only [opcode, rd, funct3, rs, rt, funct7, rType, BitVec.getLsbD_extractLsb', BitVec.getLsbD_append]
    grind

@[simp] theorem fields_iType : opcode (iType i s f3 d op) = op ∧ rd (iType i s f3 d op) = d ∧
    funct3 (iType i s f3 d op) = f3 ∧ rs (iType i s f3 d op) = s ∧ iImm (iType i s f3 d op) = i := by
  refine ⟨?_, ?_, ?_, ?_, ?_⟩ <;>
  · apply BitVec.eq_of_getLsbD_eq
    intro k hk
    simp only [opcode, rd, funct3, rs, iImm, iType, BitVec.getLsbD_extractLsb', BitVec.getLsbD_append]
    grind

@[simp] theorem fields_sType : opcode (sType i t s f3 op) = op ∧ funct3 (sType i t s f3 op) = f3 ∧
    rs (sType i t s f3 op) = s ∧ rt (sType i t s f3 op) = t ∧ sImm (sType i t s f3 op) = i := by
  refine ⟨?_, ?_, ?_, ?_, ?_⟩ <;>
  · apply BitVec.eq_of_getLsbD_eq
    intro k hk
    simp only [opcode, funct3, rs, rt, sImm, sType, BitVec.getLsbD_extractLsb', BitVec.getLsbD_append]
    grind

@[simp] theorem fields_bType : opcode (bType i t s f3 op) = op ∧ funct3 (bType i t s f3 op) = f3 ∧
    rs (bType i t s f3 op) = s ∧ rt (bType i t s f3 op) = t ∧ bOffset (bType i t s f3 op) = i := by
  refine ⟨?_, ?_, ?_, ?_, ?_⟩ <;>
  · apply BitVec.eq_of_getLsbD_eq
    intro k hk
    simp only [opcode, funct3, rs, rt, bOffset, bType, BitVec.getLsbD_extractLsb', BitVec.getLsbD_append]
    grind

@[simp] theorem fields_uType : opcode (uType u d op) = op ∧ rd (uType u d op) = d ∧
    uImm (uType u d op) = u := by
  refine ⟨?_, ?_, ?_⟩ <;>
  · apply BitVec.eq_of_getLsbD_eq
    intro k hk
    simp only [opcode, rd, uImm, uType, BitVec.getLsbD_extractLsb', BitVec.getLsbD_append]
    grind

@[simp] theorem fields_jType : opcode (jType u d op) = op ∧ rd (jType u d op) = d ∧
    jOffset (jType u d op) = u := by
  refine ⟨?_, ?_, ?_⟩ <;>
  · apply BitVec.eq_of_getLsbD_eq
    intro k hk
    simp only [opcode, rd, jOffset, jType, BitVec.getLsbD_extractLsb', BitVec.getLsbD_append]
    grind

end Fields

/-! ## Encoding -/

def Cond.funct3 : Cond → BitVec 3
  | .eq => 0 | .ne => 1 | .lt => 4 | .ge => 5 | .ltu => 6 | .geu => 7

def LoadOp.funct3 : LoadOp → BitVec 3
  | .lb => 0 | .lh => 1 | .lw => 2 | .lbu => 4 | .lhu => 5

def StoreOp.funct3 : StoreOp → BitVec 3
  | .sb => 0 | .sh => 1 | .sw => 2

def ImmOp.funct3 : ImmOp → BitVec 3
  | .addi => 0 | .slti => 2 | .sltiu => 3 | .xori => 4 | .ori => 6 | .andi => 7

/-- Of the two fields, the higher one tells the shifts to the right apart. -/
def ShiftOp.functs : ShiftOp → BitVec 7 × BitVec 3
  | .slli => (0x00, 1) | .srli => (0x00, 5) | .srai => (0x20, 5)

def RegOp.functs : RegOp → BitVec 7 × BitVec 3
  | .add => (0x00, 0) | .sub => (0x20, 0) | .sll => (0x00, 1) | .slt => (0x00, 2) | .sltu => (0x00, 3)
  | .xor => (0x00, 4) | .srl => (0x00, 5) | .sra => (0x20, 5) | .or => (0x00, 6) | .and => (0x00, 7)
  | .mul => (0x01, 0) | .mulh => (0x01, 1) | .mulhsu => (0x01, 2) | .mulhu => (0x01, 3)
  | .div => (0x01, 4) | .divu => (0x01, 5) | .rem => (0x01, 6) | .remu => (0x01, 7)

/-- The variants with an immediate for a register are those with `4` added. -/
def CsrOp.funct3 : CsrOp → BitVec 3
  | .rw => 1 | .rs => 2 | .rc => 3

/-- **An instruction as a word.** -/
def encode : Instr → Word
  | .lui rd imm => uType imm rd 0x37
  | .auipc rd imm => uType imm rd 0x17
  | .jal rd offset => jType offset rd 0x6f
  | .jalr rd rs imm => iType imm rs 0 rd 0x67
  | .branch c rs rt offset => bType offset rt rs c.funct3 0x63
  | .load op rd rs imm => iType imm rs op.funct3 rd 0x03
  | .store op rt rs imm => sType imm rt rs op.funct3 0x23
  | .imm op rd rs imm => iType imm rs op.funct3 rd 0x13
  | .shift op rd rs shamt => rType op.functs.1 shamt rs op.functs.2 rd 0x13
  | .reg op rd rs rt => rType op.functs.1 rt rs op.functs.2 rd 0x33
  | .csr op rd rs csr => iType csr rs op.funct3 rd 0x73
  | .csri op rd imm csr => iType csr imm (op.funct3 + 4) rd 0x73

/-! ## Decoding -/

def Cond.ofFunct3 : BitVec 3 → Option Cond
  | 0 => some .eq | 1 => some .ne | 4 => some .lt | 5 => some .ge | 6 => some .ltu | 7 => some .geu
  | _ => none

def LoadOp.ofFunct3 : BitVec 3 → Option LoadOp
  | 0 => some .lb | 1 => some .lh | 2 => some .lw | 4 => some .lbu | 5 => some .lhu
  | _ => none

def StoreOp.ofFunct3 : BitVec 3 → Option StoreOp
  | 0 => some .sb | 1 => some .sh | 2 => some .sw
  | _ => none

def RegOp.ofFuncts : BitVec 7 → BitVec 3 → Option RegOp
  | 0x00, 0 => some .add | 0x20, 0 => some .sub | 0x00, 1 => some .sll | 0x00, 2 => some .slt
  | 0x00, 3 => some .sltu | 0x00, 4 => some .xor | 0x00, 5 => some .srl | 0x20, 5 => some .sra
  | 0x00, 6 => some .or | 0x00, 7 => some .and
  | 0x01, 0 => some .mul | 0x01, 1 => some .mulh | 0x01, 2 => some .mulhsu | 0x01, 3 => some .mulhu
  | 0x01, 4 => some .div | 0x01, 5 => some .divu | 0x01, 6 => some .rem | 0x01, 7 => some .remu
  | _, _ => none

/-- The operations with an immediate and the shifts share an opcode. -/
def decodeImm (w : Word) : Option Instr :=
  match funct3 w with
  | 0 => some (.imm .addi (rd w) (rs w) (iImm w))
  | 2 => some (.imm .slti (rd w) (rs w) (iImm w))
  | 3 => some (.imm .sltiu (rd w) (rs w) (iImm w))
  | 4 => some (.imm .xori (rd w) (rs w) (iImm w))
  | 6 => some (.imm .ori (rd w) (rs w) (iImm w))
  | 7 => some (.imm .andi (rd w) (rs w) (iImm w))
  | 1 => if funct7 w = 0 then some (.shift .slli (rd w) (rs w) (rt w)) else none
  | _ =>
    if funct7 w = 0 then some (.shift .srli (rd w) (rs w) (rt w))
    else if funct7 w = 0x20 then some (.shift .srai (rd w) (rs w) (rt w))
    else none

def decodeSystem (w : Word) : Option Instr :=
  match funct3 w with
  | 1 => some (.csr .rw (rd w) (rs w) (iImm w))
  | 2 => some (.csr .rs (rd w) (rs w) (iImm w))
  | 3 => some (.csr .rc (rd w) (rs w) (iImm w))
  | 5 => some (.csri .rw (rd w) (rs w) (iImm w))
  | 6 => some (.csri .rs (rd w) (rs w) (iImm w))
  | 7 => some (.csri .rc (rd w) (rs w) (iImm w))
  | _ => none

/-- **The instruction of a word**, if it is one of these. -/
def decode (w : Word) : Option Instr :=
  match opcode w with
  | 0x37 => some (.lui (rd w) (uImm w))
  | 0x17 => some (.auipc (rd w) (uImm w))
  | 0x6f => some (.jal (rd w) (jOffset w))
  | 0x67 => if funct3 w = 0 then some (.jalr (rd w) (rs w) (iImm w)) else none
  | 0x63 => (Cond.ofFunct3 (funct3 w)).map fun c => .branch c (rs w) (rt w) (bOffset w)
  | 0x03 => (LoadOp.ofFunct3 (funct3 w)).map fun op => .load op (rd w) (rs w) (iImm w)
  | 0x23 => (StoreOp.ofFunct3 (funct3 w)).map fun op => .store op (rt w) (rs w) (sImm w)
  | 0x13 => decodeImm w
  | 0x33 => (RegOp.ofFuncts (funct7 w) (funct3 w)).map fun op => .reg op (rd w) (rs w) (rt w)
  | 0x73 => decodeSystem w
  | _ => none

/-- **Decoding an encoded instruction** gives it back. -/
theorem decode_encode (i : Instr) : decode (encode i) = some i := by
  cases i with
  | lui | auipc | jal | jalr => simp [decode, encode]
  | branch c => cases c <;> simp [decode, encode, Cond.funct3, Cond.ofFunct3]
  | load op => cases op <;> simp [decode, encode, LoadOp.funct3, LoadOp.ofFunct3]
  | store op => cases op <;> simp [decode, encode, StoreOp.funct3, StoreOp.ofFunct3]
  | imm op => cases op <;> simp [decode, encode, decodeImm, ImmOp.funct3]
  | shift op => cases op <;> simp [decode, encode, decodeImm, ShiftOp.functs]
  | reg op => cases op <;> simp [decode, encode, RegOp.functs, RegOp.ofFuncts]
  | csr op => cases op <;> simp [decode, encode, decodeSystem, CsrOp.funct3]
  | csri op => cases op <;> simp [decode, encode, decodeSystem, CsrOp.funct3]

/-! ## Halves of a word

A word is loaded, or reached, with an upper immediate and a lower one.  As the lower one has a sign, the upper
one is one more where that is negative. -/

/-- What the upper immediates stand for. -/
def upperImm (imm : BitVec 20) : Word := imm ++ 0#12

def hi20 (v : Word) : BitVec 20 := (v + 0x800).extractLsb' 12 20

def lo12 (v : Word) : BitVec 12 := v.setWidth 12

theorem toNat_upperImm (imm : BitVec 20) : (upperImm imm).toNat = imm.toNat * 4096 := by
  rw [upperImm, BitVec.toNat_append]
  simp [Nat.shiftLeft_eq]

theorem toNat_signExtend {n : Nat} (hn : n ≤ 32) (x : BitVec n) : (x.signExtend 32).toNat =
    if x.toNat < 2 ^ (n - 1) then x.toNat else x.toNat + (2 ^ 32 - 2 ^ n) := by
  have hlt : x.toNat < 2 ^ 32 := Nat.lt_of_lt_of_le x.isLt (Nat.pow_le_pow_right Nat.two_pos hn)
  rw [BitVec.toNat_signExtend, BitVec.msb_eq_decide, BitVec.toNat_setWidth, Nat.mod_eq_of_lt hlt]
  by_cases h : x.toNat < 2 ^ (n - 1)
  · simp [h, Nat.not_le.2 h]
  · simp [h, Nat.le_of_not_lt h]

theorem toNat_hi20 (v : Word) : (hi20 v).toNat = (v.toNat + 2048) % 2 ^ 32 / 4096 := by
  have hlt := (v + 0x800).isLt
  rw [hi20, BitVec.extractLsb'_toNat, BitVec.toNat_add, Nat.shiftRight_eq_div_pow]
  simp
  omega

/-- **A word is an upper immediate and a lower one with its sign**, in one way only. -/
theorem upperImm_add_iff {hi : BitVec 20} {lo : BitVec 12} {v : Word} :
    upperImm hi + lo.signExtend 32 = v ↔ hi = hi20 v ∧ lo = lo12 v := by
  have hhi := hi.isLt
  have hlo := lo.isLt
  have hv := v.isLt
  rw [← BitVec.toNat_inj, ← BitVec.toNat_inj, ← BitVec.toNat_inj, BitVec.toNat_add, toNat_upperImm,
    toNat_signExtend (by decide), toNat_hi20, lo12, BitVec.toNat_setWidth]
  split <;> omega

theorem upperImm_hi20_add (v : Word) : upperImm (hi20 v) + (lo12 v).signExtend 32 = v :=
  upperImm_add_iff.2 ⟨rfl, rfl⟩

/-! ## Execution -/

/-- The registers, the program counter and the memory.  The control and status registers are plain ones here. -/
structure State where
  regs : Reg → Word
  csrs : BitVec 12 → Word
  pc : Word
  mem : Mem

namespace State

/-- A register read; `x0` reads as zero. -/
def get (s : State) (r : Reg) : Word := if r = 0 then 0 else s.regs r

/-- A register written, and on to the next instruction.  What is written to `x0` is lost. -/
def set (s : State) (r : Reg) (v : Word) : State :=
  { s with regs := fun q => if q = r ∧ r ≠ 0 then v else s.regs q, pc := s.pc + 4 }

/-- A control and status register written. -/
def setCsr (s : State) (n : BitVec 12) (v : Word) : State := { s with csrs := fun k => if k = n then v else s.csrs k }

/-- On to some other instruction. -/
def jump (s : State) (a : Word) : State := { s with pc := a }

/-- On to the next instruction. -/
def next (s : State) : State := s.jump (s.pc + 4)

variable {s : State} {q r : Reg} {v v' a b : Word}

@[simp] theorem get_set_self (h : r ≠ 0) : (s.set r v).get r = v := by
  rw [get, if_neg h]
  exact if_pos ⟨rfl, h⟩

@[simp] theorem get_set_of_ne (h : q ≠ r) : (s.set r v).get q = s.get q := by
  rw [get, get, set]
  exact congrArg _ (if_neg fun hq => h hq.1)

@[simp] theorem get_zero : s.get 0#5 = 0#32 := rfl

@[simp] theorem set_zero : s.set 0#5 v = s.next := by simp [set, next, jump]

theorem set_x0 : s.set 0 v = s.next := set_zero

/-- A register written twice. -/
@[simp] theorem set_set : (s.set r v).set r v' = (s.set r v').jump (s.pc + 4 + 4) := by
  simp only [set, jump, State.mk.injEq, and_true]
  funext q
  split <;> rfl

@[simp] theorem setCsr_self (n : BitVec 12) : s.setCsr n (s.csrs n) = s := by
  simp only [setCsr]
  congr
  funext k
  split
  · rename_i hk
    rw [hk]
  · rfl

@[simp] theorem jump_jump : (s.jump a).jump b = s.jump b := rfl

@[simp] theorem jump_pc : s.jump s.pc = s := rfl

@[simp] theorem pc_set : (s.set r v).pc = s.pc + 4 := rfl

@[simp] theorem mem_set : (s.set r v).mem = s.mem := rfl

@[simp] theorem get_jump : (s.jump a).get q = s.get q := rfl

@[simp] theorem pc_jump : (s.jump a).pc = a := rfl

@[simp] theorem mem_jump : (s.jump a).mem = s.mem := rfl

end State

/-- Whether a branch is taken. -/
def Cond.holds (c : Cond) (x y : Word) : Bool :=
  match c with
  | .eq => x = y
  | .ne => x ≠ y
  | .lt => x.toInt < y.toInt
  | .ge => y.toInt ≤ x.toInt
  | .ltu => x < y
  | .geu => y ≤ x

/-- A truth value in a register. -/
def flag (b : Bool) : Word := if b then 1 else 0

def ImmOp.eval (op : ImmOp) (x y : Word) : Word :=
  match op with
  | .addi => x + y
  | .slti => flag (x.toInt < y.toInt)
  | .sltiu => flag (x < y)
  | .xori => x ^^^ y
  | .ori => x ||| y
  | .andi => x &&& y

def ShiftOp.eval (op : ShiftOp) (x : Word) (n : Nat) : Word :=
  match op with
  | .slli => x <<< n
  | .srli => x >>> n
  | .srai => x.sshiftRight n

/-- The upper half of a product. -/
def upper (p : BitVec 64) : Word := p.extractLsb' 32 32

/-- Shifts take five bits of the amount; a division by zero has a result, too. -/
def RegOp.eval (op : RegOp) (x y : Word) : Word :=
  match op with
  | .add => x + y
  | .sub => x - y
  | .sll => x <<< (y.toNat % 32)
  | .slt => flag (x.toInt < y.toInt)
  | .sltu => flag (x < y)
  | .xor => x ^^^ y
  | .srl => x >>> (y.toNat % 32)
  | .sra => x.sshiftRight (y.toNat % 32)
  | .or => x ||| y
  | .and => x &&& y
  | .mul => x * y
  | .mulh => upper (x.signExtend 64 * y.signExtend 64)
  | .mulhsu => upper (x.signExtend 64 * y.setWidth 64)
  | .mulhu => upper (x.setWidth 64 * y.setWidth 64)
  | .div => if y = 0 then -1 else x.sdiv y
  | .divu => if y = 0 then -1 else x / y
  | .rem => if y = 0 then x else x.srem y
  | .remu => if y = 0 then x else x % y

def LoadOp.eval (op : LoadOp) (m : Mem) (a : Word) : Word :=
  match op with
  | .lb => (m a).signExtend 32
  | .lh => (m (a + 1) ++ m a).signExtend 32
  | .lw => load32 m a
  | .lbu => (m a).setWidth 32
  | .lhu => (m (a + 1) ++ m a).setWidth 32

def StoreOp.eval (op : StoreOp) (m : Mem) (a v : Word) : Mem :=
  match op with
  | .sb => store8 m a (byteOf v 0)
  | .sh => store8 (store8 m a (byteOf v 0)) (a + 1) (byteOf v 1)
  | .sw => store32 m a v

/-- How far a jump goes, from an offset in halfwords. -/
def distance {n : Nat} (offset : BitVec n) : Word := (offset ++ 0#1).signExtend 32

/-- What becomes of a control and status register. -/
def CsrOp.eval (op : CsrOp) (x y : Word) : Word :=
  match op with
  | .rw => y
  | .rs => x ||| y
  | .rc => x &&& ~~~y

/-- **One instruction.** -/
def exec (s : State) : Instr → State
  | .lui rd imm => s.set rd (upperImm imm)
  | .auipc rd imm => s.set rd (s.pc + upperImm imm)
  | .jal rd offset => (s.set rd (s.pc + 4)).jump (s.pc + distance offset)
  | .jalr rd rs imm => (s.set rd (s.pc + 4)).jump ((s.get rs + imm.signExtend 32) &&& ~~~1)
  | .branch c rs rt offset =>
    s.jump (if c.holds (s.get rs) (s.get rt) then s.pc + distance offset else s.pc + 4)
  | .load op rd rs imm => s.set rd (op.eval s.mem (s.get rs + imm.signExtend 32))
  | .store op rt rs imm =>
    { s with mem := op.eval s.mem (s.get rs + imm.signExtend 32) (s.get rt), pc := s.pc + 4 }
  | .imm op rd rs imm => s.set rd (op.eval (s.get rs) (imm.signExtend 32))
  | .shift op rd rs shamt => s.set rd (op.eval (s.get rs) shamt.toNat)
  | .reg op rd rs rt => s.set rd (op.eval (s.get rs) (s.get rt))
  | .csr op rd rs csr => (s.setCsr csr (op.eval (s.csrs csr) (s.get rs))).set rd (s.csrs csr)
  | .csri op rd imm csr => (s.setCsr csr (op.eval (s.csrs csr) (imm.setWidth 32))).set rd (s.csrs csr)

/-- **A step**: the instruction at the program counter. -/
def step (s : State) : Option State := (decode (load32 s.mem s.pc)).map (exec s)

/-- Some number of steps. -/
def steps : Nat → State → Option State
  | 0, s => some s
  | n + 1, s => (step s).bind (steps n)

/-- The words are in memory, one after the other, from `a` on. -/
def Installed (m : Mem) : Word → List Word → Prop
  | _, [] => True
  | a, w :: ws => load32 m a = w ∧ Installed m (a + 4) ws

/-- The instruction that is in memory is executed. -/
theorem step_encode {s : State} {i : Instr} (h : load32 s.mem s.pc = encode i) : step s = some (exec s i) := by
  rw [step, h, decode_encode]
  rfl

/-- The two halves of a value, one after the other. -/
theorem exec_addi_set {s : State} {d : Reg} {u : Word} {lo : BitVec 12} :
    exec (s.set d u) (.imm .addi d d lo) = (s.set d (u + lo.signExtend 32)).jump (s.pc + 4 + 4) := by
  rw [exec, ImmOp.eval, State.set_set]
  by_cases hd : d = 0
  · rw [hd, State.set_x0, State.set_x0]
  · rw [State.get_set_self hd]

/-- An instruction that goes on to the next one, and leaves the memory as it is. -/
def Straight (i : Instr) : Prop := ∀ s, (exec s i).mem = s.mem ∧ (exec s i).pc = s.pc + 4

theorem straight_lui (rd : Reg) (imm : BitVec 20) : Straight (.lui rd imm) := fun _ => ⟨rfl, rfl⟩

theorem straight_auipc (rd : Reg) (imm : BitVec 20) : Straight (.auipc rd imm) := fun _ => ⟨rfl, rfl⟩

theorem steps_one {s : State} {i : Instr} (h : Installed s.mem s.pc [encode i]) : steps 1 s = some (exec s i) := by
  rw [steps, step_encode h.1]
  rfl

/-- **Two instructions in memory**, one after the other. -/
theorem steps_pair {s : State} {i j : Instr} (hi : Straight i) (h : Installed s.mem s.pc [encode i, encode j]) :
    steps 2 s = some (exec (exec s i) j) := by
  obtain ⟨hmem, hpc⟩ := hi s
  have hrest : Installed (exec s i).mem (exec s i).pc [encode j] := by
    rw [hmem, hpc]
    exact h.2
  rw [steps, step_encode h.1]
  exact steps_one hrest

end Rv32
