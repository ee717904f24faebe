import RiscyOS.Lib.Memory
import RiscyOS.GasToJim.Assembly

/-!
# What the assembly does

Straight-line execution of a function's body, for both dialects.  They differ in what an operand means:
`%hi(s)` and `%lo(s)` are the two parts of an address for GNU `as`, and what the converter prints for them
is the bare symbol, or for `%lo(s)(r)` the register alone.

The five instructions that the collapsing of addresses is about are given here.  All others are those
of some instruction set (`Isa`), of which no more is known than which registers an instruction reads and
writes.
-/

set_option autoImplicit false

namespace RiscyOS.GasToJim

open Memory

/-- A register. -/
abbrev Reg := Fin 32

instance : LawfulBEq Reg := inferInstance

instance neZeroRegCount : NeZero (31 + 1) := inferInstance

/-- The names of the registers, in order. -/
def abiNames : List Text :=
  ["zero", "ra", "sp", "gp", "tp", "t0", "t1", "t2", "s0", "s1", "a0", "a1", "a2", "a3", "a4", "a5", "a6", "a7",
    "s2", "s3", "s4", "s5", "s6", "s7", "s8", "s9", "s10", "s11", "t3", "t4", "t5", "t6"].map String.toList

/-- The register that a name stands for. -/
def regNumber (t : Text) : Option Reg :=
  if t = "fp".toList then some 8
  else
    match abiNames.idxOf? t with
    | some n => some (Fin.ofNat 32 n)
    | none => (List.finRange 32).find? fun r => t = "x".toList ++ strInt r.val

/-! ## Addresses in two parts -/

/-- `%hi`: what `lui` is to load. -/
def hiPart (a : Word) : Word := (a + 0x800) &&& ~~~0xfff

/-- `%lo`: what is left to add. -/
def loPart (a : Word) : Word := a - hiPart a

/-- The two parts make up the address. -/
theorem hiPart_add_loPart (a : Word) : hiPart a + loPart a = a := by
  rw [loPart, BitVec.add_comm, BitVec.sub_add_cancel]

/-! ## Operands -/

/-- The assembler that reads the text. -/
inductive Dialect
  | gas
  | jim
  deriving DecidableEq

/-- What an instruction is given for an operand. -/
inductive Arg
  | reg (r : Reg)
  | imm (n : Int)
  | mem (a : Word)
  | sym (a : Word)
  deriving DecidableEq

/-- The register that is given by name. -/
def Arg.reg? : Arg → Option Reg
  | .reg r => some r
  | _ => none

/-- The register of an operand that is one. -/
def Operand.reg? (o : Operand) : Option Reg := if o.kind = .register then o.reg.bind regNumber else none

/-- What an operand means, given the addresses of the symbols and the values of the registers. -/
def Operand.arg (d : Dialect) (addr : Text → Word) (regs : Reg → Word) (o : Operand) : Option Arg :=
  match o.kind with
  | .register => (o.reg.bind regNumber).map .reg
  | .immediate => o.imm.map .imm
  | .memory => (o.reg.bind regNumber).map fun r => .mem (regs r + BitVec.ofInt 32 (o.imm.getD 0))
  | .symbol => o.symbol.map fun s => .sym (addr s)
  | .hi | .lo =>
    match d with
    | .gas => none
    | .jim => o.symbol.map fun s => .sym (addr s)
  | .loMem => do
    let r ← o.reg.bind regNumber
    let s ← o.symbol
    match d with
    | .gas => return .mem (regs r + loPart (addr s))
    | .jim => return .mem (regs r)
  | .resolvedMem => none

/-! ## Instructions -/

/-- **An instruction set.**  `run` has the value of each register that is written, the memory, and the
addresses that are accessed; it depends on the registers that are read only. -/
structure Isa where
  reads : Text → List (Option Reg) → List Reg
  writes : Text → List (Option Reg) → List Reg
  run : Text → List Arg → (Reg → Word) → Mem → (Reg → Word) × Mem × List Word
  congr : ∀ op args regs regs' mem, (∀ r ∈ reads op (args.map Arg.reg?), regs r = regs' r) →
    run op args regs mem = run op args regs' mem

/-- The instructions that load and add addresses, and the others. -/
inductive Form
  | lui (d s : Text)
  | addiLo (d r s : Text)
  | addi (d r : Text) (n : Int)
  | mv (d r : Text)
  | la (d s : Text)
  | other
  deriving DecidableEq

/-- Which of them an instruction is. -/
def Instruction.form (i : Instruction) : Form :=
  match i.operands with
  | [⟨.register, _, some d, _, _⟩, ⟨.hi, _, _, _, some s⟩] => if i.op = "lui".toList then .lui d s else .other
  | [⟨.register, _, some d, _, _⟩, ⟨.register, _, some r, _, _⟩, ⟨.lo, _, _, _, some s⟩] =>
    if i.op = "addi".toList then .addiLo d r s else .other
  | [⟨.register, _, some d, _, _⟩, ⟨.register, _, some r, _, _⟩, ⟨.immediate, _, _, some n, _⟩] =>
    if i.op = "addi".toList then .addi d r n else .other
  | [⟨.register, _, some d, _, _⟩, ⟨.register, _, some r, _, _⟩] => if i.op = "mv".toList then .mv d r else .other
  | [⟨.register, _, some d, _, _⟩, ⟨.symbol, _, _, _, some s⟩] => if i.op = "la".toList then .la d s else .other
  | _ => .other

/-- What the execution of a body changes. -/
structure Hart where
  regs : Reg → Word
  mem : Mem
  /-- The addresses accessed so far. -/
  log : List Word

/-- A register is written.  The first one is always zero. -/
def setReg {α : Type} (r : Reg) (x : α) (regs : Reg → α) : Reg → α :=
  if r = 0 then regs else fun q => if q = r then x else regs q

/-- A register by name is written. -/
def Hart.set (st : Hart) (d : Text) (x : Word) : Option Hart :=
  (regNumber d).map fun r => { st with regs := setReg r x st.regs }

/-- A register by name. -/
def Hart.get (st : Hart) (r : Text) : Option Word := (regNumber r).map st.regs

/-- An instruction of the instruction set. -/
def Hart.perform (st : Hart) (isa : Isa) (op : Text) (args : List Arg) : Hart where
  regs r :=
    if r ≠ 0 ∧ r ∈ isa.writes op (args.map Arg.reg?) then (isa.run op args st.regs st.mem).1 r else st.regs r
  mem := (isa.run op args st.regs st.mem).2.1
  log := st.log ++ (isa.run op args st.regs st.mem).2.2

/-- One instruction, or none where the assembler refuses it. -/
def exec (isa : Isa) (d : Dialect) (addr : Text → Word) (i : Instruction) (st : Hart) : Option Hart :=
  match i.form with
  | .lui rd s =>
    match d with
    | .gas => st.set rd (hiPart (addr s))
    | .jim => st.set rd (addr s <<< 12)
  | .addiLo rd rs s => do
    let x ← st.get rs
    match d with
    | .gas => st.set rd (x + loPart (addr s))
    | .jim => st.set rd (x + addr s)
  | .addi rd rs n => do
    let x ← st.get rs
    if -2048 ≤ n ∧ n < 2048 then st.set rd (x + BitVec.ofInt 32 n) else none
  | .mv rd rs => do st.set rd (← st.get rs)
  | .la rd s => st.set rd (addr s)
  | .other => (i.operands.mapM (Operand.arg d addr st.regs)).map fun args => st.perform isa i.op args

/-- **A body**, element after element. -/
def execBody (isa : Isa) (d : Dialect) (addr : Text → Word) : List Node → Hart → Option Hart
  | [], st => some st
  | .instruction i :: rest, st => (exec isa d addr i st).bind (execBody isa d addr rest)
  | _ :: rest, st => execBody isa d addr rest st

theorem execBody_append (isa : Isa) (d : Dialect) (addr : Text → Word) (xs ys : List Node) (st : Hart) :
    execBody isa d addr (xs ++ ys) st = (execBody isa d addr xs st).bind (execBody isa d addr ys) := by
  induction xs generalizing st with
  | nil => rfl
  | cons node xs ih =>
    cases node with
    | instruction i =>
      rw [List.cons_append, execBody, execBody, Option.bind_assoc]
      exact Option.bind_congr fun st' _ => ih st'
    | label | directive => exact ih st

end RiscyOS.GasToJim
