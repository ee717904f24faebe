import RiscyOS.Assembler.Mnemonics

/-!
# Assembling an instruction

`rv32i_mnemonic` of `rva.c`: the operands that a line has behind its mnemonic, and the words that become of
them.  The word is put together out of the fields of the token and those of the operands, as the class of
the token says.

Every operand that is read moves the position on.  An error ends the reading; the C code goes on with
comparisons of its error code in between, which all fail.  Where an error in an expression does not matter
on this pass, its value is used.
-/

set_option autoImplicit false

namespace RiscyOS.Rva

open Memory

/-! ## Errors -/

def symErrSyntax : Word := 0x0100
def symBadReg : Word := 0x0400
def symNoCommaLbr : Word := 0x0600
def symOorange : Word := 0x0800 ||| allExceptLastPass
def symNoComma : Word := 0x0B00
def symNoLbr : Word := 0x1100
def symNoRbr : Word := 0x1200
def symOorangeBranch : Word := 0x2000 ||| allExceptLastPass
def symUnalignedBranch : Word := 0x2100 ||| allExceptLastPass

/-! ## Registers -/

/-- The names of the registers. -/
def registerNames : List (String × Word) :=
  [("x0", 0), ("x1", 1), ("x2", 2), ("x3", 3), ("x4", 4), ("x5", 5), ("x6", 6), ("x7", 7),
    ("x8", 8), ("x9", 9), ("x10", 10), ("x11", 11), ("x12", 12), ("x13", 13), ("x14", 14), ("x15", 15),
    ("x16", 16), ("x17", 17), ("x18", 18), ("x19", 19), ("x20", 20), ("x21", 21), ("x22", 22), ("x23", 23),
    ("x24", 24), ("x25", 25), ("x26", 26), ("x27", 27), ("x28", 28), ("x29", 29), ("x30", 30), ("x31", 31),
    ("zero", 0), ("ra", 1), ("sp", 2), ("gp", 3), ("tp", 4), ("t0", 5), ("t1", 6), ("t2", 7), ("fp", 8),
    ("s0", 8), ("s1", 9), ("a0", 10), ("a1", 11), ("a2", 12), ("a3", 13), ("a4", 14), ("a5", 15),
    ("a6", 16), ("a7", 17), ("s2", 18), ("s3", 19), ("s4", 20), ("s5", 21), ("s6", 22), ("s7", 23),
    ("s8", 24), ("s9", 25), ("s10", 26), ("s11", 27), ("t3", 28), ("t4", 29), ("t5", 30), ("t6", 31)]

/-- A table of registers, which are numbers below 32.  A directive may give one of them another name. -/
structure RegisterTable where
  table : SymTable
  value_lt : ∀ name r, symFindLabel name table = some r → r.value < 32

/-- `register_table`, as it is at first. -/
def registerTable : RegisterTable where
  table := buildTable symTabCaseFlag registerNames
  value_lt name r hfind := by
    rw [buildTable_eq] at hfind
    have hempty : (symCreateTable symTabCaseFlag).All (· < 32) := fun _ _ h => absurd h List.not_mem_nil
    refine (hempty.defineAll fun d hd => ?_).find hfind
    obtain ⟨s, hs, rfl⟩ := List.mem_map.1 hd
    have hlt : ∀ s ∈ registerNames, s.2 < 32 := by decide
    exact hlt s hs

/-! ## Reading operands -/

/-- What an instruction is assembled with. -/
structure Context where
  env : Env
  registers : RegisterTable
  line : Line
  firstPass : Bool
  lastPass : Bool

/-- Where reading has got to on the line, and what it has found out for the pass. -/
structure Cursor where
  position : Nat
  undefinedCount : Nat := 0
  divZeroThisPass : Bool := false
  deriving DecidableEq, Repr

/-- Why reading stops. -/
inductive Stop where
  | error (code : Word)
  | fault (fault : Fault)
  deriving DecidableEq, Repr

/-- Something that reads from the line. -/
def Reader (α : Type) : Type := Cursor → Except Stop α × Cursor

instance : Monad Reader where
  pure a := fun c => (.ok a, c)
  bind r f := fun c =>
    match r c with
    | (.ok a, c) => f a c
    | (.error e, c) => (.error e, c)

/-- `error_code = code`. -/
def fail {α : Type} (code : Word) : Reader α := fun c => (.error (.error code), c)

/-- `error_code = code | position`. -/
def failHere {α : Type} (code : Word) : Reader α := fun c => (.error (.error (code ||| position c.position)), c)

/-- `THING_BUFFER_LENGTH`. -/
def thingBufferLength : Nat := 16

section Operands

variable (ctx : Context)

/-- `get_reg`. -/
def getReg : Reader (Option Word) := fun c =>
  let pos := skipSpc ctx.line c.position
  let buffer := getIdentifier ctx.line pos thingBufferLength
  match if buffer = [] then none else symFindLabel buffer ctx.registers.table with
  | some ptr => (.ok (some ptr.value), { c with position := pos + buffer.length })
  | none => (.ok none, { c with position := pos })

/-- `cmp_next_non_space`. -/
def found (character : Char) : Reader Bool := fun c =>
  let r := cmpNextNonSpace ctx.line c.position character
  (.ok r.1, { c with position := r.2 })

/-- A register that has to be there. -/
def register : Reader Word := do
  match ← getReg ctx with
  | some reg => pure reg
  | none => failHere symBadReg

/-- A character that has to be there. -/
def expect (character : Char) (code : Word) : Reader Unit := do
  if ← found ctx character then pure () else failHere code

def comma : Reader Unit := expect ctx ',' symNoComma

/-- `evaluate` and `allow_error`: the error that is left, and the value. -/
def expression : Reader (Word × Word) := fun c =>
  match evaluate ctx.env ctx.line c.position with
  | .error fault => (.error (.fault fault), c)
  | .ok r =>
    (.ok (if allowError r.error ctx.firstPass ctx.lastPass then evalOkay else r.error, r.value),
      { position := r.pos
        undefinedCount := c.undefinedCount + r.undefinedReads
        divZeroThisPass := c.divZeroThisPass || r.divZero })

/-- An error that there may have been. -/
def settle (error : Word) : Reader Unit := if error = evalOkay then pure () else fail error

/-- An expression whose value is checked, whether there was an error in it or not. -/
def checked (valid : Word → Bool) (code : Word) : Reader Word := do
  let r ← expression ctx
  if valid r.2 then
    settle r.1
    pure r.2
  else fail code

/-- An expression whose value is checked if there was no error in it. -/
def settled (valid : Word → Bool) (code : Word) : Reader Word := do
  let r ← expression ctx
  settle r.1
  if valid r.2 then pure r.2 else fail code

/-- The bits above these are all the same. -/
def inRange (mask value : Word) : Bool := value &&& mask = 0 ∨ value &&& mask = mask

/-- An expression for where to go to, as an offset from here. -/
def offsetTo (mask : Word) : Reader Word := do
  let r ← expression ctx
  let value := r.2 - ctx.env.assemblyPointer
  if value &&& 1 ≠ 0 then fail symUnalignedBranch
  else if inRange mask value then
    settle r.1
    pure value
  else fail symOorangeBranch

end Operands

/-! ## Fields -/

/-- The opcode out of a token. -/
def opField (token : Word) : Word := ((token &&& 0x01F00000) >>> 18) ||| 0x00000003

/-- The function out of a token. -/
def functField (token : Word) : Word := (token &&& 0x0E000000) >>> 13

/-- The higher function out of a token. -/
def functsField (token : Word) : Word := (token &&& 0x00007F00) <<< 17

/-- `imm_jal`. -/
def immJal (value : Word) : Word :=
  ((value &&& 0x100000) <<< 11) ||| (value &&& (0x0FF000 : Word)) ||| ((value &&& 0x000800) <<< 9) |||
    ((value &&& 0x0007FE) <<< 20)

/-- The scrambled offset of a branch. -/
def immBranch (value : Word) : Word :=
  ((value &&& 0x1000) <<< 19) ||| ((value &&& 0x0800) >>> 4) ||| ((value &&& 0x07E0) <<< 20) |||
    ((value &&& 0x001E) <<< 7)

/-- Twelve bits with a sign. -/
def signed12 : Word → Bool := inRange 0xFFFFF800

/-! ## The classes -/

section Classes

variable (ctx : Context)

/-- U-type. -/
def uMnemonic (token : Word) : Reader Word := do
  let reg ← register ctx
  comma ctx
  let value ← checked ctx (fun value => value &&& 0x00000FFF = 0) symOorange
  pure (opField token ||| (reg <<< 7) ||| value)

/-- J-type.  The register may be left out. -/
def jMnemonic (token : Word) : Reader Word := do
  let reg ← getReg ctx
  match reg with
  | some reg => do
    comma ctx
    let value ← offsetTo ctx 0xFFF00000
    pure (opField token ||| (reg <<< 7) ||| immJal value)
  | none => do
    let value ← offsetTo ctx 0xFFF00000
    pure (opField token ||| ((1 : Word) <<< 7) ||| immJal value)

/-- I-type.  There is an alternate code for subtraction, and shifts have less of an immediate. -/
def iMnemonic (token : Word) : Reader Word := do
  let rd ← register ctx
  comma ctx
  let rs ← register ctx
  comma ctx
  let r ← expression ctx
  let value := if token &&& 0x10000000 ≠ 0 then -r.2 else r.2
  let opCode := opField token ||| functField token ||| (rd <<< 7) ||| (rs <<< 15)
  if token &&& 0x06000000 = 0x02000000 then
    if value &&& 0xFFFFFFE0 = 0 then
      settle r.1
      pure (opCode ||| functsField token ||| ((value &&& 0x0000001F) <<< 20))
    else fail symOorange
  else if signed12 value then
    settle r.1
    pure (opCode ||| ((value &&& 0x00000FFF) <<< 20))
  else fail symOorange

/-- B-type.  The two registers are exchanged for the comparisons that the machine does not have. -/
def bMnemonic (token : Word) : Reader Word := do
  let a ← register ctx
  comma ctx
  let b ← register ctx
  comma ctx
  let value ← offsetTo ctx 0xFFFFF000
  let opCode := opField token ||| functField token
  if token &&& 0xF0000000 ≠ 0 then pure (opCode ||| (a <<< 20) ||| (b <<< 15) ||| immBranch value)
  else pure (opCode ||| (a <<< 15) ||| (b <<< 20) ||| immBranch value)

/-- R-type. -/
def rMnemonic (token : Word) : Reader Word := do
  let rd ← register ctx
  comma ctx
  let rs ← register ctx
  comma ctx
  let rt ← register ctx
  pure (opField token ||| functField token ||| functsField token ||| (rd <<< 7) ||| (rs <<< 15) ||| (rt <<< 20))

/-- What `addr_mode` finds: the instruction that goes before, if there is one, and the fields. -/
structure Address where
  first : Option Word
  reg : Word
  offset : Word
  deriving DecidableEq, Repr

/-- The base register, up to its bracket and a character more. -/
def baseRegister : Reader Word := do
  match ← getReg ctx with
  | none => failHere symErrSyntax
  | some reg => do
    expect ctx ']' symNoRbr
    fun c => (.ok reg, { c with position := c.position + 1 })

/-- The upper part of an offset, as `AUIPC` needs it for a lower part with a sign. -/
def upperPart (offset : Word) : Word :=
  if offset &&& 0x00000800 = 0 then offset &&& 0xFFFFF000 else (offset &&& 0xFFFFF000) + 0x00001000

/-- `addr_mode`: `[reg]`, `offset[reg]`, or the address itself, which takes a register and another
instruction.  A load has a register for that already; a store names one. -/
def addrMode (token opCode : Word) : Reader Address := do
  if ← found ctx '[' then
    let reg ← baseRegister ctx
    pure ⟨none, reg, 0⟩
  else
    let r ← expression ctx
    settle r.1
    if ← found ctx '[' then
      let reg ← baseRegister ctx
      if signed12 r.2 then pure ⟨none, reg, r.2⟩ else fail symOorange
    else if token &&& 0x0FFF0000 = 0x01950000 then failHere symNoLbr
    else do
      let offset := r.2 - ctx.env.assemblyPointer
      let auipc (reg : Word) : Word := (0x00000017 : Word) ||| (reg <<< 7) ||| upperPart offset
      if token &&& 0x000F0000 = 0x00040000 then
        expect ctx ',' symNoCommaLbr
        let reg ← register ctx
        pure ⟨some (auipc reg), reg, offset⟩
      else
        let reg := (opCode >>> 7) &&& 0x1F
        pure ⟨some (auipc reg), reg, offset⟩

/-- What `addr_mode` returns. -/
def Address.packed (a : Address) : Word := (a.reg <<< 16) ||| (a.offset &&& 0x00000FFF)

/-- The instruction, with the one before it. -/
def Address.words (a : Address) (opCode : Word) : List Word := a.first.toList ++ [opCode]

/-- S-type. -/
def sMnemonic (token : Word) : Reader (List Word) := do
  let reg ← register ctx
  comma ctx
  let opCode := opField token ||| functField token ||| (reg <<< 20)
  let a ← addrMode ctx token opCode
  let value := a.packed
  pure (a.words (opCode ||| ((value &&& 0xFE0) <<< 20) ||| ((value &&& 0x01F) <<< 7) |||
    ((value &&& 0x001F0000) >>> 1)))

/-- Loads and `JALR`, which may be without a link register. -/
def loadMnemonic (token : Word) : Reader (List Word) := do
  let reg ← register ctx
  let opCode := opField token ||| functField token
  if ← found ctx ',' then
    let opCode := opCode ||| (reg <<< 7)
    let a ← addrMode ctx token opCode
    let value := a.packed
    pure (a.words (opCode ||| ((value &&& 0xFFF) <<< 20) ||| ((value &&& 0x001F0000) >>> 1)))
  else if token &&& 0x0FF00000 = 0x01900000 then pure [opCode ||| (reg <<< 15) ||| 0x080]
  else failHere symNoComma

/-- The letters of one side of a fence, and how many there are with the blanks between. -/
def hedge : Line → Word → Nat → Word × Nat
  | [], fields, n => (fields, n)
  | c :: rest, fields, n =>
    if isBlank c then hedge rest fields (n + 1)
    else if upperCase c = 'I' then hedge rest (fields ||| 8) (n + 1)
    else if upperCase c = 'O' then hedge rest (fields ||| 4) (n + 1)
    else if upperCase c = 'R' then hedge rest (fields ||| 2) (n + 1)
    else if upperCase c = 'W' then hedge rest (fields ||| 1) (n + 1)
    else (fields, n)

def hedgeFields : Reader Word := fun c =>
  let r := hedge (ctx.line.drop c.position) 0 0
  (.ok r.1, { c with position := c.position + r.2 })

/-- `FENCE`. -/
def fenceMnemonic (token : Word) : Reader Word := do
  let opCode := 0x0000000F ||| functField token
  if token &&& 0x0E000000 = 0 then
    let fields ← hedgeFields ctx
    if fields = 0 then pure (opCode ||| 0x0FF00000)
    else
      comma ctx
      let fields' ← hedgeFields ctx
      if fields' = 0 then failHere symErrSyntax else pure (opCode ||| (fields <<< 24) ||| (fields' <<< 20))
  else pure opCode

/-- `parse_csr`. -/
def parseCsr : Reader Word := do
  let value ← settled ctx (fun value => value &&& 0xFFFFF000 = 0) symOorange
  pure (value <<< 20)

/-- `parse_csr2`: a register or an immediate. -/
def parseCsr2 (token : Word) : Reader Word := do
  if token &&& 0x10000000 = 0 then
    let reg ← register ctx
    pure (reg <<< 15)
  else
    let value ← settled ctx (fun value => value &&& 0xFFFFFFE0 = 0) symOorange
    pure (value <<< 15)

/-- The CSR instructions. -/
def csrMnemonic (token : Word) : Reader Word := do
  let reg ← register ctx
  comma ctx
  let csr ← parseCsr ctx
  comma ctx
  let src ← parseCsr2 ctx token
  pure (opField token ||| functField token ||| (reg <<< 7) ||| csr ||| src)

/-! Pseudo-instructions of one word. -/

/-- Without operands. -/
def plainPseudo (token : Word) : Word :=
  if token &&& 0xF0000000 = 0x00000000 then 0x00000013
  else if token &&& 0xF0000000 = 0x10000000 then 0x00008067
  else if token &&& 0xF0000000 = 0x20000000 then 0x00000000
  else 0x00000013

/-- `JR`. -/
def jrPseudo : Reader Word := do
  let reg ← register ctx
  pure ((0x00000067 : Word) ||| (reg <<< 15))

/-- `J`, which has no check that the offset is even. -/
def jPseudo : Reader Word := do
  let r ← expression ctx
  let value := r.2 - ctx.env.assemblyPointer
  if inRange 0xFFF00000 value then
    settle r.1
    pure (immJal value ||| 0x0000006F)
  else fail symOorangeBranch

/-- What is kept of the operands of a pseudo-instruction on registers, and what is added. -/
def movePatterns (token : Word) : Word × Word :=
  if token &&& 0xF0000000 = 0x00000000 then (0x000FFF80, 0x00000013)
  else if token &&& 0xF0000000 = 0x10000000 then (0x000FFF80, 0xFFF04013)
  else if token &&& 0xF0000000 = 0x20000000 then (0x01F07F80, 0x40000033)
  else if token &&& 0xF0000000 = 0x30000000 then (0x01F07F80, 0x4000003B)
  else if token &&& 0xF0000000 = 0x40000000 then (0x000FFF80, 0x0000001B)
  else if token &&& 0xF0000000 = 0x50000000 then (0x000FFF80, 0x00103013)
  else if token &&& 0xF0000000 = 0x60000000 then (0x01F07F80, 0x00003033)
  else if token &&& 0xF0000000 = 0x70000000 then (0x000FFF80, 0x00002033)
  else if token &&& 0xF0000000 = 0x80000000 then (0x01F07F80, 0x00002033)
  else (0, 0x00000013)

/-- `MV`, `NOT` and so on. -/
def movePseudo (token : Word) : Reader Word := do
  let rd ← register ctx
  comma ctx
  let rs ← register ctx
  let opCode := (rd <<< 7) ||| (rs <<< 15) ||| (rs <<< 20)
  pure ((opCode &&& (movePatterns token).1) ||| (movePatterns token).2)

/-- Branches that compare with zero. -/
def branchPseudo (token : Word) : Reader Word := do
  let reg ← register ctx
  comma ctx
  let value ← offsetTo ctx 0xFFFFF000
  let opCode := 0x00000063 ||| functField token ||| immBranch value
  if token &&& 0x01000000 ≠ 0 then pure (opCode ||| (reg <<< 20)) else pure (opCode ||| (reg <<< 15))

/-- CSR instructions with `x0` on one side. -/
def csrPseudo (token : Word) : Reader Word := do
  let opCode := functField token ||| 0x00000073
  if token &&& 0x20000000 ≠ 0 then
    let reg ← register ctx
    comma ctx
    let csr ← parseCsr ctx
    pure (opCode ||| (reg <<< 7) ||| csr)
  else
    let csr ← parseCsr ctx
    comma ctx
    let src ← parseCsr2 ctx token
    pure (opCode ||| csr ||| src)

/-- Reads of counters and the like, with the CSR in the token. -/
def counterPseudo (token : Word) : Reader Word := do
  let opCode := (token &&& (0xFF000000 : Word)) ||| (0x00000073 : Word) ||| ((token &&& 0x0000F000) <<< 8) |||
    ((token &&& 0x00000700) <<< 4)
  let reg ← register ctx
  if token &&& 0x00000700 = 0x00000200 then pure (opCode ||| (reg <<< 7))
  else if ← found ctx ',' then
    let rs ← register ctx
    pure (opCode ||| (reg <<< 7) ||| (rs <<< 15))
  else pure (opCode ||| (reg <<< 15))

def pseudoMnemonic (token : Word) : Reader Word :=
  if token &&& 0x00F00000 = 0x00000000 then pure (plainPseudo token)
  else if token &&& 0x00F00000 = 0x00100000 then jrPseudo ctx
  else if token &&& 0x00F00000 = 0x00200000 then jPseudo ctx
  else if token &&& 0x00F00000 = 0x00300000 then movePseudo ctx token
  else if token &&& 0x00F00000 = 0x00400000 then branchPseudo ctx token
  else if token &&& 0x00F00000 = 0x00500000 then csrPseudo ctx token
  else if token &&& 0x00F00000 = 0x00600000 then counterPseudo ctx token
  else pure 0x00000013

/-! Pseudo-instructions of one word or two. -/

/-- Two words, and whether both of them are needed. -/
structure Long where
  flag : Bool
  first : Word
  opCode : Word
  deriving DecidableEq, Repr

/-- The second half of the class: the value is known, and the fields of the registers. -/
def longValue (token first opCode value : Word) : Except Word Long :=
  let first := first ||| ((value + 0x00000800) &&& 0xFFFFF000)
  let opCode := opCode ||| ((value <<< 20) &&& 0xFFF00000)
  if token &&& 0x00007000 = 0x00000000 then
    let first := first ||| 0x00000037
    let opCode := opCode ||| 0x00000013
    if (value + 0x800) &&& 0xFFFFF000 = 0 then .ok ⟨false, first, opCode &&& ~~~0x000F8000⟩
    else if value &&& 0x00000FFF = 0 then .ok ⟨false, first, (first &&& 0x00000FFF) ||| value⟩
    else .ok ⟨true, first, opCode⟩
  else if token &&& 0x00007000 = 0x00001000 then .ok ⟨true, first ||| 0x00000017, opCode ||| 0x00000013⟩
  else if token &&& 0x00007000 = 0x00002000 then
    if value &&& 1 ≠ 0 then .error symUnalignedBranch
    else if (value + 0x100000) &&& 0xFFE00000 ≠ 0 then
      .ok ⟨true, first ||| 0x00000017, opCode ||| 0x00000067⟩
    else .ok ⟨false, first, 0x000000EF ||| immJal value⟩
  else .ok ⟨true, first, opCode⟩

/-- `LI`, `LA`, `CALL` and `TAIL`. -/
def longMnemonic (token : Word) : Reader Long := do
  let fields ←
    if token &&& 0x00002000 = 0 then do
      let reg ← register ctx
      comma ctx
      pure (reg <<< 7, (reg <<< 7) ||| (reg <<< 15))
    else pure ((token &&& 0x01F00000) >>> 13, ((token &&& 0x01F00000) >>> 5) ||| ((token &&& 0x3E000000) >>> 18))
  let r ← expression ctx
  let value := if token &&& 0x00007000 ≠ 0 then r.2 - ctx.env.assemblyPointer else r.2
  match longValue token fields.1 fields.2 value with
  | .ok l => do
    settle r.1
    pure l
  | .error code => fail code

/-- The words, when `variable_item_size` has said how many bytes there are. -/
def Long.words (l : Long) (allocate : Nat → Nat) : List Word :=
  if l.flag ∨ allocate (if l.flag then 8 else 4) = 8 then [l.first, l.opCode] else [l.opCode]

/-- Atomics. -/
def atomicMnemonic (token : Word) : Reader Word := do
  let opCode := ((token &&& 0x07F00000) <<< 5) ||| ((token &&& 0x08000000) >>> 15) ||| 0x0000202F
  let rd ← register ctx
  comma ctx
  let rt ←
    if token &&& 0x07C00000 ≠ 0x00800000 then do
      let rt ← register ctx
      comma ctx
      pure rt
    else pure 0
  expect ctx '[' symNoLbr
  let rs ← register ctx
  expect ctx ']' symNoRbr
  pure (opCode ||| (rd <<< 7) ||| (rt <<< 20) ||| (rs <<< 15))

/-- **`rv32i_mnemonic`**: the words that are put down for an instruction. -/
def rv32iMnemonic (allocate : Nat → Nat) (token : Word) : Reader (List Word) :=
  let sort := token &&& 0x000F0000
  if sort = 0x00000000 then do return [← uMnemonic ctx token]
  else if sort = 0x00010000 then do return [← jMnemonic ctx token]
  else if sort = 0x00020000 then do return [← iMnemonic ctx token]
  else if sort = 0x00030000 then do return [← bMnemonic ctx token]
  else if sort = 0x00040000 then sMnemonic ctx token
  else if sort = 0x00050000 then loadMnemonic ctx token
  else if sort = 0x00060000 then do return [← rMnemonic ctx token]
  else if sort = 0x00070000 then return [(token &&& 0xFFF00000) ||| 0x00000073]
  else if sort = 0x00080000 then do return [← fenceMnemonic ctx token]
  else if sort = 0x00090000 then do return [← pseudoMnemonic ctx token]
  else if sort = 0x000A0000 then do return [← csrMnemonic ctx token]
  else if sort = 0x000B0000 then do return (← longMnemonic ctx token).words allocate
  else do return [← atomicMnemonic ctx token]

end Classes

end RiscyOS.Rva
