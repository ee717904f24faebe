import RiscyOS.GasToJim.Parse

/-!
# Collapsing the two halves of an address

GCC loads an address in two steps, `lui` with the upper part of a symbol and later `addi` or a memory
access with the lower part.  The teaching assembler has one instruction for both.  `pass_collapse_la`
puts `la` where the `lui` was and has to get rid of the lower part wherever it is added: right behind the
`lui`, anywhere later in the function, or in a memory operand, which is printed without it.

For what is added later the pass remembers one register for each symbol, `LA_MAPPED`.  The operand of a
`lui` is changed in the source while it is being looked at; here `upperOf` returns what becomes of it.
-/

set_option autoImplicit false

namespace RiscyOS.GasToJim

/-- `LANCHOR_MAP`. -/
abbrev Anchors := Text → Option (Text × Int)

/-- `module.str_table`. -/
abbrev StrTable := List (Option Text × Text)

/-- `LA_MAPPED`. -/
abbrev LaMapped := List (Option Text × Operand)

/-- `Operand(OperandKind.REGISTER, ..., reg=reg)`. -/
def registerOperand (reg : Option Text) : Operand := { kind := .register, raw := reg.getD [], reg }

/-- What the pass finds out about the operand of a `lui`: whether the register is remembered for it,
what its symbol becomes, and the offset of an anchor. -/
structure Upper where
  mapped : Bool
  symbol : Option Text
  offset : Int
  deriving DecidableEq

/-- The three ways to deal with the operand of a `lui`: an anchor, a label of a string, and a symbol that
stays. -/
def upperOf (anchors : Anchors) (strTable : StrTable) (hi : Operand) : Option Upper := do
  let t ← hi.str
  if ".LANCHOR".toList <+: t then
    let entry ← hi.symbol.bind anchors
    return ⟨true, some entry.1, entry.2⟩
  if ".".toList <+: t then
    match strTable.lookup hi.symbol with
    | some (c :: cs) => return ⟨true, some (c :: cs), 0⟩
    | _ => return ⟨false, some "UNKNOWN".toList, 0⟩
  return ⟨true, hi.symbol, 0⟩

/-- The test that what follows a `lui` is the `addi` that belongs to it. -/
def isLowerOf (next : Node) (d1 hi : Operand) : Option Bool :=
  match next with
  | .instruction i =>
    if i.op = "addi".toList ∧ i.dest = some d1 ∧ i.src 1 = some d1 then do
      let t ← (i.src 2).elim (some "None".toList) Operand.str
      return decide (t = (← hi.str))
    else some false
  | _ => some false

/-- The `la`, and the offset of an anchor behind it. -/
def loadAddress (d1 : Operand) (u : Upper) : List Node :=
  .instruction ⟨"la".toList, [registerOperand d1.reg, { kind := .symbol, raw := u.symbol.getD [], symbol := u.symbol }]⟩ ::
    if u.offset ≠ 0 then
      [.instruction ⟨"addi".toList, [registerOperand d1.reg, registerOperand d1.reg,
        { kind := .immediate, raw := [], imm := u.offset }]⟩]
    else []

/-- An `addi` that is not right behind its `lui`. -/
def collapseAddi (mapped : LaMapped) (i : Instruction) : Option (List Node) := do
  let third ← i.src 2
  if third.kind = .register ∨ third.kind = .immediate then return [.instruction i]
  match mapped.lookup third.symbol with
  | none => return [.instruction i]
  | some destReg =>
    let dest ← i.dest
    let src ← i.src 1
    if destReg.reg = dest.reg ∧ destReg.reg = src.reg then return []
    if destReg.reg = src.reg then
      return [.instruction ⟨"mv".toList, [registerOperand dest.reg, registerOperand destReg.reg]⟩]
    return [.instruction i]

/-- What becomes of an element that is not a `lui`. -/
def collapseNode (mapped : LaMapped) : Node → Option (List Node)
  | .instruction i => if i.op = "addi".toList then collapseAddi mapped i else some [.instruction i]
  | node => some [node]

/-- The loop of `pass_collapse_la`. -/
def collapse (anchors : Anchors) (strTable : StrTable) : LaMapped → List Node → Option (List Node)
  | _, [] => some []
  | mapped, [node] => collapseNode mapped node
  | mapped, node :: next :: rest =>
    match node with
    | .instruction i =>
      if i.op = "lui".toList then do
        let d1 ← i.dest
        let hi ← i.src 1
        let u ← upperOf anchors strTable hi
        let mapped := if u.mapped then dictSet hi.symbol d1 mapped else mapped
        if ← isLowerOf next d1 { hi with symbol := u.symbol } then
          return loadAddress d1 u ++ (← collapse anchors strTable mapped rest)
        return loadAddress d1 u ++ (← collapse anchors strTable mapped (next :: rest))
      else do
        return (← collapseNode mapped (.instruction i)) ++ (← collapse anchors strTable mapped (next :: rest))
    | node => do
      return (← collapseNode mapped node) ++ (← collapse anchors strTable mapped (next :: rest))

/-- `pass_collapse_la`. -/
def passCollapseLa (anchors : Anchors) (m : AsmModule) : Option AsmModule := do
  let functions ← m.functions.mapM fun f => do
    return { f with body := ← collapse anchors m.strTable [] f.body }
  return { m with functions }

end RiscyOS.GasToJim
