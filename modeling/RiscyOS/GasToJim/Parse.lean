import RiscyOS.GasToJim.Assembly

/-!
# Reading the assembly

`tokenise` and `parse` of `convert_generated_asm.py`.  The parser goes through the lines once.  It keeps
the section it believes itself in, the function it is filling, and one pending label: every label that
it does not file in the function being filled waits there for what comes next, which may be a data
directive, another label, or the first instruction of a function.

In the source `current_function` is the same object as the last element of `module.functions`.  Here the
function being filled is kept beside the finished ones, and `ParserState.functions` is the whole list.
-/

set_option autoImplicit false

namespace RiscyOS.GasToJim

/-! ## Lines -/

/-- Where `str.splitlines` ends a line. -/
def isLineBreak (c : Char) : Bool :=
  (10 ≤ c.toNat ∧ c.toNat ≤ 13) ∨ (28 ≤ c.toNat ∧ c.toNat ≤ 30) ∨ c.toNat ∈ [0x85, 0x2028, 0x2029]

/-- `str.splitlines`. -/
def splitlines : Text → List Text
  | [] => []
  | '\r' :: '\n' :: t => [] :: splitlines t
  | c :: t =>
    if isLineBreak c then [] :: splitlines t
    else
      match splitlines t with
      | [] => [[c]]
      | line :: lines => (c :: line) :: lines

/-- `RawLine`. -/
structure RawLine where
  label : Option Text := none
  op : Option Text := none
  args : List Text := []
  deriving DecidableEq, Repr

/-- `tokenise`. -/
def tokenise (raw : Text) : RawLine :=
  let text := strip (raw.map fun c => if c = '\t' then ' ' else c)
  if text = [] then {}
  else if text.head? = some '#' then {}
  else if text.getLast? = some ':' then { label := some text.dropLast }
  else
    let text := text.takeWhile (· ≠ '#')
    let rest := text.dropWhile fun c => !isSpace c
    { op := some (text.takeWhile fun c => !isSpace c)
      args := if rest = [] then [] else (split ',' (rest.dropWhile isSpace)).map strip }

/-! ## The parser -/

/-- `_DIRECTIVE_MAP`. -/
def directiveMap : List (Text × DirectiveKind) :=
  [(".align".toList, .align), (".zero".toList, .zero), (".comm".toList, .comm), (".local".toList, .local),
    (".globl".toList, .globl), (".size".toList, .size), (".type".toList, .type),
    (".section".toList, .section), (".text".toList, .text), (".bss".toList, .bss), (".data".toList, .data),
    (".ident".toList, .ident), (".file".toList, .file), (".option".toList, .option),
    (".attribute".toList, .attribute), (".set".toList, .set), (".string".toList, .string)]

/-- `_DIRECTIVE_MAP.get(op, DirectiveKind.UNKNOWN)`. -/
def directiveKind (op : Text) : DirectiveKind := (directiveMap.lookup op).getD .unknown

/-- `Section`. -/
inductive Section
  | text
  | bss
  | data
  | rodata
  | unknown
  deriving DecidableEq, Repr

/-- The variables of `parse`. -/
structure ParserState where
  module : AsmModule := {}
  currentSection : Section := .unknown
  currentFunction : Option AsmFunction := none
  pendingLabel : Option Text := none
  deriving DecidableEq, Repr

/-- `module.functions`, the function being filled last. -/
def ParserState.functions (s : ParserState) : List AsmFunction :=
  s.module.functions ++ s.currentFunction.toList

/-- `current_function.body.append(node)`, if there is a function. -/
def ParserState.append (s : ParserState) (node : Node) : ParserState :=
  { s with currentFunction := s.currentFunction.map fun f => { f with body := f.body ++ [node] } }

/-- `d[k] = v`. -/
def dictSet {κ ν : Type} [DecidableEq κ] (k : κ) (v : ν) : List (κ × ν) → List (κ × ν)
  | [] => [(k, v)]
  | e :: d => if e.1 = k then (k, v) :: d else e :: dictSet k v d

/-- `module.data_defs.append(dd)`, with the pending label used up. -/
def ParserState.define (s : ParserState) (d : DataDefinition) : ParserState :=
  { s with module := { s.module with dataDefs := s.module.dataDefs ++ [d] }, pendingLabel := none }

/-- `name.startswith('.L')`. -/
def isLocalName (name : Text) : Bool := decide (".L".toList <+: name)

/-- A line with a label.  Names that are empty do not get here. -/
def parseLabel (s : ParserState) (name : Text) : ParserState :=
  let isLocal := isLocalName name
  if s.currentFunction.isSome ∧ isLocal ∧ s.currentSection = .text then
    s.append (.label (.new name isLocal))
  else { s with pendingLabel := some name }

/-- What is not a directive that `parse` knows: kept in the function being filled. -/
def parseUnknown (s : ParserState) (args : List Text) : ParserState :=
  s.append (.directive { kind := .unknown, args })

/-- A line with a directive. -/
def parseDirective (s : ParserState) (kind : DirectiveKind) (args : List Text) : Option ParserState :=
  match kind with
  | .text => some { s with currentSection := .text }
  | .bss => some { s with currentSection := .bss }
  | .data => some { s with currentSection := .data }
  | .section => do
    let name ← args[0]?
    if occursIn ".text".toList name then return { s with currentSection := .text }
    if occursIn ".rodata".toList name then return { s with currentSection := .rodata }
    return s
  | .globl =>
    let sym := args.head?.getD []
    some { s with module := { s.module with globalSyms := s.module.globalSyms.insert sym } }
  | .comm => do
    let name ← args[0]?
    let size ← parseInt (← args[1]?)
    let alignment ← parseInt (← args[2]?)
    return s.define { name, size, alignment, exported := name ∈ s.module.globalSyms }
  | .zero =>
    match s.pendingLabel with
    | some name => do
      let size ← parseInt (← args[0]?)
      return s.define { name, size, alignment := 4, exported := name ∈ s.module.globalSyms }
    | none => some (parseUnknown s args)
  | .string => do
    let string := (← args[0]?).filter (· ≠ '"')
    let name := string ++ "_".toList ++ "str_".toList ++ strInt s.module.strTable.length
    let exported := s.pendingLabel.elim false (· ∈ s.module.globalSyms)
    let s := { s with module := { s.module with strTable := dictSet s.pendingLabel name s.module.strTable } }
    return s.define { name, size := 0, alignment := 4, exported, string := some string }
  | .align => some (s.append (.directive { kind := .align, args }))
  | .local => some s
  | kind => if kind ∈ metadataDirectives then some s else some (parseUnknown s args)

/-- `Function(name=pending_label)` is opened, and filled from now on. -/
def ParserState.openFunction (s : ParserState) (name : Text) : ParserState :=
  { s with
    module := { s.module with functions := s.functions }
    currentFunction := some { name, exported := name ∈ s.module.globalSyms }
    pendingLabel := none }

/-- The function whose entry point an instruction is. -/
def enterFunction (s : ParserState) : ParserState :=
  match s.pendingLabel with
  | some name => if s.currentSection = .text then s.openFunction name else s
  | none => s

/-- A line with an instruction. -/
def parseInstruction (s : ParserState) (op : Text) (args : List Text) : Option ParserState := do
  let operands ← args.mapM parseOperand
  return (enterFunction s).append (.instruction { op, operands })

/-- One turn of the loop of `parse`. -/
def parseLine (s : ParserState) (rl : RawLine) : Option ParserState :=
  match rl.label, rl.op with
  | some (c :: name), none => some (parseLabel s (c :: name))
  | _, some op =>
    if op.head? = some '.' then parseDirective s (directiveKind op) rl.args
    else parseInstruction s op rl.args
  | _, none => some s

/-- The lines of a source, tokenised. -/
def rawLines (source : Text) : List RawLine := (splitlines source).map tokenise

/-- `parse`. -/
def parse (source : Text) : Option AsmModule := do
  let s ← (rawLines source).foldlM parseLine {}
  let functions := s.functions.map fun f => { f with exported := f.name ∈ s.module.globalSyms }
  return { s.module with functions }

end RiscyOS.GasToJim
