import Mathlib.Data.List.Infix

/-!
# The converter's assembly

`tools/gas-to-jim` turns the assembly that GCC prints into the dialect of the teaching assembler.
This module has the pieces it works on, `operand.py`, `instruction.py`, `label.py`, `directive.py`,
`data_definition.py` and `function.py`, with how each is printed and what `parse_operand` makes of a
piece of text.

Text is a list of characters, so that all of this can be run.  What ends the Python program with an
exception is `none`: printing an operand whose field is missing, or a number that `int` refuses.
Line numbers and the original text of a line are only ever logged and are left out.
-/

set_option autoImplicit false

namespace RiscyOS.GasToJim

/-- A Python string. -/
abbrev Text := List Char

instance : LawfulBEq Text := inferInstance

/-- What is asked of all characters of a text is asked of one after the other. -/
instance (priority := high) decidableForallMem (t : Text) (p : Char → Prop) [DecidablePred p] :
    Decidable (∀ c ∈ t, p c) := List.decidableBAll p t

/-! ## Strings -/

/-- `str.isspace`, `\s`. -/
def isSpace (c : Char) : Bool :=
  c = ' ' ∨ (9 ≤ c.toNat ∧ c.toNat ≤ 13) ∨ (28 ≤ c.toNat ∧ c.toNat ≤ 31) ∨
    (0x2000 ≤ c.toNat ∧ c.toNat ≤ 0x200a) ∨
    c.toNat ∈ [0x85, 0xa0, 0x1680, 0x2028, 0x2029, 0x202f, 0x205f, 0x3000]

/-- `\w`. -/
def isWord (c : Char) : Bool := c.isAlphanum ∨ c = '_'

/-- `[0-9a-fA-F]`. -/
def isHex (c : Char) : Bool := c.isDigit ∨ c ∈ "abcdefABCDEF".toList

/-- `str.strip`. -/
def strip (t : Text) : Text := ((t.dropWhile isSpace).reverse.dropWhile isSpace).reverse

/-- `str.lstrip('.')`. -/
def lstripDots (t : Text) : Text := t.dropWhile (· = '.')

/-- `t.split(c)` for a single character. -/
def split (c : Char) : Text → List Text
  | [] => [[]]
  | x :: t =>
    if x = c then [] :: split c t
    else
      match split c t with
      | [] => [[x]]
      | y :: ys => (x :: y) :: ys

/-- `sub in t`. -/
def occursIn (sub t : Text) : Bool := decide (sub <:+: t)

/-- The value of a hexadecimal digit. -/
def hexDigit (c : Char) : Nat :=
  if c.isDigit then c.toNat - '0'.toNat else c.toLower.toNat - 'a'.toNat + 10

/-- Digits to a number, most significant first. -/
def ofDigits (base : Nat) (t : Text) : Nat := t.foldl (fun n c => n * base + hexDigit c) 0

/-- The digits of a literal of `int`, single underscores between them taken out. -/
def literalDigits (t : Text) : Option Text :=
  if (split '_' t).all fun part => part ≠ [] ∧ part.all Char.isDigit then some (t.filter (· ≠ '_')) else none

/-- `int(t)`. -/
def parseInt (t : Text) : Option Int :=
  match strip t with
  | '-' :: ds => (literalDigits ds).map fun ds => -(ofDigits 10 ds : Int)
  | '+' :: ds => (literalDigits ds).map fun ds => (ofDigits 10 ds : Int)
  | ds => (literalDigits ds).map fun ds => (ofDigits 10 ds : Int)

/-- `str(n)`. -/
def strInt (n : Int) : Text := (toString n).toList

/-- `sep.join(ts)`. -/
def join (sep : Text) (ts : List Text) : Text := List.intercalate sep ts

/-! ## Operands -/

/-- `OperandKind`. -/
inductive OperandKind
  | register
  | immediate
  | memory
  | symbol
  | hi
  | lo
  | loMem
  | resolvedMem
  deriving DecidableEq, Repr

/-- `Operand`. -/
structure Operand where
  kind : OperandKind
  raw : Text
  reg : Option Text := none
  imm : Option Int := none
  symbol : Option Text := none
  deriving DecidableEq, Repr

/-- `f"{field}"`. -/
def formatted (field : Option Text) : Text := field.getD "None".toList

/-- `Operand.__str__`.  A missing register or symbol is returned as it is, and refused by whoever
wanted a string. -/
def Operand.str (o : Operand) : Option Text :=
  match o.kind with
  | .register => o.reg
  | .immediate => some (o.imm.elim o.raw strInt)
  | .memory => some (strInt (o.imm.getD 0) ++ "[".toList ++ formatted o.reg ++ "]".toList)
  | .symbol => o.symbol
  | .hi => some (formatted o.symbol)
  | .lo => some (formatted o.symbol)
  | .loMem => some ("[".toList ++ formatted o.reg ++ "]".toList)
  | .resolvedMem => some (formatted o.symbol ++ "[".toList ++ formatted o.reg ++ "]".toList)

/-- `([^)]+)\)` at the start of `t`: the group, and what is left. -/
def upToParen (t : Text) : Option (Text × Text) :=
  match t.takeWhile (· ≠ ')'), t.dropWhile (· ≠ ')') with
  | [], _ => none
  | _, [] => none
  | group, _ :: rest => some (group, rest)

/-- All of `t` is `\((\w+)\)`. -/
def parenReg : Text → Option Text
  | '(' :: t =>
    match upToParen t with
    | some (reg, []) => if reg.all isWord then some reg else none
    | _ => none
  | _ => none

/-- All of `t` is `-?(?:0x[0-9a-fA-F]+|\d+)`. -/
def isNumber (t : Text) : Bool :=
  let t := if t.head? = some '-' then t.tail else t
  (("0x".toList <+: t) ∧ t.drop 2 ≠ [] ∧ (t.drop 2).all isHex) ∨ (t ≠ [] ∧ t.all Char.isDigit)

/-- `int(t, 16)` of a text that `isNumber` has accepted. -/
def parseHex : Text → Int
  | '-' :: t => -(ofDigits 16 (t.drop 2) : Int)
  | t => ofDigits 16 (t.drop 2)

/-- All of `t` is a register name of the pattern in `parse_operand`. -/
def isRegister (t : Text) : Bool :=
  match t with
  | [r, c] => (r ∈ "sgtf".toList ∧ c = 'p') ∨ t = "ra".toList ∨ (r ∈ "astx".toList ∧ c.isDigit)
  | [r, c, d] => r ∈ "sx".toList ∧ c.isDigit ∧ d.isDigit
  | _ => t = "zero".toList

/-- `%hi(symbol)`. -/
def matchHi (t : Text) : Option Text :=
  if "%hi(".toList <+: t then
    match upToParen (t.drop 4) with
    | some (symbol, []) => some symbol
    | _ => none
  else none

/-- `%lo(symbol)`, with what follows it. -/
def matchLo (t : Text) : Option (Text × Text) :=
  if "%lo(".toList <+: t then upToParen (t.drop 4) else none

/-- `offset(reg)`. -/
def matchMemory (t : Text) : Option (Text × Text) :=
  let offset := t.takeWhile (· ≠ '(')
  if isNumber offset then (parenReg (t.dropWhile (· ≠ '('))).map (offset, ·) else none

/-- `parse_operand`. -/
def parseOperand (text : Text) : Option Operand := do
  let t := strip text
  if let some s := matchHi t then
    return { kind := .hi, raw := t, symbol := s }
  if let some (s, rest) := matchLo t then
    if let some r := parenReg rest then
      return { kind := .loMem, raw := t, symbol := s, reg := r }
    if rest = [] then
      return { kind := .lo, raw := t, symbol := s }
  if let some (offset, r) := matchMemory t then
    -- a negative hexadecimal offset is handed to `int` as a decimal
    let n ← if "0x".toList <+: offset then some (parseHex offset) else parseInt offset
    return { kind := .memory, raw := t, reg := r, imm := n }
  if isNumber t then
    let n ← if occursIn "0x".toList t then some (parseHex t) else parseInt t
    return { kind := .immediate, raw := t, imm := n }
  if isRegister t then
    return { kind := .register, raw := t, reg := t }
  return { kind := .symbol, raw := t, symbol := t }

/-! ## Lines -/

/-- `Instruction`. -/
structure Instruction where
  op : Text
  operands : List Operand
  deriving DecidableEq, Repr

/-- `Instruction.__str__`. -/
def Instruction.str (i : Instruction) : Option Text :=
  if i.operands = [] then some ("    ".toList ++ i.op)
  else (i.operands.mapM Operand.str).map fun ts => "    ".toList ++ i.op ++ " ".toList ++ join ", ".toList ts

/-- `Instruction.dest`. -/
def Instruction.dest (i : Instruction) : Option Operand := i.operands.head?

/-- `Instruction.src`. -/
def Instruction.src (i : Instruction) (n : Nat) : Option Operand := i.operands[n]?

/-- `Label`. -/
structure Label where
  name : Text
  isLocal : Bool
  resolvedName : Text
  deriving DecidableEq, Repr

/-- `Label(name, is_local)`, with what `__post_init__` fills in. -/
def Label.new (name : Text) (isLocal : Bool) : Label :=
  { name, isLocal, resolvedName := name }

/-- `Label.__str__`. -/
def Label.str (l : Label) : Text := l.resolvedName ++ ":".toList

/-- `DirectiveKind`. -/
inductive DirectiveKind
  | align
  | zero
  | comm
  | local
  | globl
  | size
  | type
  | section
  | text
  | bss
  | data
  | ident
  | file
  | option
  | attribute
  | set
  | string
  | unknown
  deriving DecidableEq, Repr

/-- `METADATA_DIRECTIVES`. -/
def metadataDirectives : List DirectiveKind :=
  [.file, .option, .attribute, .type, .size, .ident, .section, .text, .bss, .data, .globl, .set]

/-- `Directive`.  The parser makes one only for an alignment or for what it does not know. -/
structure Directive where
  kind : DirectiveKind
  args : List Text
  deriving DecidableEq, Repr

/-- `DataDefinition`. -/
structure DataDefinition where
  name : Text
  size : Int
  alignment : Int
  exported : Bool
  string : Option Text := none
  deriving DecidableEq, Repr

/-- An element of a function's body. -/
inductive Node
  | instruction (i : Instruction)
  | label (l : Label)
  | directive (d : Directive)
  deriving DecidableEq, Repr

/-- `Function`. -/
structure AsmFunction where
  name : Text
  exported : Bool
  body : List Node := []
  deriving DecidableEq, Repr

/-- `Module`, without the name of its source file. -/
structure AsmModule where
  functions : List AsmFunction := []
  dataDefs : List DataDefinition := []
  globalSyms : List Text := []
  strTable : List (Option Text × Text) := []
  deriving DecidableEq, Repr

/-! ## Local labels -/

/-- `f"{self.name}__{node.name.lstrip('.')}"`. -/
def localName (function label : Text) : Text := function ++ "__".toList ++ lstripDots label

/-- The names in `mapping` of `resolve_local_labels`: the local labels of the body. -/
def AsmFunction.localLabels (f : AsmFunction) : List Text :=
  f.body.filterMap fun
    | .label l => if l.isLocal then some l.name else none
    | _ => none

/-- What `resolve_local_labels` does to an operand. -/
def Operand.resolve (function : Text) (mapping : List Text) (o : Operand) : Operand :=
  match o.kind, o.symbol with
  | .symbol, some s => if s ∈ mapping then { o with symbol := some (localName function s) } else o
  | _, _ => o

/-- What `resolve_local_labels` does to an element of the body. -/
def Node.resolve (function : Text) (mapping : List Text) : Node → Node
  | .instruction i => .instruction { i with operands := i.operands.map (·.resolve function mapping) }
  | .label l => .label (if l.isLocal then { l with resolvedName := localName function l.name } else l)
  | .directive d => .directive d

/-- `Function.resolve_local_labels`. -/
def AsmFunction.resolveLocalLabels (f : AsmFunction) : AsmFunction :=
  { f with body := f.body.map (·.resolve f.name f.localLabels) }

/-- `pass_resolve_local_labels`. -/
def passResolveLocalLabels (m : AsmModule) : AsmModule :=
  { m with functions := m.functions.map AsmFunction.resolveLocalLabels }

end RiscyOS.GasToJim
