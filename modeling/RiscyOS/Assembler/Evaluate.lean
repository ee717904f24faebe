import RiscyOS.Assembler.Symbols

/-!
# Expressions

`evaluate` of `rva.c`: operands and operators are read in turn, an operation waits on `math_stack` until
an operator of no higher priority comes, and a bracket is a recursive call.  The stack has twenty words.
A waiting operation takes three of them, and is not put there when they are not left; each call puts a
marker of one word there, without a look.

A value is a word.  An error is one, too: a code, flags that say in which passes it does not matter, and
a position on the line in the lowest byte.
-/

set_option autoImplicit false

namespace RiscyOS.Rva

open Memory

/-! ## Errors -/

def allowOnFirstPass : Word := 0x00010000
def allowOnInterPass : Word := 0x00020000

/-- `ALL_EXCEPT_LAST_PASS`. -/
def allExceptLastPass : Word := 0x00030000

def evalOkay : Word := 0
def evalNoOperand : Word := 0x3000
def evalNoOperator : Word := 0x3100
def evalNotClosebr : Word := 0x3200
def evalNotOpenbr : Word := 0x3300
def evalMathstackLimit : Word := 0x3400
def evalNoLabel : Word := 0x3500 ||| allowOnFirstPass
def evalLabelUndef : Word := 0x3600 ||| allExceptLastPass
def evalOutOfRadix : Word := 0x3700
def evalDivByZero : Word := 0x3800 ||| allExceptLastPass
def evalOperandError : Word := 0x3900
def evalBadLocLab : Word := 0x3a00

/-- `allow_error`. -/
def allowError (errorCode : Word) (firstPass lastPass : Bool) : Bool :=
  (!lastPass && errorCode &&& allowOnInterPass ≠ 0) || (firstPass && errorCode &&& allowOnFirstPass ≠ 0)

/-- A position as it is put into an error code. -/
def position (i : Nat) : Word := BitVec.ofNat 32 i

/-! ## Operators -/

/-- The operators that stand before an operand. -/
inductive Unary where
  | plus | minus | not | log
  deriving DecidableEq, Repr

/-- The operators that stand behind one, and what ends an expression. -/
inductive Operator where
  | plus | minus | multiply | divide | modulus | closebr | leftShift | rightShift | and | or | xor
  | equals | notEqual | lowerThan | lowerEqual | higherThan | higherEqual
  | lessThan | lessEqual | greaterThan | greaterEqual | «end»
  deriving DecidableEq, Repr

/-- The numbers of the operators. -/
def Operator.code : Operator → Word
  | .plus => 0 | .minus => 1 | .multiply => 3 | .divide => 4 | .modulus => 5 | .closebr => 6
  | .leftShift => 7 | .rightShift => 8 | .and => 9 | .or => 10 | .xor => 11
  | .equals => 12 | .notEqual => 13 | .lowerThan => 14 | .lowerEqual => 15 | .higherThan => 16
  | .higherEqual => 17 | .lessThan => 18 | .lessEqual => 19 | .greaterThan => 20 | .greaterEqual => 21
  | .end => 23

/-- The operators that have a name. -/
def namedOperators : List (String × Operator) :=
  [("and", .and), ("or", .or), ("xor", .xor), ("eor", .xor), ("shl", .leftShift), ("lsl", .leftShift),
    ("shr", .rightShift), ("lsr", .rightShift), ("div", .divide), ("mod", .modulus), ("eq", .equals),
    ("ne", .notEqual), ("lo", .lowerThan), ("ls", .lowerEqual), ("hi", .higherThan), ("hs", .higherEqual),
    ("lt", .lessThan), ("le", .lessEqual), ("gt", .greaterThan), ("ge", .greaterEqual)]

/-- `operator_table`. -/
def operatorTable : SymTable := buildTable symTabCaseFlag (namedOperators.map fun s => (s.1, s.2.code))

/-- The operator of a number out of the table. -/
def Operator.ofCode (w : Word) : Operator :=
  ((namedOperators.map Prod.snd).find? fun o => o.code = w).getD .end

/-- The priorities.  `0` and `1` are for what ends an expression. -/
def Operator.priority : Operator → Nat
  | .end => 0
  | .closebr => 1
  | .equals | .notEqual | .lowerThan | .lowerEqual | .higherThan | .higherEqual
  | .lessThan | .lessEqual | .greaterThan | .greaterEqual => 2
  | .plus | .minus => 3
  | .multiply | .divide | .modulus => 4
  | .or | .xor => 5
  | .and => 6
  | .leftShift | .rightShift => 7

/-- What is done to an operand.  The logarithm is truncated, and `-1` for zero. -/
def Unary.apply : Unary → Word → Word
  | .plus, operand => operand
  | .minus, operand => -operand
  | .not, operand => ~~~operand
  | .log, operand => if operand = 0 then -1 else BitVec.ofNat 32 operand.toNat.log2

/-- The truth values of comparisons. -/
def truth (b : Bool) : Word := if b then -1 else 0

/-- What an operation does with its two operands.  A division by zero is `-1`; what is left of one is
the divisor, which is zero.  Shifts take five bits of the amount. -/
def Operator.operate (o : Operator) (lhs operand : Word) : Word :=
  match o with
  | .plus => lhs + operand
  | .minus => lhs - operand
  | .multiply => lhs * operand
  | .divide => if operand ≠ 0 then lhs / operand else -1
  | .modulus => if operand ≠ 0 then lhs % operand else operand
  | .leftShift => lhs <<< (operand.toNat % 32)
  | .rightShift => lhs >>> (operand.toNat % 32)
  | .and => lhs &&& operand
  | .or => lhs ||| operand
  | .xor => lhs ^^^ operand
  | .equals => truth (lhs = operand)
  | .notEqual => truth (lhs ≠ operand)
  | .lowerThan => truth (lhs < operand)
  | .lowerEqual => truth (lhs ≤ operand)
  | .higherThan => truth (operand < lhs)
  | .higherEqual => truth (operand ≤ lhs)
  | .lessThan => truth (lhs.toInt < operand.toInt)
  | .lessEqual => truth (lhs.toInt ≤ operand.toInt)
  | .greaterThan => truth (operand.toInt < lhs.toInt)
  | .greaterEqual => truth (operand.toInt ≤ lhs.toInt)
  | .closebr | .end => operand

/-- The operation is a division by zero. -/
def Operator.dividesByZero (o : Operator) (operand : Word) : Bool := o = .divide ∧ operand = 0

/-! ## Operands -/

/-- `local_label`. -/
structure LocalLabel where
  label : Word
  value : Word
  flags : Word
  deriving DecidableEq, Repr

/-- What the value of an operand depends on.  Local labels are those up to `loc_lab_position`, from there
backwards, and those behind it. -/
structure Env where
  symbolTable : SymTable
  csrTable : SymTable
  locBefore : List LocalLabel
  locAfter : List LocalLabel
  /-- There is a local label on this line. -/
  ownLocal : Bool
  assemblyPointer : Word
  assemblyPointerDefined : Bool
  defIncrement : Word

/-- Nothing is defined, and assembly is at zero. -/
def emptyEnv : Env where
  symbolTable := symCreateTable 0
  csrTable := symCreateTable 0
  locBefore := []
  locAfter := []
  ownLocal := false
  assemblyPointer := 0
  assemblyPointerDefined := true
  defIncrement := 0

/-- What `get_variable` finds. -/
structure Variable where
  status : Word
  pos : Nat
  value : Word := 0
  unary : Unary := .plus
  bracket : Bool := false
  /-- A symbol was read that has no value yet. -/
  undefinedRead : Bool := false
  deriving DecidableEq, Repr

/-- `LINE_LENGTH`. -/
def lineLength : Nat := 256

/-- A symbol, or the name of a CSR. -/
def symbolOperand (env : Env) (ident : Line) (ii : Nat) : Variable :=
  match symFindLabel ident env.symbolTable with
  | some symbol =>
    if symbol.defined then { status := evalOkay, pos := ii + ident.length, value := symbol.value }
    else { status := evalLabelUndef ||| position ii, pos := ii + ident.length, undefinedRead := true }
  | none =>
    match symFindLabel ident env.csrTable with
    | some symbol => { status := evalOkay, pos := ii + ident.length, value := symbol.value }
    | none => { status := evalNoLabel ||| position ii, pos := ii + ident.length }

/-- Where local labels are searched for. -/
inductive Directions where
  | backwards | forwards | both
  deriving DecidableEq, Repr

/-- The local labels in the order in which they are searched.  A forward search starts behind the
position if it is the only one and this line has no local label; else at it. -/
def localLabels (env : Env) : Directions → List LocalLabel
  | .backwards => env.locBefore
  | .forwards => if env.ownLocal then atPosition else env.locAfter
  | .both => env.locBefore ++ atPosition
where
  atPosition : List LocalLabel := if env.locBefore = [] then [] else env.locBefore.take 1 ++ env.locAfter

/-- `%` and the number of a local label. -/
def localLabelOperand (env : Env) (input : Line) (ii : Nat) : Variable :=
  let c := upperCase (charAt input (ii + 1))
  let (directions, ii) : Directions × Nat :=
    if c = 'B' then (.backwards, ii + 2) else if c = 'F' then (.forwards, ii + 2) else (.both, ii + 1)
  match getNum input ii 10 with
  | none => { status := evalBadLocLab, pos := ii }
  | some (label, ii) =>
    match (localLabels env directions).find? fun l => l.label = label with
    | some l => { status := evalOkay, pos := ii, value := l.value }
    | none => { status := evalNoLabel, pos := ii }

/-- A character between quotes. -/
def characterOperand (input : Line) (ii : Nat) : Variable :=
  let escaped : Bool := charAt input (ii + 1) = '\\'
  let ii := if escaped then ii + 2 else ii + 1
  let c := charAt input ii
  if c ≠ '\x00' ∧ c ≠ '\n' ∧ charAt input (ii + 1) = '\'' then
    { status := evalOkay, pos := ii + 2, value := if escaped then cCharEsc c else position c.toNat }
  else { status := evalOperandError ||| position ii, pos := ii }

/-- `.`, which is the address of what is assembled. -/
def hereOperand (env : Env) (ii : Nat) : Variable :=
  if env.assemblyPointerDefined then
    { status := evalOkay, pos := ii + 1, value := env.assemblyPointer + env.defIncrement }
  else { status := evalLabelUndef ||| position ii, pos := ii + 1 }

/-- The radix of a number, and where its digits start. -/
def numberRadix (input : Line) (ii : Nat) : Option (Nat × Nat) :=
  let c := charAt input ii
  if c = '0' ∧ upperCase (charAt input (ii + 1)) = 'X' then some (16, ii + 2)
  else if c = '0' ∧ upperCase (charAt input (ii + 1)) = 'B' then some (2, ii + 2)
  else if '0' ≤ c ∧ c ≤ '9' then some (10, ii)
  else if c = '$' then some (16, ii + 1)
  else if c = ':' then some (2, ii + 1)
  else if c = '@' then some (8, ii + 1)
  else none

def numberOperand (input : Line) (ii : Nat) : Variable :=
  match numberRadix input ii with
  | none => { status := evalNoOperand, pos := ii }
  | some (radix, ii) =>
    match getNum input ii radix with
    | some (value, ii) => { status := evalOkay, pos := ii, value := value }
    | none => { status := evalOutOfRadix, pos := ii }

/-- An operand, with the unary operator dealt with. -/
def readOperand (env : Env) (input : Line) (ii : Nat) : Variable :=
  let ident := getIdentifier input ii lineLength
  if ident ≠ [] then symbolOperand env ident ii
  else
    match charAt input ii with
    | '(' => { status := evalOkay, pos := ii + 1, bracket := true }
    | '%' => localLabelOperand env input ii
    | '\'' => characterOperand input ii
    | '.' => hereOperand env ii
    | _ => numberOperand input ii

/-- The unary operator, if there is one, and where the operand is. -/
def readUnary (input : Line) (pos : Nat) : Unary × Nat :=
  match charAt input pos with
  | '+' => (.plus, skipSpc input (pos + 1))
  | '-' => (.minus, skipSpc input (pos + 1))
  | '~' => (.not, skipSpc input (pos + 1))
  | '|' => (.log, skipSpc input (pos + 1))
  | _ => (.plus, pos)

/-- The error, if it is one, does not end the evaluation. -/
def notFatal (status : Word) : Bool := status &&& allExceptLastPass ≠ 0

/-- `get_variable`.  The position is kept after a fatal error. -/
def getVariable (env : Env) (input : Line) (pos : Nat) : Variable :=
  let pos := skipSpc input pos
  let u := readUnary input pos
  let v := readOperand env input u.2
  { v with unary := u.1, pos := if v.status = evalOkay ∨ notFatal v.status then v.pos else pos }

/-- The operators that are signs, and how many characters they take.  What ends an expression is left
where it is. -/
def signOperator (c next : Char) : Option (Operator × Nat) :=
  match c with
  | '\x00' | ',' | ';' | '[' | ']' | '}' | '\n' => some (.end, 0)
  | '+' => some (.plus, 1)
  | '-' => some (.minus, 1)
  | '*' => some (.multiply, 1)
  | '/' => some (.divide, 1)
  | '\\' => some (.modulus, 1)
  | ')' => some (.closebr, 1)
  | '|' => some (.or, 1)
  | '&' => some (.and, 1)
  | '^' => some (.xor, 1)
  | '=' => some (.equals, 1)
  | '!' => if next = '=' then some (.notEqual, 2) else none
  | '<' =>
    if next = '<' then some (.leftShift, 2)
    else if next = '>' then some (.notEqual, 2)
    else if next = '=' then some (.lowerEqual, 2)
    else some (.lowerThan, 1)
  | '>' =>
    if next = '>' then some (.rightShift, 2)
    else if next = '=' then some (.higherEqual, 2)
    else some (.higherThan, 1)
  | _ => none

/-- `get_operator`: the status, the operator and the position.  A `!` that is none begins no name,
either. -/
def getOperator (input : Line) (pos : Nat) : Word × Operator × Nat :=
  let pos := skipSpc input pos
  match signOperator (charAt input pos) (charAt input (pos + 1)) with
  | some (o, n) => (evalOkay, o, pos + n)
  | none =>
    let buffer := getIdentifier input pos symNameMax
    if buffer = [] then (evalNoOperator, .end, pos)
    else
      match symFindLabel buffer operatorTable with
      | some ptr => (evalOkay, .ofCode ptr.value, pos + buffer.length)
      | none => (evalNoOperator, .end, pos)

/-! ## Evaluation -/

/-- `MATHSTACK_SIZE`. -/
def mathstackSize : Nat := 20

/-- The words of a waiting operation: operand, operator and priority. -/
def pendingWords : Nat := 3

/-- What the calls of `Eval_inner` share, apart from the stack. -/
structure EvalState where
  pos : Nat
  error : Word := evalOkay
  firstError : Word := evalOkay
  /-- How many symbols were read that have no value yet. -/
  undefinedReads : Nat := 0
  /-- `div_zero_this_pass` is set. -/
  divZero : Bool := false
  deriving DecidableEq, Repr

/-- Why an evaluation does not come back: a write behind the end of `math_stack`, or, in the model only,
not enough fuel. -/
inductive Fault where
  | mathstack | fuel
  deriving DecidableEq, Repr

/-- A waiting operation: the left operand and the operator. -/
abbrev Pending := List (Word × Operator)

/-- The state after an operation.  A division by zero is an error unless there was one before. -/
def EvalState.operated (st : EvalState) (o : Operator) (operand : Word) : EvalState :=
  if o.dividesByZero operand then
    { st with
      error := if st.error = evalOkay ∧ st.firstError = evalOkay then evalDivByZero else st.error
      divZero := true }
  else st

/-- The loop that does the waiting operations of at least this priority. -/
def operatePending (priority : Nat) : Pending → Word → EvalState → Pending × Word × EvalState
  | [], operand, st => ([], operand, st)
  | (lhs, o) :: pending, operand, st =>
    if priority ≤ o.priority then
      operatePending priority pending (o.operate lhs operand) (st.operated o operand)
    else ((lhs, o) :: pending, operand, st)

/-- The position goes into the error code. -/
def EvalState.fail (st : EvalState) : EvalState :=
  { st with
    error :=
      if st.error = evalNotOpenbr then st.error ||| position (st.pos - 1)
      else if st.error ≠ evalDivByZero then st.error ||| position st.pos
      else st.error }

/-- What becomes of the state when an operand has been read.  An error that is not fatal is kept for the
end. -/
def EvalState.read (st : EvalState) (v : Variable) : EvalState :=
  { st with
    pos := v.pos
    error := if notFatal v.status then evalOkay else v.status
    firstError := if notFatal v.status ∧ st.firstError = evalOkay then v.status else st.firstError
    undefinedReads := st.undefinedReads + if v.undefinedRead then 1 else 0 }

/-- The first half of a turn of the loop: an operand, with its unary operator.  What is between brackets
is evaluated by a call. -/
def operandStep (env : Env) (input : Line) (inner : EvalState → Except Fault (EvalState × Word))
    (st : EvalState) : Except Fault (EvalState × Word) :=
  let v := getVariable env input st.pos
  let st := st.read v
  if st.error ≠ evalOkay then .ok (st, v.value)
  else if v.bracket then
    (inner st).map fun r => if r.1.error = evalOkay then (r.1, v.unary.apply r.2) else r
  else .ok (st, v.unary.apply v.value)

/-- What comes after a turn of the loop. -/
inductive Turn where
  | done (st : EvalState) (operand : Word)
  | again (pending : Pending) (st : EvalState)

/-- An error ends the loop. -/
def EvalState.stop (st : EvalState) (operand : Word) : Turn :=
  .done (if st.error = evalOkay then st else st.fail) operand

/-- What is between the terminators is done.  Do they match? -/
def EvalState.matched (st : EvalState) (marker priority : Nat) : EvalState :=
  if priority = marker then st
  else { st with error := if priority = 0 then evalNotClosebr else evalNotOpenbr }

/-- The second half: an operator, and the waiting operations that it has done. -/
def operatorStep (input : Line) (marker base : Nat) (pending : Pending) (st : EvalState) (operand : Word) : Turn :=
  if st.error ≠ evalOkay then st.stop operand
  else
    match getOperator input st.pos with
    | (status, operator, pos) =>
      let st := { st with pos := pos, error := status }
      if st.error ≠ evalOkay then st.stop operand
      else
        match operatePending operator.priority pending operand st with
        | (pending, operand, st) =>
          if operator.priority ≤ 1 then (st.matched marker operator.priority).stop operand
          else if base + pendingWords * pending.length + pendingWords ≤ mathstackSize then
            if st.error ≠ evalOkay then st.stop operand else .again ((operand, operator) :: pending) st
          else { st with error := evalMathstackLimit }.stop operand

mutual

/-- `Eval_inner`, with the marker that it puts on the stack and the words that are in use. -/
def evalInner (env : Env) (input : Line) (fuel marker mathSP : Nat) (st : EvalState) :
    Except Fault (EvalState × Word) :=
  match fuel with
  | 0 => .error .fuel
  | fuel + 1 =>
    if mathSP < mathstackSize then evalLoop env input fuel marker (mathSP + 1) [] st
    else .error .mathstack

/-- Its loop.  `base` is the number of words up to its marker, and `pending` what is above. -/
def evalLoop (env : Env) (input : Line) (fuel marker base : Nat) (pending : Pending) (st : EvalState) :
    Except Fault (EvalState × Word) :=
  match fuel with
  | 0 => .error .fuel
  | fuel + 1 =>
    match operandStep env input (evalInner env input fuel 1 (base + pendingWords * pending.length)) st with
    | .error fault => .error fault
    | .ok (st, operand) =>
      match operatorStep input marker base pending st operand with
      | .done st operand => .ok (st, operand)
      | .again pending st => evalLoop env input fuel marker base pending st

end

/-- What `evaluate` returns and leaves behind. -/
structure Evaluation where
  error : Word
  pos : Nat
  value : Word
  undefinedReads : Nat
  divZero : Bool
  deriving DecidableEq, Repr

/-- `evaluate`.  Every call and every turn of the loop takes a character, or is the last one. -/
def evaluate (env : Env) (input : Line) (pos : Nat) : Except Fault Evaluation :=
  (evalInner env input (2 * input.length + 3) 0 0 { pos := pos }).map fun r =>
    { error := if r.1.error = evalOkay then r.1.firstError else r.1.error
      pos := r.1.pos
      value := r.2
      undefinedReads := r.1.undefinedReads
      divZero := r.1.divZero }

end RiscyOS.Rva
