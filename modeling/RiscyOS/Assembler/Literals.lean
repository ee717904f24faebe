import RiscyOS.Assembler.Statements

/-!
# Reading what is on the line

Where a line goes on with blanks and a register, a number or a character, that is what `rva.c` reads there.
`Statement` is in terms of what has been read; here the line comes first.

A position is described by the text from there on.  What is behind a number has to end an expression, and
what is behind a register must not make its name longer.
-/

set_option autoImplicit false

namespace RiscyOS.Rva

open Memory Rv32

/-! ## Positions -/

section Positions

variable {line t rest : Line} {pos k : Nat} {ch : Char}

theorem charAt_of_drop (h : line.drop pos = t) : charAt line pos = t.headD '\x00' := by
  rw [charAt, ← h, List.getD_eq_getElem?_getD, List.headD_eq_head?_getD, List.head?_drop]

theorem drop_of_append {u : Line} (h : line.drop pos = u ++ t) : line.drop (pos + u.length) = t := by
  rw [← List.drop_drop, h, List.drop_left]

/-- Blanks are skipped. -/
theorem skipSpc_of_drop (h : line.drop pos = List.replicate k ' ' ++ t)
    (ht : ∀ c, t.head? = some c → isBlank c = false) : skipSpc line pos = pos + k := by
  have hrun : t.takeWhile isBlank = [] := by
    cases t with
    | nil => rfl
    | cons c t => exact List.takeWhile_cons_of_neg (by rw [ht c rfl]; decide)
  have hall : ∀ c ∈ List.replicate k ' ', isBlank c = true := by
    intro c hc
    rw [List.eq_of_mem_replicate hc]
    decide
  rw [skipSpc, h, List.takeWhile_append_of_pos hall, hrun, List.append_nil, List.length_replicate]

theorem drop_of_blanks (h : line.drop pos = List.replicate k ' ' ++ t) : line.drop (pos + k) = t := by
  have hdrop := drop_of_append h
  rwa [List.length_replicate] at hdrop

end Positions

/-! ## Characters and registers -/

section Operands

variable {ctx : Context} {c : Cursor} {t rest : Line} {k : Nat} {ch : Char}

theorem has_of_drop (h : ctx.line.drop c.position = List.replicate k ' ' ++ ch :: rest)
    (hch : isBlank ch = false) : Has ctx ch c { c with position := c.position + k + 1 } := by
  have hskip := skipSpc_of_drop h fun c hc => Option.some.inj hc ▸ hch
  have hchar := charAt_of_drop (drop_of_blanks h)
  rw [Has, found, cmpNextNonSpace, hskip, hchar]
  simp

theorem hasNot_of_drop (h : ctx.line.drop c.position = List.replicate k ' ' ++ t) (hne : t.headD '\x00' ≠ ch)
    (ht : ∀ c, t.head? = some c → isBlank c = false) : HasNot ctx ch c { c with position := c.position + k } := by
  have hskip := skipSpc_of_drop h ht
  have hchar := charAt_of_drop (drop_of_blanks h)
  rw [HasNot, found, cmpNextNonSpace, hskip, hchar, if_neg hne]

theorem isBlank_of_alphaNumeric {ch : Char} (h : alphaNumeric ch = true) : isBlank ch = false := by
  rw [isBlank, decide_eq_false_iff_not]
  rintro (rfl | rfl) <;> exact absurd h (by decide)

theorem alphaNumeric_of_alphabetic {ch : Char} (h : alphabetic ch = true) : alphaNumeric ch = true := by
  simp [alphaNumeric, h]

/-- A name is no blank. -/
theorem not_blank_of_alphabetic {name : Line} (hhead : alphabetic (name.headD '\x00') = true) :
    ∀ x, (name ++ rest).head? = some x → isBlank x = false := by
  intro x hx
  cases name with
  | nil => exact absurd hhead (by decide)
  | cons c name => exact Option.some.inj hx ▸ isBlank_of_alphaNumeric (alphaNumeric_of_alphabetic hhead)

/-- An identifier is read up to its end. -/
theorem getIdentifier_of_drop {line name : Line} {pos n : Nat} (h : line.drop pos = name ++ rest)
    (hhead : alphabetic (name.headD '\x00') = true) (hname : ∀ c ∈ name, alphaNumeric c = true)
    (hn : name.length < n) (hrest : ∀ c, rest.head? = some c → alphaNumeric c = false) : getIdentifier line pos n = name := by
  have hne : name ≠ [] := by
    rintro rfl
    exact absurd hhead (by decide)
  have hchar : charAt line pos = name.headD '\x00' := by
    obtain ⟨c, name, rfl⟩ := List.exists_cons_of_ne_nil hne
    exact (charAt_of_drop h).trans rfl
  have hstop : rest.takeWhile alphaNumeric = [] := by
    cases rest with
    | nil => rfl
    | cons c rest => exact List.takeWhile_cons_of_neg (by rw [hrest c rfl]; decide)
  rw [getIdentifier, hchar, if_pos hhead, h, List.takeWhile_append_of_pos hname, hstop, List.append_nil,
    List.take_of_length_le (by omega)]

/-- A register is read where its name is. -/
theorem isReg_of_drop {name : Line} {r : Reg}
    (h : ctx.line.drop c.position = List.replicate k ' ' ++ (name ++ rest))
    (hname : (name.all alphaNumeric && alphabetic (name.headD '\x00') &&
      decide (name.length < thingBufferLength)) = true)
    (hfind : ctx.registers.table.value? name = some (regWord r))
    (hrest : ∀ c, rest.head? = some c → alphaNumeric c = false) :
    IsReg ctx c r { c with position := c.position + k + name.length } := by
  rw [Bool.and_eq_true, Bool.and_eq_true, List.all_eq_true, decide_eq_true_eq] at hname
  obtain ⟨⟨hall, hhead⟩, hlen⟩ := hname
  have hskip := skipSpc_of_drop h (not_blank_of_alphabetic hhead)
  have hident := getIdentifier_of_drop (drop_of_blanks h) hhead hall hlen hrest
  have hne : name ≠ [] := by
    rintro rfl
    exact absurd hhead (by decide)
  rw [SymTable.value?, Option.bind_eq_some_iff] at hfind
  obtain ⟨ptr, hptr, hvalue⟩ := hfind
  rw [Option.ite_none_right_eq_some, Option.some.injEq] at hvalue
  rw [IsReg, getReg, hskip, hident, if_neg hne]
  simp only [hptr, hvalue.2]

end Operands

/-! ## Numbers -/

section Numbers

variable {env : Env} {line rest : Line} {pos n : Nat}

/-- The text ends an expression: there is no more of the line, or a bracket. -/
def Ends (rest : Line) : Prop := rest = [] ∨ rest.head? = some '['

theorem Ends.headD (h : Ends rest) : rest.headD '\x00' = '\x00' ∨ rest.headD '\x00' = '[' := by
  rcases h with rfl | h
  · exact Or.inl rfl
  · refine Or.inr ?_
    rw [List.headD_eq_head?_getD, h]
    rfl

theorem Ends.not_blank (h : Ends rest) : ∀ c, rest.head? = some c → isBlank c = false := by
  intro c hc
  rcases h with rfl | h
  · cases hc
  · obtain rfl := Option.some.inj (h.symm.trans hc)
    decide

theorem numChar_of_isDigit {c : Char} (h : c.isDigit = true) : numChar 10 c = some (c.toNat - '0'.toNat) := by
  rw [Char.isDigit, Bool.and_eq_true, decide_eq_true_eq, decide_eq_true_eq] at h
  have hlow : ¬ c < '0' := Char.not_lt.2 h.1
  have hhigh : c ≤ '9' := h.2
  have hletter : ¬ 'a' ≤ c := fun hle => absurd (Char.le_trans hle hhigh) (by decide)
  have hradix : c.toNat < '0'.toNat + 10 := Nat.lt_succ_of_le hhigh
  rw [numChar, if_neg hlow, if_neg hletter, if_pos hhigh, if_pos hradix]

/-- Digits are read as long as there are any. -/
theorem digits_of_isDigit {ds : Line} (hds : ∀ c ∈ ds, c.isDigit = true) (hrest : Ends rest) (hne : ds ≠ [])
    (v : Word) (i : Nat) (found : Bool) : digits 10 (ds ++ rest) v i found =
      (ds.foldl (fun w c => w * 10 + BitVec.ofNat 32 (c.toNat - '0'.toNat)) v, i + ds.length, true) := by
  have hstop : ∀ (v : Word) (i : Nat) (found : Bool), digits 10 rest v i found = (v, i, found) := by
    intro v i found
    rcases hrest with rfl | h
    · rfl
    · obtain ⟨t, rfl⟩ := List.head?_eq_some_iff.1 h
      rfl
  induction ds generalizing v i found with
  | nil => exact absurd rfl hne
  | cons c ds ih =>
    obtain ⟨hc, hds⟩ := List.forall_mem_cons.1 hds
    have hnot : c ≠ '_' := by
      rintro rfl
      exact absurd hc (by decide)
    rw [List.cons_append, digits, if_neg hnot, numChar_of_isDigit hc]
    cases ds with
    | nil => exact hstop ..
    | cons d ds =>
      show digits 10 (d :: ds ++ rest) _ _ true = _
      rw [ih hds (List.cons_ne_nil _ _), List.foldl_cons, List.length_cons]
      refine Prod.ext rfl (Prod.ext ?_ rfl)
      show i + 1 + (d :: ds).length = i + ((d :: ds).length + 1)
      omega

/-- The value of digits, as it is computed. -/
def digitsValue (ds : Line) : Word := ds.foldl (fun w c => w * 10 + BitVec.ofNat 32 (c.toNat - '0'.toNat)) 0

theorem ne_of_isDigit {c d : Char} (h : c.isDigit = true) (hd : d.isDigit = false) : c ≠ d := by
  rintro rfl
  exact absurd (h.symm.trans hd) (by decide)

theorem isBlank_of_isDigit {c : Char} (h : c.isDigit = true) : isBlank c = false := by
  rw [isBlank, decide_eq_false_iff_not, not_or]
  exact ⟨ne_of_isDigit h (by decide), ne_of_isDigit h (by decide)⟩

theorem alphabetic_of_isDigit {c : Char} (h : c.isDigit = true) : alphabetic c = false := by
  have hhigh : c ≤ '9' := by
    rw [Char.isDigit, Bool.and_eq_true, decide_eq_true_eq, decide_eq_true_eq] at h
    exact h.2
  rw [alphabetic, decide_eq_false_iff_not]
  rintro (rfl | ⟨hle, -⟩ | ⟨hle, -⟩)
  · exact absurd h (by decide)
  · exact absurd (Char.le_trans hle hhigh) (by decide)
  · exact absurd (Char.le_trans hle hhigh) (by decide)

/-- What may stand behind the first digit does not make a prefix of another radix. -/
theorem upperCase_of_isDigit {c : Char} (h : c.isDigit = true) : upperCase c ≠ 'X' ∧ upperCase c ≠ 'B' := by
  have hall : ∀ n < 58, 48 ≤ n → upperCase (Char.ofNat n) ≠ 'X' ∧ upperCase (Char.ofNat n) ≠ 'B' := by decide
  rw [Char.isDigit, Bool.and_eq_true, decide_eq_true_eq, decide_eq_true_eq] at h
  have hnat := hall c.toNat (Nat.lt_succ_of_le h.2) h.1
  rwa [Char.ofNat_toNat] at hnat

section Literal

variable {ds : Line} (hds : ∀ c ∈ ds, c.isDigit = true) (hne : ds ≠ []) (hrest : Ends rest)
  (h : line.drop pos = ds ++ rest)

include hds hne hrest h

theorem getNum_of_drop : getNum line pos 10 = some (digitsValue ds, pos + ds.length) := by
  have hblank : ∀ c, (ds ++ rest).head? = some c → isBlank c = false := by
    intro c hc
    obtain ⟨d, ds, rfl⟩ := List.exists_cons_of_ne_nil hne
    exact Option.some.inj hc ▸ isBlank_of_isDigit (hds d List.mem_cons_self)
  have hskip : skipSpc line pos = pos := skipSpc_of_drop (k := 0) h hblank
  rw [getNum, hskip, h, digits_of_isDigit hds hrest hne]
  rfl

theorem numberRadix_of_drop : numberRadix line pos = some (10, pos) := by
  obtain ⟨d, ds, rfl⟩ := List.exists_cons_of_ne_nil hne
  obtain ⟨hd, hds⟩ := List.forall_mem_cons.1 hds
  have hchar : charAt line pos = d := charAt_of_drop h
  have hnext : charAt line (pos + 1) = (ds ++ rest).headD '\x00' := by
    have hdrop : line.drop (pos + 1) = ds ++ rest := drop_of_append (u := [d]) h
    exact charAt_of_drop hdrop
  have hradix : upperCase (charAt line (pos + 1)) ≠ 'X' ∧ upperCase (charAt line (pos + 1)) ≠ 'B' := by
    rw [hnext]
    cases ds with
    | nil =>
      rcases hrest.headD with heq | heq <;>
      · rw [List.nil_append, heq]
        decide
    | cons e ds => exact upperCase_of_isDigit (hds e List.mem_cons_self)
  have hdigit : '0' ≤ d ∧ d ≤ '9' := by
    rw [Char.isDigit, Bool.and_eq_true, decide_eq_true_eq, decide_eq_true_eq] at hd
    exact hd
  rw [numberRadix, hchar, if_neg fun hx => hradix.1 hx.2, if_neg fun hx => hradix.2 hx.2, if_pos hdigit]

theorem readOperand_of_drop : readOperand env line pos =
    { status := evalOkay, pos := pos + ds.length, value := digitsValue ds } := by
  have hnum := getNum_of_drop hds hne hrest h
  have hradix := numberRadix_of_drop hds hne hrest h
  obtain ⟨d, ds, rfl⟩ := List.exists_cons_of_ne_nil hne
  have hd := hds d List.mem_cons_self
  have hchar : charAt line pos = d := charAt_of_drop h
  have hident : getIdentifier line pos lineLength = [] := by
    rw [getIdentifier, hchar, alphabetic_of_isDigit hd]
    rfl
  have hnumber : numberOperand line pos =
      { status := evalOkay, pos := pos + (d :: ds).length, value := digitsValue (d :: ds) } := by
    rw [numberOperand, hradix]
    simp only [hnum]
  rw [readOperand, hident]
  simp only [ne_eq, not_true_eq_false, if_false, hchar]
  split
  · exact absurd hd (by decide)
  · exact absurd hd (by decide)
  · exact absurd hd (by decide)
  · exact absurd hd (by decide)
  · exact hnumber

end Literal

theorem getOperator_of_drop (hrest : Ends rest) (h : line.drop pos = rest) :
    getOperator line pos = (evalOkay, .end, pos) := by
  have hskip : skipSpc line pos = pos := skipSpc_of_drop (k := 0) h hrest.not_blank
  have hsign : ∀ next, signOperator (charAt line pos) next = some (.end, 0) := by
    intro next
    rcases hrest.headD with heq | heq <;>
    · rw [charAt_of_drop h, heq]
      rfl
  rw [getOperator, hskip]
  simp only [hsign]
  rfl

/-- An expression that is one operand. -/
theorem evaluate_operand {v : Variable} (hv : getVariable env line pos = v) (hstatus : v.status = evalOkay)
    (hbracket : v.bracket = false) (hread : v.undefinedRead = false)
    (hend : getOperator line v.pos = (evalOkay, .end, v.pos)) :
    evaluate env line pos = .ok ⟨evalOkay, v.pos, v.unary.apply v.value, 0, false⟩ := by
  have hfatal : notFatal evalOkay = false := by decide
  rw [evaluate, evalInner, evalLoop]
  simp [operandStep, hv, EvalState.read, hstatus, hfatal, hbracket, hread, operatorStep, hend, operatePending,
    EvalState.matched, EvalState.stop, Operator.priority, Except.map, mathstackSize]

section Value

variable {ctx : Context} {c : Cursor} {ds : Line} {k : Nat}

/-- A number is read, with the unary operator in front of it. -/
theorem isValue_of_unary {p q : Nat} {u : Unary} (hskip : skipSpc ctx.line c.position = p)
    (hunary : readUnary ctx.line p = (u, q)) (hds : ∀ c ∈ ds, c.isDigit = true) (hne : ds ≠ []) (hrest : Ends rest)
    (h : ctx.line.drop q = ds ++ rest) :
    IsValue ctx c (u.apply (digitsValue ds)) { c with position := q + ds.length } := by
  have hvar : getVariable ctx.env ctx.line c.position =
      { status := evalOkay, pos := q + ds.length, value := digitsValue ds, unary := u } := by
    rw [getVariable, hskip, hunary]
    simp only [readOperand_of_drop hds hne hrest h, true_or, if_true]
  have hend := getOperator_of_drop hrest (drop_of_append h)
  exact ⟨_, evaluate_operand hvar rfl rfl rfl hend, rfl, rfl, by simp⟩

theorem head?_digits (hds : ∀ c ∈ ds, c.isDigit = true) (hne : ds ≠ []) :
    ∃ d, d.isDigit = true ∧ ∀ t : Line, (ds ++ t).head? = some d := by
  obtain ⟨d, ds, rfl⟩ := List.exists_cons_of_ne_nil hne
  exact ⟨d, hds d List.mem_cons_self, fun _ => rfl⟩

/-- **A number is read.** -/
theorem isValue_of_drop (hds : ∀ c ∈ ds, c.isDigit = true) (hne : ds ≠ []) (hrest : Ends rest)
    (h : ctx.line.drop c.position = List.replicate k ' ' ++ (ds ++ rest)) :
    IsValue ctx c (digitsValue ds) { c with position := c.position + k + ds.length } := by
  obtain ⟨d, hd, hhead⟩ := head?_digits hds hne
  have hskip := skipSpc_of_drop h fun ch hch =>
    Option.some.inj ((hhead rest).symm.trans hch) ▸ isBlank_of_isDigit hd
  have hdrop := drop_of_blanks h
  have hchar : charAt ctx.line (c.position + k) = d := by
    rw [charAt_of_drop hdrop, List.headD_eq_head?_getD, hhead, Option.getD_some]
  have hunary : readUnary ctx.line (c.position + k) = (.plus, c.position + k) := by
    rw [readUnary, hchar]
    split
    · exact absurd hd (by decide)
    · exact absurd hd (by decide)
    · exact absurd hd (by decide)
    · exact absurd hd (by decide)
    · rfl
  exact isValue_of_unary hskip hunary hds hne hrest hdrop

/-- So is one with a sign. -/
theorem isValue_neg_of_drop (hds : ∀ c ∈ ds, c.isDigit = true) (hne : ds ≠ []) (hrest : Ends rest)
    (h : ctx.line.drop c.position = List.replicate k ' ' ++ '-' :: (ds ++ rest)) :
    IsValue ctx c (-digitsValue ds) { c with position := c.position + k + 1 + ds.length } := by
  obtain ⟨d, hd, hhead⟩ := head?_digits hds hne
  have hskip := skipSpc_of_drop h fun ch hch => Option.some.inj hch ▸ (by decide : isBlank '-' = false)
  have hdrop := drop_of_blanks h
  have hdigits : ctx.line.drop (c.position + k + 1) = ds ++ rest := drop_of_append (u := ['-']) hdrop
  have hchar : charAt ctx.line (c.position + k) = '-' := charAt_of_drop hdrop
  have hskip' : skipSpc ctx.line (c.position + k + 1) = c.position + k + 1 := by
    refine skipSpc_of_drop (k := 0) hdigits fun ch hch => ?_
    exact Option.some.inj ((hhead rest).symm.trans hch) ▸ isBlank_of_isDigit hd
  have hunary : readUnary ctx.line (c.position + k) = (.minus, c.position + k + 1) := by
    rw [readUnary, hchar]
    simp only [hskip']
  exact isValue_of_unary hskip hunary hds hne hrest hdigits

end Value

end Numbers

end RiscyOS.Rva
