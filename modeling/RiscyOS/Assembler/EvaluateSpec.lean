import Mathlib.Tactic.IntervalCases
import RiscyOS.Lib.Precedence
import RiscyOS.Assembler.Evaluate

/-!
# What an expression is worth

The expressions that can be read from a line are given by `Reads`, a grammar over the positions of the line
with no word about how they are evaluated.  One of them is what the priorities ask for, and `evaluate` comes
back without an error just if the line has such an expression up to a terminator, no division in it is
by zero, and twenty words of stack are enough (`evaluate_okay_iff`).

* Reading goes on to the right (`getVariable_bounds`, `getOperator_bounds`).
* `evaluation_sound`, `evaluation_complete` — the two directions, each by induction on the fuel, with the
  waiting operations of the C code as those of `Precedence.Lang.run`.
-/

set_option autoImplicit false

namespace RiscyOS.Rva

open Memory Precedence

/-- An expression: values with their unary operators applied, brackets with theirs, and operations. -/
abbrev Expr := Tree Word Operator Unary

/-- What the operators do, and what they take of `math_stack`. -/
def exprLang : Lang Word Operator Unary where
  prio := Operator.priority
  apply o x y := if o.dividesByZero y then none else some (o.operate x y)
  close := Unary.apply
  frame := pendingWords
  mark := 1
  limit := mathstackSize

/-- **The expressions that a line has at a position**, and where they end: any tree over what is read
there, whatever the priorities. -/
inductive Reads (env : Env) (input : Line) : Nat → Expr → Nat → Prop
  | value {pos : Nat} {v : Variable} (hv : getVariable env input pos = v) (hstatus : v.status = evalOkay)
      (hbracket : v.bracket = false) : Reads env input pos (.leaf (v.unary.apply v.value)) v.pos
  | group {pos p p' : Nat} {v : Variable} {e : Expr} (hv : getVariable env input pos = v)
      (hstatus : v.status = evalOkay) (hbracket : v.bracket = true) (he : Reads env input v.pos e p)
      (hclose : getOperator input p = (evalOkay, .closebr, p')) : Reads env input pos (.group v.unary e) p'
  | op {pos p p' p'' : Nat} {o : Operator} {l r : Expr} (hl : Reads env input pos l p)
      (ho : getOperator input p = (evalOkay, o, p')) (hprio : 1 < o.priority)
      (hr : Reads env input p' r p'') : Reads env input pos (.node o l r) p''

/-- The other operands and operators of an expression, from a position to where it ends. -/
inductive Follows (env : Env) (input : Line) : Nat → List (Operator × Expr) → Nat → Prop
  | nil {p : Nat} : Follows env input p [] p
  | cons {p p' p'' p''' : Nat} {o : Operator} {b : Expr} {rest : List (Operator × Expr)}
      (ho : getOperator input p = (evalOkay, o, p')) (hprio : 1 < o.priority) (hb : Reads env input p' b p'')
      (hop : b.IsOperand) (hrest : Follows env input p'' rest p''') : Follows env input p ((o, b) :: rest) p'''

section Grammar

variable {env : Env} {input : Line} {pos p p' p'' : Nat} {e b : Expr} {o : Operator}
  {rest rest' : List (Operator × Expr)}

theorem Follows.append (h : Follows env input p rest p') (h' : Follows env input p' rest' p'') :
    Follows env input p (rest ++ rest') p'' := by
  induction h with
  | nil => exact h'
  | cons ho hprio hb hop _ ih => exact .cons ho hprio hb hop (ih h')

/-- An expression, taken apart into what is read one after the other. -/
theorem Reads.flat (h : Reads env input pos e p) :
    ∃ q, Reads env input pos e.first q ∧ Follows env input q e.rest p := by
  induction h with
  | value hv hstatus hbracket => exact ⟨_, .value hv hstatus hbracket, .nil⟩
  | group hv hstatus hbracket he hclose => exact ⟨_, .group hv hstatus hbracket he hclose, .nil⟩
  | op _ ho hprio _ ihl ihr =>
    obtain ⟨q, hfirst, hrest⟩ := ihl
    obtain ⟨q', hfirst', hrest'⟩ := ihr
    exact ⟨q, hfirst, hrest.append (.cons ho hprio hfirst' (Tree.isOperand_first _) hrest')⟩

theorem Reads.graft (h : Reads env input pos e p) (ho : getOperator input p = (evalOkay, o, p'))
    (hprio : 1 < o.priority) (hb : Reads env input p' b p'') :
    Reads env input pos (e.graft Operator.priority o b) p'' := by
  induction h with
  | value hv hstatus hbracket => exact .op (.value hv hstatus hbracket) ho hprio hb
  | group hv hstatus hbracket he hclose => exact .op (.group hv hstatus hbracket he hclose) ho hprio hb
  | op hl ho' hprio' hr _ ihr =>
    rw [Tree.graft]
    split
    · exact .op (.op hl ho' hprio' hr) ho hprio hb
    · exact .op hl ho' hprio' (ihr ho)

/-- What is read one after the other can be read as one expression, the one that the priorities ask for. -/
theorem Reads.parse (h : Reads env input pos e p) (hrest : Follows env input p rest p') :
    Reads env input pos (Tree.parse Operator.priority e rest) p' := by
  induction hrest generalizing e with
  | nil => exact h
  | cons ho hprio hb _ _ ih => exact ih (h.graft ho hprio hb)

theorem Follows.isOperand (h : Follows env input p rest p') : ∀ x ∈ rest, x.2.IsOperand := by
  induction h with
  | nil => exact fun x hx => absurd hx List.not_mem_nil
  | cons _ _ _ hop _ ih =>
    intro x hx
    obtain rfl | hx := List.mem_cons.1 hx
    · exact hop
    · exact ih x hx

end Grammar

/-! ## Reading goes on to the right -/

section Bounds

variable {env : Env} {input : Line}

theorem readUnary_bounds {pos : Nat} (h : pos ≤ input.length) :
    pos ≤ (readUnary input pos).2 ∧ (readUnary input pos).2 ≤ input.length := by
  have hchar : charAt input pos ≠ '\x00' → pos ≤ skipSpc input (pos + 1) ∧ skipSpc input (pos + 1) ≤ input.length :=
    fun hne => ⟨(Nat.le_succ pos).trans (le_skipSpc ..), skipSpc_le (lt_length_of_charAt hne)⟩
  rw [readUnary]
  split
  · rename_i heq
    exact hchar (heq ▸ by decide)
  · rename_i heq
    exact hchar (heq ▸ by decide)
  · rename_i heq
    exact hchar (heq ▸ by decide)
  · rename_i heq
    exact hchar (heq ▸ by decide)
  · exact ⟨Nat.le_refl _, h⟩

/-- What is read that does not end the evaluation takes some of the line. -/
def Variable.Advances (input : Line) (ii : Nat) (v : Variable) : Prop :=
  v.status = evalOkay ∨ notFatal v.status → ii < v.pos ∧ v.pos ≤ input.length

theorem symbolOperand_advances {ii : Nat} (h : ii ≤ input.length)
    (hident : getIdentifier input ii lineLength ≠ []) :
    (symbolOperand env (getIdentifier input ii lineLength) ii).Advances input ii := by
  have hpos := List.length_pos_iff.2 hident
  have hle := length_getIdentifier_le input ii lineLength h
  have hv : (symbolOperand env (getIdentifier input ii lineLength) ii).pos =
      ii + (getIdentifier input ii lineLength).length := by
    rw [symbolOperand]
    split
    · split <;> rfl
    · split <;> rfl
  exact fun _ => ⟨by omega, by omega⟩

theorem localLabelOperand_advances {ii : Nat} (hc : charAt input ii = '%') :
    (localLabelOperand env input ii).Advances input ii := by
  have hlt := lt_length_of_eq hc (by decide)
  have hnext : ∀ c, c ≠ '\x00' → upperCase (charAt input (ii + 1)) = c → ii + 2 ≤ input.length := by
    intro c hne hup
    refine lt_length_of_charAt fun hz => hne ?_
    rw [← hup, hz]
    rfl
  rw [localLabelOperand]
  generalize hd : (if upperCase (charAt input (ii + 1)) = 'B' then (Directions.backwards, ii + 2)
    else if upperCase (charAt input (ii + 1)) = 'F' then (.forwards, ii + 2) else (.both, ii + 1)) = d
  have hle : ii < d.2 ∧ d.2 ≤ input.length := by
    rw [← hd]
    split
    · rename_i hb
      exact ⟨by simp, hnext _ (by decide) hb⟩
    · split
      · rename_i hf
        exact ⟨by simp, hnext _ (by decide) hf⟩
      · exact ⟨by simp, hlt⟩
  simp only
  cases hnum : getNum input d.2 10 with
  | none =>
    intro h
    simp only at h
    exact absurd h (by decide)
  | some q =>
    have hb := getNum_bounds hle.2 hnum
    intro _
    simp only
    split <;> exact ⟨hle.1.trans hb.1, hb.2⟩

/-- Putting the position into an error leaves it one that ends the evaluation. -/
theorem fatal_position {c : Word} {i : Nat} (hi : i < 2 ^ 16) (hc : ¬ notFatal c) (hne : c ≠ evalOkay) :
    ¬ (c ||| position i = evalOkay ∨ notFatal (c ||| position i)) := by
  rintro (h | h)
  · exact hne (BitVec.or_eq_zero_iff.1 h).1
  · have hpos : position i &&& allExceptLastPass = 0 := by
      apply BitVec.eq_of_getLsbD_eq
      intro k hk
      have hbit : 16 ≤ k → (position i).getLsbD k = false := fun hle => by
        rw [position, BitVec.getLsbD_ofNat, Nat.testBit_lt_two_pow (hi.trans_le (Nat.pow_le_pow_right (by omega) hle)),
          Bool.and_false]
      rw [BitVec.getLsbD_and]
      by_cases hle : 16 ≤ k
      · rw [hbit hle]
        simp
      · have hmask : allExceptLastPass.getLsbD k = false := by
          interval_cases k <;> rfl
        rw [hmask]
        simp
    have hor : (c ||| position i) &&& allExceptLastPass = (c &&& allExceptLastPass) ||| (position i &&& allExceptLastPass) := by
      apply BitVec.eq_of_getLsbD_eq
      intro k _
      simp only [BitVec.getLsbD_and, BitVec.getLsbD_or, Bool.and_or_distrib_right]
    rw [notFatal, hor, hpos] at h
    exact hc (by simpa [notFatal] using h)

theorem characterOperand_advances {ii : Nat} (hlen : input.length ≤ lineLength) (hc : charAt input ii = '\'') :
    (characterOperand input ii).Advances input ii := by
  have hlt := lt_length_of_eq hc (by decide)
  have hi : ∀ b : Bool, ii < (if b then ii + 2 else ii + 1) ∧ (if b then ii + 2 else ii + 1) ≤ ii + 2 := by
    intro b
    cases b <;> simp
  rw [characterOperand]
  obtain ⟨hgt, hle⟩ := hi (charAt input (ii + 1) = '\\')
  generalize (if decide (charAt input (ii + 1) = '\\') = true then ii + 2 else ii + 1) = i at hgt hle
  split
  · rename_i hquote
    have hlast := lt_length_of_eq hquote.2.2 (by decide)
    exact fun _ => ⟨by simp only; omega, hlast⟩
  · refine fun h => absurd h (fatal_position ?_ (by decide) (by decide))
    rw [lineLength] at hlen
    omega

theorem numberOperand_advances {ii : Nat} (h : ii ≤ input.length) : (numberOperand input ii).Advances input ii := by
  rw [numberOperand]
  cases hradix : numberRadix input ii with
  | none =>
    intro h
    simp only at h
    exact absurd h (by decide)
  | some q =>
    obtain ⟨radix, i⟩ := q
    have hi : ii ≤ i ∧ i ≤ input.length := by
      have hnext : ∀ j c, c ≠ '\x00' → charAt input j = c → j + 1 ≤ input.length := fun j c hne hj =>
        lt_length_of_charAt (hj ▸ hne)
      have hupper : ∀ j c, c ≠ '\x00' → upperCase (charAt input j) = c → j + 1 ≤ input.length := by
        intro j c hne hj
        refine lt_length_of_charAt fun hz => hne ?_
        rw [← hj, hz]
        rfl
      simp only [numberRadix] at hradix
      split at hradix
      · rename_i hc
        obtain ⟨-, rfl⟩ := Prod.mk.inj (Option.some.inj hradix)
        exact ⟨by omega, hupper _ _ (by decide) hc.2⟩
      split at hradix
      · rename_i hc
        obtain ⟨-, rfl⟩ := Prod.mk.inj (Option.some.inj hradix)
        exact ⟨by omega, hupper _ _ (by decide) hc.2⟩
      split at hradix
      · obtain ⟨-, rfl⟩ := Prod.mk.inj (Option.some.inj hradix)
        exact ⟨Nat.le_refl _, h⟩
      split at hradix
      · rename_i hc
        obtain ⟨-, rfl⟩ := Prod.mk.inj (Option.some.inj hradix)
        exact ⟨by omega, hnext _ _ (by decide) hc⟩
      split at hradix
      · rename_i hc
        obtain ⟨-, rfl⟩ := Prod.mk.inj (Option.some.inj hradix)
        exact ⟨by omega, hnext _ _ (by decide) hc⟩
      split at hradix
      · rename_i hc
        obtain ⟨-, rfl⟩ := Prod.mk.inj (Option.some.inj hradix)
        exact ⟨by omega, hnext _ _ (by decide) hc⟩
      · exact absurd hradix (by simp)
    cases hnum : getNum input i radix with
    | none =>
      intro h
      simp only [hnum] at h
      exact absurd h (by decide)
    | some q =>
      have hb := getNum_bounds hi.2 hnum
      intro _
      simp only [hnum]
      exact ⟨by omega, hb.2⟩

theorem readOperand_advances (env : Env) {ii : Nat} (hlen : input.length ≤ lineLength) (h : ii ≤ input.length) :
    (readOperand env input ii).Advances input ii := by
  rw [readOperand]
  split
  · rename_i hident
    exact symbolOperand_advances h hident
  · split
    · rename_i hc
      exact fun _ => ⟨Nat.lt_succ_self ii, lt_length_of_eq hc (by decide)⟩
    · rename_i hc
      exact localLabelOperand_advances hc
    · rename_i hc
      exact characterOperand_advances hlen hc
    · rename_i hc
      have hlt := lt_length_of_eq hc (by decide)
      rw [hereOperand]
      split <;> exact fun _ => ⟨Nat.lt_succ_self ii, hlt⟩
    · exact numberOperand_advances h

/-- **An operand** takes some of the line, or ends the evaluation. -/
theorem getVariable_bounds (env : Env) {pos : Nat} (hlen : input.length ≤ lineLength) (h : pos ≤ input.length) :
    (getVariable env input pos).pos ≤ input.length ∧
      ((getVariable env input pos).status = evalOkay ∨ notFatal (getVariable env input pos).status →
        pos < (getVariable env input pos).pos) := by
  have hskip := skipSpc_le h
  have hle := le_skipSpc input pos
  obtain ⟨hge, hunary⟩ := readUnary_bounds hskip
  have hadv := readOperand_advances env hlen hunary
  rw [getVariable]
  generalize readOperand env input (readUnary input (skipSpc input pos)).2 = v at hadv
  constructor
  · split
    · rename_i hok
      exact (hadv hok).2
    · exact hskip
  · intro hok
    rw [if_pos hok]
    have hlt := (hadv hok).1
    show pos < v.pos
    omega

theorem signOperator_length {c next : Char} {o : Operator} {n : Nat} (h : signOperator c next = some (o, n)) :
    n = 0 ∧ o = .end ∨ n = 1 ∧ c ≠ '\x00' ∨ n = 2 ∧ next ≠ '\x00' := by
  unfold signOperator at h
  split at h <;> grind

/-- An operator takes some of the line, unless it is the end of the expression. -/
theorem getOperator_bounds {pos p : Nat} {o : Operator} (h : pos ≤ input.length)
    (ho : getOperator input pos = (evalOkay, o, p)) : pos ≤ p ∧ p ≤ input.length ∧ (o ≠ .end → pos < p) := by
  have hskip := skipSpc_le h
  have hle := le_skipSpc input pos
  have hbuffer := length_getIdentifier_le input (skipSpc input pos) symNameMax hskip
  rw [getOperator] at ho
  cases hsign : signOperator (charAt input (skipSpc input pos)) (charAt input (skipSpc input pos + 1)) with
  | some q =>
    rw [hsign] at ho
    obtain ⟨rfl, rfl⟩ : q.1 = o ∧ skipSpc input pos + q.2 = p := by simpa using ho
    obtain ⟨hn, hend⟩ | ⟨hn, hc⟩ | ⟨hn, hc⟩ := signOperator_length hsign
    · exact ⟨by omega, by omega, fun hne => absurd hend hne⟩
    · have := lt_length_of_charAt hc
      exact ⟨by omega, by omega, fun _ => by omega⟩
    · have := lt_length_of_charAt hc
      exact ⟨by omega, by omega, fun _ => by omega⟩
  | none =>
    rw [hsign] at ho
    have hne : evalNoOperator ≠ evalOkay := by decide
    simp only at ho
    split at ho
    · exact absurd (congrArg Prod.fst ho) hne
    · rename_i hident
      have hpos := List.length_pos_iff.2 hident
      split at ho
      · have hp : skipSpc input pos + (getIdentifier input (skipSpc input pos) symNameMax).length = p :=
          congrArg (·.2.2) ho
        exact ⟨by omega, by omega, fun _ => by omega⟩
      · exact absurd (congrArg Prod.fst ho) hne

end Bounds

/-! ## One turn of the loop -/

section Steps

variable {env : Env} {input : Line} {st st' : EvalState} {v : Variable} {operand operand' : Word}
  {marker base : Nat} {pending pending' : Pending}

theorem notFatal_okay : ¬ notFatal evalOkay := by decide

theorem error_read : (st.read v).error = evalOkay ↔ v.status = evalOkay ∨ notFatal v.status := by
  rw [EvalState.read]
  by_cases h : notFatal v.status <;> simp [h]

/-- If no error is kept, there was none. -/
theorem firstError_read (h : (st.read v).firstError = evalOkay) :
    st.firstError = evalOkay ∧ ¬ notFatal v.status := by
  rw [EvalState.read] at h
  by_cases hfatal : notFatal v.status
  · by_cases hfirst : st.firstError = evalOkay
    · simp only [hfatal, hfirst, and_self, if_true] at h
      exact absurd (h ▸ hfatal) notFatal_okay
    · simp only [hfatal, hfirst, and_false, if_false] at h
  · exact ⟨by simpa [hfatal] using h, hfatal⟩

theorem read_of_okay (hstatus : v.status = evalOkay) (hfirst : st.firstError = evalOkay) :
    (st.read v).error = evalOkay ∧ (st.read v).firstError = evalOkay ∧ (st.read v).pos = v.pos := by
  have hfatal : ¬ notFatal v.status := hstatus ▸ notFatal_okay
  refine ⟨error_read.2 (Or.inl hstatus), ?_, rfl⟩
  simpa [EvalState.read, hfatal] using hfirst

/-- Adding a position to an error does not make it none. -/
theorem error_fail (h : st.error ≠ evalOkay) : st.fail.error ≠ evalOkay := by
  have hor : ∀ w : Word, st.error ||| w ≠ evalOkay := fun w hw => h (BitVec.or_eq_zero_iff.1 hw).1
  rw [EvalState.fail]
  split
  · exact hor _
  · split
    · exact hor _
    · exact h

/-- The loop is left without an error only if there was none. -/
theorem stop_eq_done (h : st.stop operand = .done st' operand') (hok : st'.error = evalOkay) :
    st = st' ∧ operand = operand' := by
  rw [EvalState.stop] at h
  obtain ⟨hst, hop⟩ := Turn.done.inj h
  split at hst
  · exact ⟨hst, hop⟩
  · rename_i hne
    exact absurd (hst ▸ hok) (error_fail hne)

/-- What an operand without an error is. -/
theorem operandStep_ok {inner : EvalState → Except Fault (EvalState × Word)}
    (h : operandStep env input inner st = .ok (st', operand)) (hok : st'.error = evalOkay) :
    ((getVariable env input st.pos).status = evalOkay ∨ notFatal (getVariable env input st.pos).status) ∧
      ((getVariable env input st.pos).bracket = false ∧ st' = st.read (getVariable env input st.pos) ∧
          operand = (getVariable env input st.pos).unary.apply (getVariable env input st.pos).value ∨
        (getVariable env input st.pos).bracket = true ∧
          ∃ w, inner (st.read (getVariable env input st.pos)) = .ok (st', w) ∧
            operand = (getVariable env input st.pos).unary.apply w) := by
  rw [operandStep] at h
  generalize getVariable env input st.pos = v at h ⊢
  by_cases herr : (st.read v).error = evalOkay
  · refine ⟨error_read.1 herr, ?_⟩
    rw [if_neg (not_not_intro herr)] at h
    by_cases hbracket : v.bracket
    · rw [if_pos hbracket] at h
      cases hinner : inner (st.read v) with
      | error => simp [hinner, Except.map] at h
      | ok r =>
        obtain ⟨st₁, w⟩ := r
        rw [hinner] at h
        have hr := Except.ok.inj h
        simp only at hr
        split at hr
        · obtain ⟨rfl, rfl⟩ := Prod.mk.inj hr
          exact Or.inr ⟨hbracket, w, rfl, rfl⟩
        · rename_i hne
          obtain ⟨rfl, rfl⟩ := Prod.mk.inj hr
          exact absurd hok hne
    · rw [if_neg hbracket] at h
      obtain ⟨rfl, rfl⟩ := Prod.mk.inj (Except.ok.inj h)
      exact Or.inl ⟨Bool.not_eq_true _ ▸ hbracket, rfl, rfl⟩
  · rw [if_pos herr] at h
    obtain ⟨rfl, -⟩ := Prod.mk.inj (Except.ok.inj h)
    exact absurd hok herr

/-- What the state is like before an operator is done: its position is behind the operator. -/
abbrev EvalState.at (st : EvalState) (p : Nat) : EvalState := { st with pos := p, error := evalOkay }

/-- The loop goes on behind an operator, with its operation waiting. -/
theorem operatorStep_again (h : operatorStep input marker base pending st operand = .again pending' st') :
    st.error = evalOkay ∧ ∃ o p q x, getOperator input st.pos = (evalOkay, o, p) ∧ 1 < o.priority ∧
      operatePending o.priority pending operand (st.at p) = (q, x, st') ∧ st'.error = evalOkay ∧
      pending' = (x, o) :: q ∧ base + pendingWords * q.length + pendingWords ≤ mathstackSize := by
  rw [operatorStep] at h
  split at h
  · exact absurd h (by simp [EvalState.stop])
  rename_i herr
  generalize hop : getOperator input st.pos = g at h ⊢
  obtain ⟨status, o, p⟩ := g
  simp only at h
  split at h
  · exact absurd h (by simp [EvalState.stop])
  rename_i hstatus
  obtain rfl : status = evalOkay := not_not.1 hstatus
  generalize hdone : operatePending o.priority pending operand (st.at p) = r at h ⊢
  obtain ⟨q, x, st₁⟩ := r
  simp only at h
  split at h
  · exact absurd h (by simp [EvalState.stop])
  rename_i hprio
  split at h
  · rename_i hroom
    split at h
    · exact absurd h (by simp [EvalState.stop])
    · rename_i hok
      obtain ⟨rfl, rfl⟩ := Turn.again.inj h
      exact ⟨not_not.1 herr, o, p, q, x, rfl, Nat.lt_of_not_le hprio, hdone, not_not.1 hok, rfl, hroom⟩
  · exact absurd h (by simp [EvalState.stop])

/-- The loop is left behind a terminator that matches the marker. -/
theorem operatorStep_done (h : operatorStep input marker base pending st operand = .done st' operand')
    (hok : st'.error = evalOkay) :
    st.error = evalOkay ∧ ∃ o p q, getOperator input st.pos = (evalOkay, o, p) ∧ o.priority ≤ 1 ∧
      o.priority = marker ∧ operatePending o.priority pending operand (st.at p) = (q, operand', st') := by
  rw [operatorStep] at h
  split at h
  · rename_i herr
    obtain ⟨rfl, -⟩ := stop_eq_done h hok
    exact absurd hok herr
  rename_i herr
  generalize hop : getOperator input st.pos = g at h ⊢
  obtain ⟨status, o, p⟩ := g
  simp only at h
  split at h
  · rename_i hstatus
    obtain ⟨rfl, -⟩ := stop_eq_done h hok
    exact absurd hok hstatus
  rename_i hstatus
  obtain rfl : status = evalOkay := not_not.1 hstatus
  generalize hdone : operatePending o.priority pending operand (st.at p) = r at h ⊢
  obtain ⟨q, x, st₁⟩ := r
  simp only at h
  split at h
  · rename_i hprio
    obtain ⟨rfl, rfl⟩ := stop_eq_done h hok
    by_cases hmarker : o.priority = marker
    · refine ⟨not_not.1 herr, o, p, q, rfl, hprio, hmarker, ?_⟩
      rw [hdone, EvalState.matched, if_pos hmarker]
    · rw [EvalState.matched, if_neg hmarker] at hok
      exact absurd hok (by simp only; split <;> decide)
  · split at h
    · split at h
      · rename_i hne
        obtain ⟨rfl, -⟩ := stop_eq_done h hok
        exact absurd hok hne
      · exact absurd h (by simp)
    · have hlimit : evalMathstackLimit ≠ evalOkay := by decide
      obtain ⟨rfl, -⟩ := stop_eq_done h hok
      exact absurd hok hlimit

theorem pos_operated {o : Operator} : (st.operated o operand).pos = st.pos ∧
    (st.operated o operand).firstError = st.firstError := by
  rw [EvalState.operated]
  split <;> exact ⟨rfl, rfl⟩

/-- An error stays. -/
theorem error_operated {o : Operator} (h : st.error ≠ evalOkay) : (st.operated o operand).error = st.error := by
  rw [EvalState.operated]
  split
  · simp [h]
  · rfl

theorem pos_operatePending (p : Nat) (pending : Pending) (operand : Word) (st : EvalState) :
    (operatePending p pending operand st).2.2.pos = st.pos ∧
      (operatePending p pending operand st).2.2.firstError = st.firstError := by
  induction pending generalizing operand st with
  | nil => exact ⟨rfl, rfl⟩
  | cons x pending ih =>
    rw [operatePending]
    split
    · exact ⟨(ih _ _).1.trans pos_operated.1, (ih _ _).2.trans pos_operated.2⟩
    · exact ⟨rfl, rfl⟩

theorem error_operatePending (p : Nat) (pending : Pending) (operand : Word) {st : EvalState}
    (h : st.error ≠ evalOkay) : (operatePending p pending operand st).2.2.error = st.error := by
  induction pending generalizing operand st with
  | nil => rfl
  | cons x pending ih =>
    rw [operatePending]
    split
    · exact (ih _ ((error_operated h).symm ▸ h)).trans (error_operated h)
    · rfl

/-- **The waiting operations are done as in the library**, until one is a division by zero. -/
theorem operatePending_eq (p : Nat) (pending : Pending) (operand : Word) {st : EvalState}
    (hok : st.error = evalOkay) (hfirst : st.firstError = evalOkay) :
    match exprLang.reduce p pending operand with
    | some (q, x) => operatePending p pending operand st = (q, x, st)
    | none => (operatePending p pending operand st).2.2.error = evalDivByZero := by
  induction pending generalizing operand with
  | nil => rfl
  | cons y pending ih =>
    obtain ⟨lhs, o⟩ := y
    rw [Lang.reduce, operatePending]
    by_cases hp : p ≤ o.priority
    · have hp' : p ≤ exprLang.prio o := hp
      rw [if_pos hp, if_pos hp']
      by_cases hdiv : o.dividesByZero operand
      · have happly : exprLang.apply o lhs operand = none := if_pos hdiv
        have herr : (st.operated o operand).error = evalDivByZero := by
          simp [EvalState.operated, hdiv, hok, hfirst]
        rw [happly, Option.bind_none]
        exact (error_operatePending p pending _ (herr ▸ by decide)).trans herr
      · have happly : exprLang.apply o lhs operand = some (o.operate lhs operand) := if_neg hdiv
        have hst : st.operated o operand = st := if_neg hdiv
        rw [happly, Option.bind_some, hst]
        exact ih _
    · have hp' : ¬ p ≤ exprLang.prio o := hp
      rw [if_neg hp, if_neg hp']

/-- Without an error, they are what the library does. -/
theorem reduce_of_operatePending {p : Nat} {operand x : Word} {q : Pending} (hok : st.error = evalOkay)
    (hfirst : st.firstError = evalOkay) (h : operatePending p pending operand st = (q, x, st'))
    (hok' : st'.error = evalOkay) : exprLang.reduce p pending operand = some (q, x) ∧ st' = st := by
  have heq := operatePending_eq p pending operand hok hfirst
  cases hred : exprLang.reduce p pending operand with
  | some r =>
    rw [hred, h] at heq
    obtain ⟨rfl, rfl, rfl⟩ : q = r.1 ∧ x = r.2 ∧ st' = st := by simpa using heq
    exact ⟨rfl, rfl⟩
  | none =>
    rw [hred, h] at heq
    exact absurd (hok'.symm.trans heq) (by decide)

end Steps

/-! ## Soundness -/

/-- What comes of a call, if it comes back without an error: there is an expression, and its value. -/
def Evaluates (env : Env) (input : Line) (marker mathSP : Nat) (st st' : EvalState) (v : Word) : Prop :=
  st.firstError = evalOkay ∧ ∃ e p o, Reads env input st.pos e p ∧ e.Ordered Operator.priority ∧
    getOperator input p = (evalOkay, o, st'.pos) ∧ o.priority = marker ∧
    exprLang.valueAt (mathSP + 1) e = some v

/-- What comes of the loop, with operations waiting: operands and operators that lead to the value. -/
def Continues (env : Env) (input : Line) (marker base : Nat) (pending : Pending) (st st' : EvalState)
    (v : Word) : Prop :=
  st.firstError = evalOkay ∧ ∃ b rest p q o, Reads env input st.pos b p ∧ b.IsOperand ∧
    b.Ordered Operator.priority ∧ Follows env input p rest q ∧ (∀ x ∈ rest, x.2.Ordered Operator.priority) ∧
    getOperator input q = (evalOkay, o, st'.pos) ∧ o.priority = marker ∧
    ((exprLang.valueAt (exprLang.depth base pending) b).bind fun x => exprLang.run base pending x rest) = some v

section Sound

variable {env : Env} {input : Line} {marker base : Nat} {pending : Pending} {st st₁ st' : EvalState}
  {operand v : Word}

/-- Only operations wait, no terminators. -/
def Waiting (pending : Pending) : Prop := ∀ x ∈ pending, 1 < x.2.priority

/-- All that waits is done at a terminator. -/
theorem reduce_terminator {p : Nat} (hp : p ≤ 1) (h : Waiting pending) :
    exprLang.reduce p pending operand = exprLang.reduce 0 pending operand :=
  Lang.reduce_congr fun x hx => ⟨hp.trans (h x hx).le, Nat.zero_le _⟩

theorem waiting_operatePending (p : Nat) (operand : Word) (st : EvalState) (h : Waiting pending) :
    Waiting (operatePending p pending operand st).1 := by
  induction pending generalizing operand st with
  | nil => exact h
  | cons y pending ih =>
    rw [operatePending]
    split
    · exact ih _ _ fun w hw => h w (List.mem_cons_of_mem _ hw)
    · exact h

theorem eq_closebr {o : Operator} (h : o.priority = 1) : o = .closebr := by
  cases o <;> first | rfl | exact absurd h (by decide)

theorem eq_end {o : Operator} (h : o.priority = 0) : o = .end := by
  cases o <;> first | rfl | exact absurd h (by decide)

/-- An operand: what is read, and its value with the stack as it is then. -/
theorem operandStep_sound {inner : EvalState → Except Fault (EvalState × Word)} {d : Nat}
    (hdepth : d ≤ mathstackSize)
    (hinner : ∀ st st' v, inner st = .ok (st', v) → st'.error = evalOkay → st'.firstError = evalOkay →
      Evaluates env input 1 d st st' v)
    (h : operandStep env input inner st = .ok (st₁, operand)) (hok : st₁.error = evalOkay)
    (hfirst : st₁.firstError = evalOkay) :
    st.firstError = evalOkay ∧ ∃ b, Reads env input st.pos b st₁.pos ∧ b.IsOperand ∧
      b.Ordered Operator.priority ∧ exprLang.valueAt d b = some operand := by
  obtain ⟨hstatus, ⟨hbracket, rfl, rfl⟩ | ⟨hbracket, w, hcall, rfl⟩⟩ := operandStep_ok h hok
  · obtain ⟨hfirst', hfatal⟩ := firstError_read hfirst
    have hread := Reads.value rfl (hstatus.resolve_right hfatal) hbracket
    exact ⟨hfirst', _, hread, trivial, trivial, Lang.valueAt_of_le hdepth⟩
  · obtain ⟨hread, e, p, o, he, hordered, hclose, hprio, hvalue⟩ := hinner _ _ _ hcall hok hfirst
    obtain ⟨hfirst', hfatal⟩ := firstError_read hread
    obtain rfl := eq_closebr hprio
    refine ⟨hfirst', _, .group rfl (hstatus.resolve_right hfatal) hbracket he hclose, trivial, hordered, ?_⟩
    have hvalue' : exprLang.valueAt (d + exprLang.mark) e = some w := hvalue
    rw [Lang.valueAt_group, hvalue']
    rfl

/-- **Soundness**, of a call and of the loop. -/
theorem evaluation_sound (fuel : Nat) :
    (∀ marker mathSP st st' v, evalInner env input fuel marker mathSP st = .ok (st', v) →
      st'.error = evalOkay → st'.firstError = evalOkay → Evaluates env input marker mathSP st st' v) ∧
    ∀ marker base pending st st' v, evalLoop env input fuel marker base pending st = .ok (st', v) →
      st'.error = evalOkay → st'.firstError = evalOkay → Waiting pending →
      exprLang.depth base pending ≤ mathstackSize → Continues env input marker base pending st st' v := by
  induction fuel with
  | zero =>
    refine ⟨fun marker mathSP st st' v h => ?_, fun marker base pending st st' v h => ?_⟩
    · exact absurd (by rwa [evalInner] at h) (by simp : ¬ Except.error Fault.fuel = Except.ok (st', v))
    · exact absurd (by rwa [evalLoop] at h) (by simp : ¬ Except.error Fault.fuel = Except.ok (st', v))
  | succ fuel ih =>
    refine ⟨fun marker mathSP st st' v h hok hfirst => ?_,
      fun marker base pending st st' v h hok hfirst hwait hdepth => ?_⟩
    · rw [evalInner] at h
      split at h
      · rename_i hroom
        obtain ⟨hfirst', b, rest, p, q, o, hb, hop, hord, hfollows, hords, hend, hprio, hvalue⟩ :=
          ih.2 _ _ _ _ _ _ h hok hfirst (fun x hx => absurd hx List.not_mem_nil) hroom
        have hordered : (Tree.parse Operator.priority b rest).Ordered Operator.priority :=
          Tree.parse_ordered hord fun x hx => ⟨hfollows.isOperand x hx, hords x hx⟩
        obtain ⟨hfst, hrest⟩ : (Tree.parse Operator.priority b rest).first = b.first ∧ _ :=
          Tree.flat_parse hfollows.isOperand
        rw [Tree.first_of_isOperand hop] at hfst
        rw [Tree.rest_of_isOperand hop, List.nil_append] at hrest
        refine ⟨hfirst', _, q, o, hb.parse hfollows, hordered, hend, hprio, ?_⟩
        rw [← Lang.run_flat (L := exprLang) hordered, hfst, hrest]
        exact hvalue
      · exact absurd h (by simp)
    · rw [evalLoop] at h
      split at h
      · exact absurd h (by simp)
      rename_i st₁ operand hstep
      split at h
      · rename_i st₂ x hdone
        obtain ⟨rfl, rfl⟩ := Prod.mk.inj (Except.ok.inj h)
        obtain ⟨hok₁, o, p, q, hget, hle, hmarker, hops⟩ := operatorStep_done hdone hok
        have hkeep := pos_operatePending o.priority pending operand (st₁.at p)
        rw [hops] at hkeep
        have hfirst₁ : st₁.firstError = evalOkay := hkeep.2.symm.trans hfirst
        obtain ⟨hred, -⟩ := reduce_of_operatePending (show (st₁.at p).error = evalOkay from rfl) hfirst₁ hops hok
        obtain ⟨hfirst', b, hb, hop, hord, hvalue⟩ :=
          operandStep_sound hdepth (fun _ _ _ => ih.1 _ _ _ _ _) hstep hok₁ hfirst₁
        refine ⟨hfirst', b, [], _, _, o, hb, hop, hord, .nil, fun x hx => absurd hx List.not_mem_nil, ?_,
          hmarker, ?_⟩
        · rw [hget]
          exact congrArg (evalOkay, o, ·) hkeep.1.symm
        · rw [hvalue, Option.bind_some, Lang.run, ← reduce_terminator hle hwait, hred]
          rfl
      · rename_i pending' st₂ hagain
        obtain ⟨hok₁, o, p, q, x, hget, hlt, hops, hok₂, rfl, hroom⟩ := operatorStep_again hagain
        have hwait' : Waiting ((x, o) :: q) := by
          have hq : Waiting q := by
            have hwait' := waiting_operatePending o.priority operand (st₁.at p) hwait
            rwa [hops] at hwait'
          intro y hy
          obtain rfl | hy := List.mem_cons.1 hy
          · exact hlt
          · exact hq y hy
        have hroom' : exprLang.depth base q + exprLang.frame ≤ exprLang.limit := hroom
        obtain ⟨hfirst₂, b', rest, p', r, o', hb', hop', hord', hfollows, hords, hend, hprio, hvalue'⟩ :=
          ih.2 _ _ _ _ _ _ h hok hfirst hwait' (Lang.depth_cons (L := exprLang) (x, o) ▸ hroom')
        have hkeep := pos_operatePending o.priority pending operand (st₁.at p)
        rw [hops] at hkeep
        have hfirst₁ : st₁.firstError = evalOkay := hkeep.2.symm.trans hfirst₂
        obtain ⟨hred, rfl⟩ := reduce_of_operatePending (show (st₁.at p).error = evalOkay from rfl) hfirst₁ hops hok₂
        obtain ⟨hfirst', b, hb, hop, hord, hvalue⟩ :=
          operandStep_sound hdepth (fun _ _ _ => ih.1 _ _ _ _ _) hstep hok₁ hfirst₁
        refine ⟨hfirst', b, (o, b') :: rest, _, r, o', hb, hop, hord,
          .cons hget hlt hb' hop' hfollows, ?_, hend, hprio, ?_⟩
        · intro y hy
          obtain rfl | hy := List.mem_cons.1 hy
          · exact hord'
          · exact hords y hy
        · have hred' : exprLang.reduce (exprLang.prio o) pending operand = some (q, x) := hred
          rw [hvalue, Option.bind_some, Lang.run, hred', Option.bind_some, if_pos hroom',
            ← Lang.depth_cons (x, o)]
          exact hvalue'

end Sound

/-! ## Completeness -/

section Complete

variable {env : Env} {input : Line} {marker base : Nat} {pending : Pending} {st : EvalState} {operand : Word}

theorem Reads.bounds {pos p : Nat} {e : Expr} (hlen : input.length ≤ lineLength) (h : Reads env input pos e p)
    (hpos : pos ≤ input.length) : pos < p ∧ p ≤ input.length := by
  induction h with
  | value hv hstatus _ =>
    subst hv
    exact ⟨(getVariable_bounds _ hlen hpos).2 (Or.inl hstatus), (getVariable_bounds _ hlen hpos).1⟩
  | group hv hstatus _ _ hclose ih =>
    subst hv
    have hv := getVariable_bounds env hlen hpos
    have he := ih hv.1
    have hc := getOperator_bounds he.2 hclose
    exact ⟨(hv.2 (Or.inl hstatus)).trans (he.1.trans_le hc.1), hc.2.1⟩
  | op _ ho _ _ ihl ihr =>
    have hl := ihl hpos
    have hc := getOperator_bounds hl.2 ho
    have hr := ihr hc.2.1
    exact ⟨hl.1.trans_le (hc.1.trans hr.1.le), hr.2⟩

/-- It comes back without an error. -/
def Finishes (r : Except Fault (EvalState × Word)) (pos : Nat) (v : Word) : Prop :=
  ∃ st', r = .ok (st', v) ∧ st'.error = evalOkay ∧ st'.firstError = evalOkay ∧ st'.pos = pos

/-- An operand that can be read is. -/
theorem operandStep_complete (inner : EvalState → Except Fault (EvalState × Word)) {d p : Nat} {b : Expr} {x : Word}
    (hfirst : st.firstError = evalOkay) (hb : Reads env input st.pos b p) (hop : b.IsOperand)
    (hord : b.Ordered Operator.priority) (hvalue : exprLang.valueAt d b = some x)
    (hinner : ∀ st₁ e q w, st₁.firstError = evalOkay → st₁.pos = (getVariable env input st.pos).pos →
      (getVariable env input st.pos).status = evalOkay →
      Reads env input st₁.pos e q → e.Ordered Operator.priority → getOperator input q = (evalOkay, .closebr, p) →
      exprLang.valueAt (d + 1) e = some w → Finishes (inner st₁) p w) :
    Finishes (operandStep env input inner st) p x := by
  cases hb with
  | value hv hstatus hbracket =>
    subst hv
    obtain ⟨hok, hfirst', hpos⟩ := read_of_okay hstatus hfirst
    obtain rfl := Option.some.inj (Lang.valueAt_eq_some.1 hvalue).2
    refine ⟨_, ?_, hok, hfirst', hpos⟩
    simp only [operandStep]
    rw [if_neg (not_not_intro hok), if_neg (by rw [hbracket]; exact Bool.false_ne_true)]
  | group hv hstatus hbracket he hclose =>
    subst hv
    obtain ⟨hok, hfirst', hpos⟩ := read_of_okay hstatus hfirst
    rw [Lang.valueAt_group] at hvalue
    obtain ⟨w, hw, rfl⟩ := Option.map_eq_some_iff.1 hvalue
    obtain ⟨st', hcall, hok', hfirst₁, hpos'⟩ :=
      hinner _ _ _ w hfirst' hpos hstatus he hord hclose hw
    refine ⟨st', ?_, hok', hfirst₁, hpos'⟩
    simp only [operandStep]
    rw [if_neg (not_not_intro hok), if_pos hbracket, hcall]
    simp only [Except.map, hok', if_true]
    rfl
  | op => exact absurd hop id

/-- Operations are done, and the loop goes on. -/
theorem operatorStep_of_lt {p : Nat} {o : Operator} {q : Pending} {x : Word} (hok : st.error = evalOkay)
    (hfirst : st.firstError = evalOkay) (hget : getOperator input st.pos = (evalOkay, o, p))
    (hlt : 1 < o.priority) (hred : exprLang.reduce o.priority pending operand = some (q, x))
    (hroom : base + pendingWords * q.length + pendingWords ≤ mathstackSize) :
    operatorStep input marker base pending st operand = .again ((x, o) :: q) (st.at p) := by
  have hops := operatePending_eq o.priority pending operand (show (st.at p).error = evalOkay from rfl) hfirst
  rw [hred] at hops
  simp only [operatorStep, hget]
  rw [if_neg (not_not_intro hok), if_neg (not_not_intro rfl)]
  simp only [hops]
  rw [if_neg (Nat.not_le_of_lt hlt), if_pos hroom, if_neg (not_not_intro rfl)]

/-- Operations are done, and that is all. -/
theorem operatorStep_of_eq {p : Nat} {o : Operator} {q : Pending} {x : Word} (hok : st.error = evalOkay)
    (hfirst : st.firstError = evalOkay) (hget : getOperator input st.pos = (evalOkay, o, p))
    (hle : o.priority ≤ 1) (hmarker : o.priority = marker)
    (hred : exprLang.reduce o.priority pending operand = some (q, x)) :
    operatorStep input marker base pending st operand = .done (st.at p) x := by
  have hops := operatePending_eq o.priority pending operand (show (st.at p).error = evalOkay from rfl) hfirst
  rw [hred] at hops
  simp only [operatorStep, hget]
  rw [if_neg (not_not_intro hok), if_neg (not_not_intro rfl)]
  simp only [hops]
  rw [if_pos hle, EvalState.matched, if_pos hmarker, EvalState.stop, if_pos rfl]

/-- **Completeness**, of a call and of the loop, with enough fuel for what is left of the line. -/
theorem evaluation_complete (hlen : input.length ≤ lineLength) (fuel : Nat) :
    (∀ marker mathSP st e p p' o v, st.firstError = evalOkay → st.pos ≤ input.length →
      2 * (input.length - st.pos) + 3 ≤ fuel → Reads env input st.pos e p → e.Ordered Operator.priority →
      getOperator input p = (evalOkay, o, p') → o.priority = marker → marker ≤ 1 →
      exprLang.valueAt (mathSP + 1) e = some v → Finishes (evalInner env input fuel marker mathSP st) p' v) ∧
    ∀ marker base pending st b rest p q p' o v, st.firstError = evalOkay → st.pos ≤ input.length →
      2 * (input.length - st.pos) + 2 ≤ fuel → Waiting pending → Reads env input st.pos b p → b.IsOperand →
      b.Ordered Operator.priority → Follows env input p rest q →
      (∀ x ∈ rest, x.2.Ordered Operator.priority) → getOperator input q = (evalOkay, o, p') →
      o.priority = marker → marker ≤ 1 →
      ((exprLang.valueAt (exprLang.depth base pending) b).bind fun x => exprLang.run base pending x rest) =
        some v →
      Finishes (evalLoop env input fuel marker base pending st) p' v := by
  induction fuel with
  | zero =>
    exact ⟨fun _ _ _ _ _ _ _ _ _ _ h => absurd h (by omega),
      fun _ _ _ _ _ _ _ _ _ _ _ _ _ h => absurd h (by omega)⟩
  | succ fuel ih =>
    refine ⟨fun marker mathSP st e p p' o v hfirst hpos hfuel hread hord hget hmarker hle hvalue => ?_,
      fun marker base pending st b rest p q p' o v hfirst hpos hfuel hwait hread hop hord hfollows hords hget
        hmarker hle hvalue => ?_⟩
    · have hroom : mathSP < mathstackSize := by
        have := (Lang.valueAt_eq_some.1 hvalue).1
        have hlimit : exprLang.limit = mathstackSize := rfl
        omega
      obtain ⟨q, hb, hfollows⟩ := hread.flat
      rw [evalInner, if_pos hroom]
      refine ih.2 _ _ _ _ _ _ _ _ _ _ _ hfirst hpos (by omega) (fun x hx => absurd hx List.not_mem_nil) hb
        (Tree.isOperand_first e) (Tree.ordered_first hord) hfollows
        (fun x hx => Tree.ordered_of_mem_rest hord hx) hget hmarker hle ?_
      exact (Lang.run_flat (L := exprLang) hord).trans hvalue
    · obtain ⟨x, hx, hrun⟩ := Option.bind_eq_some_iff.1 hvalue
      have hvar := getVariable_bounds env hlen hpos
      obtain ⟨st₁, hstep, hok, hfirst₁, hpos₁⟩ := operandStep_complete
        (evalInner env input fuel 1 (base + pendingWords * pending.length)) hfirst hread hop hord hx (by
          intro st₁ e q w hf hp hs hr ho hc hv
          have hadv := hvar.2 (Or.inl hs)
          exact ih.1 _ _ _ _ _ _ _ _ hf (by omega) (by omega) hr ho hc rfl (Nat.le_refl 1) hv)
      rw [evalLoop, hstep]
      simp only
      cases hfollows with
      | nil =>
        obtain ⟨r, hred, rfl⟩ := Option.map_eq_some_iff.1 hrun
        rw [← reduce_terminator (hmarker ▸ hle) hwait] at hred
        rw [operatorStep_of_eq hok hfirst₁ (hpos₁ ▸ hget) (hmarker ▸ hle) hmarker hred]
        exact ⟨_, rfl, rfl, hfirst₁, rfl⟩
      | @cons _ p₁ _ _ o₁ b₁ rest₁ ho hlt hb₁ hop₁ hrest =>
        obtain ⟨r, hred, hnext⟩ := Option.bind_eq_some_iff.1 hrun
        split at hnext
        · rename_i hroom
          have hwait' : Waiting ((r.2, o₁) :: r.1) := by
            have hops := operatePending_eq o₁.priority pending x (show (st₁.at p₁).error = evalOkay from rfl) hfirst₁
            have hred' : exprLang.reduce o₁.priority pending x = some (r.1, r.2) := hred
            rw [hred'] at hops
            have hq := waiting_operatePending o₁.priority x (st₁.at p₁) hwait
            rw [hops] at hq
            intro y hy
            obtain rfl | hy := List.mem_cons.1 hy
            · exact hlt
            · exact hq y hy
          have hadv := hvar.2
          have hp := hread.bounds hlen hpos
          have hp₁ := getOperator_bounds hp.2 ho
          have hne : o₁ ≠ .end := fun h => absurd (h ▸ hlt) (by decide)
          have hpast := hp₁.2.2 hne
          rw [operatorStep_of_lt hok hfirst₁ (hpos₁ ▸ ho) hlt hred hroom]
          refine ih.2 _ _ _ _ _ _ _ _ _ _ _ hfirst₁ hp₁.2.1 ?_ hwait' hb₁ hop₁
            (hords _ (List.mem_cons_self ..)) hrest (fun y hy => hords y (List.mem_cons_of_mem _ hy)) hget hmarker
            hle ?_
          · show 2 * (input.length - p₁) + 2 ≤ fuel
            omega
          · rw [Lang.depth_cons]
            exact hnext
        · exact absurd hnext (by simp)

/-- **What `evaluate` says of an expression.**  It returns a value without an error, and stops at some
position, just if the line has there an expression up to a terminator, with operators of a higher priority
binding tighter and those of the same one grouping to the left, nothing in it is divided by zero, and its
stack fits.  Then the value is that of the expression. -/
theorem evaluate_okay_iff (hlen : input.length ≤ lineLength) {pos pos' : Nat} (hpos : pos ≤ input.length) (v : Word) :
    (∃ r, evaluate env input pos = .ok r ∧ r.error = evalOkay ∧ r.value = v ∧ r.pos = pos') ↔
      ∃ e p, Reads env input pos e p ∧ e.Ordered Operator.priority ∧ getOperator input p = (evalOkay, .end, pos') ∧
        exprLang.value e = some v ∧ 1 + exprLang.words e ≤ mathstackSize := by
  constructor
  · rintro ⟨r, hr, herr, rfl, rfl⟩
    rw [evaluate] at hr
    cases hcall : evalInner env input (2 * input.length + 3) 0 0 { pos := pos } with
    | error => simp [hcall, Except.map] at hr
    | ok q =>
      rw [hcall] at hr
      obtain rfl := Except.ok.inj hr
      simp only at herr ⊢
      split at herr
      · rename_i hok
        obtain ⟨-, e, p, o, hread, hord, hget, hprio, hvalue⟩ :=
          (evaluation_sound (2 * input.length + 3)).1 0 0 { pos := pos } q.1 q.2 hcall hok herr
        obtain rfl := eq_end hprio
        obtain ⟨hwords, hval⟩ := Lang.valueAt_eq_some.1 hvalue
        exact ⟨e, p, hread, hord, hget, hval, by rwa [Nat.zero_add] at hwords⟩
      · rename_i hne
        exact absurd herr hne
  · rintro ⟨e, p, hread, hord, hget, hvalue, hwords⟩
    have hval : exprLang.valueAt (0 + 1) e = some v :=
      Lang.valueAt_eq_some.2 ⟨by rw [Nat.zero_add]; exact hwords, hvalue⟩
    obtain ⟨st', hcall, hok, hfirst, hp⟩ := (evaluation_complete hlen (2 * input.length + 3)).1 0 0
      { pos := pos } e p pos' .end v rfl hpos (by simp only; omega) hread hord hget rfl (Nat.zero_le 1) hval
    refine ⟨_, by rw [evaluate, hcall]; rfl, ?_, rfl, hp⟩
    simp only [hok, hfirst, if_true]

theorem evaluate_two_plus_three_times_four :
    ∃ e p, Reads emptyEnv "2+3*4".toList 0 e p ∧ e.Ordered Operator.priority ∧
      getOperator "2+3*4".toList p = (evalOkay, .end, 5) ∧ exprLang.value e = some 14 ∧
      1 + exprLang.words e ≤ mathstackSize :=
  (evaluate_okay_iff (by decide) (by decide) 14).1 ⟨_, rfl, rfl, rfl, rfl⟩

end Complete

end RiscyOS.Rva
