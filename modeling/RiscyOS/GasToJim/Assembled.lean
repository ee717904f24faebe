import RiscyOS.Assembler.Literals
import RiscyOS.GasToJim.StringReferences

/-!
# What becomes of an instruction on its way to a word

GCC writes an instruction, the converter reads the line and prints it in the dialect of the teaching
assembler, and `rva.c` reads that and puts down a word.  For instructions whose operands are registers and
numbers nothing is lost on the way: the word is the encoding of the instruction that GCC has written
(`converted_assembles`).

The dialects differ in the brackets of an address, and in how the pieces are set apart; and a number goes
through `int` and back.
-/

set_option autoImplicit false

namespace RiscyOS.GasToJim

open Memory
open Rv32 (Instr encode)

/-! ## What GCC writes -/

/-- The name of a register. -/
def abiName (r : Rv32.Reg) : Text := abiNames.getD r.toNat []

/-- A number and a register in parentheses. -/
def gasAddress (n : Int) (r : Rv32.Reg) : Text := strInt n ++ "(".toList ++ abiName r ++ ")".toList

/-- The mnemonic and the operands of an instruction, of one whose operands are registers and numbers. -/
def gasInstr : Instr → Option (Rv32.Mnemonic × List Text)
  | .load op rd rs imm => some (.load op, [abiName rd, gasAddress imm.toInt rs])
  | .store op rt rs imm => some (.store op, [abiName rt, gasAddress imm.toInt rs])
  | .imm op rd rs imm => some (.imm op, [abiName rd, abiName rs, strInt imm.toInt])
  | .shift op rd rs shamt => some (.shift op, [abiName rd, abiName rs, strInt shamt.toNat])
  | .reg op rd rs rt => some (.reg op, [abiName rd, abiName rs, abiName rt])
  | _ => none

/-! ## Names of registers -/

theorem read_abiName : ∀ r : Rv32.Reg, ((abiName r).all Rva.alphaNumeric &&
    Rva.alphabetic ((abiName r).headD '\x00') && decide ((abiName r).length < Rva.thingBufferLength)) = true := by
  decide +kernel

theorem find_abiName : ∀ r : Rv32.Reg, Rva.registerTable.table.value? (abiName r) = some (Rva.regWord r) := by
  decide +kernel

theorem parseOperand_abiName : ∀ r : Rv32.Reg, parseOperand (abiName r) =
    some { kind := .register, raw := abiName r, reg := some (abiName r) } := by decide +kernel

theorem parenReg_abiName : ∀ r : Rv32.Reg, parenReg ('(' :: (abiName r ++ [')'])) = some (abiName r) := by
  decide +kernel

/-! ## Numbers -/

section Numbers

variable {n : Int} {m : Nat} {t : Text}

theorem isDigit_toDigits {c : Char} (h : c ∈ Nat.toDigits 10 m) : c.isDigit = true :=
  Nat.isDigit_of_mem_toDigits (by decide) (by decide) h

/-- A number is printed as digits, with a sign in front of them if it is negative. -/
theorem strInt_cases (n : Int) : (∃ m : Nat, n = m ∧ strInt n = Nat.toDigits 10 m) ∨
    ∃ m : Nat, n = -(m : Int) ∧ strInt n = '-' :: Nat.toDigits 10 m := by
  cases n with
  | ofNat m => exact Or.inl ⟨m, rfl, strInt_natCast m⟩
  | negSucc m =>
    refine Or.inr ⟨m + 1, Int.negSucc_eq m, ?_⟩
    show ("-" ++ Nat.repr (m + 1)).toList = _
    rw [String.toList_append, Nat.toList_repr]
    rfl

theorem mem_strInt {c : Char} (h : c ∈ strInt n) : c.isDigit = true ∨ c = '-' := by
  obtain ⟨m, -, heq⟩ | ⟨m, -, heq⟩ := strInt_cases n
  · exact Or.inl (isDigit_toDigits (heq ▸ h))
  · rw [heq] at h
    exact (List.mem_cons.1 h).symm.imp_left isDigit_toDigits

/-- Other characters are not in a number. -/
theorem not_mem_strInt {c : Char} (hdigit : c.isDigit = false) (hsign : c ≠ '-') : c ∉ strInt n := fun h =>
  (mem_strInt h).elim (fun hc => absurd (hc.symm.trans hdigit) (by decide)) hsign

theorem isSpace_strInt {c : Char} (h : c ∈ strInt n) : isSpace c = false := by
  rcases mem_strInt h with hc | rfl
  · exact isSpace_of_isDigit hc
  · decide

theorem strInt_ne_nil (n : Int) : strInt n ≠ [] := by
  obtain ⟨m, -, heq⟩ | ⟨m, -, heq⟩ := strInt_cases n
  · rw [heq]
    exact Nat.toDigits_ne_nil
  · rw [heq]
    exact List.cons_ne_nil _ _

theorem head?_strInt (n : Int) : ∃ c ∈ strInt n, ∀ t, (strInt n ++ t).head? = some c := by
  obtain ⟨c, cs, hcons⟩ := List.exists_cons_of_ne_nil (strInt_ne_nil n)
  rw [hcons]
  exact ⟨c, List.mem_cons_self, fun _ => rfl⟩

theorem strip_strInt (n : Int) : strip (strInt n) = strInt n :=
  strip_append (a := []) nofun (fun _ hc => isSpace_strInt (List.mem_of_mem_head? hc))
    fun _ hc => isSpace_strInt (List.mem_of_mem_getLast? hc)

theorem split_of_not_mem {c : Char} (h : c ∉ t) : split c t = [t] := by
  induction t with
  | nil => rfl
  | cons x t ih =>
    have hx : x ≠ c := fun heq => h (heq ▸ List.mem_cons_self)
    rw [split, if_neg hx, ih fun ht => h (List.mem_cons_of_mem _ ht)]

theorem literalDigits_toDigits (m : Nat) : literalDigits (Nat.toDigits 10 m) = some (Nat.toDigits 10 m) := by
  have hall : ∀ c ∈ Nat.toDigits 10 m, c.isDigit = true := fun _ => isDigit_toDigits
  have hfilter : (Nat.toDigits 10 m).filter (· ≠ '_') = Nat.toDigits 10 m :=
    List.filter_eq_self.2 fun c hc => decide_eq_true (Rva.ne_of_isDigit (isDigit_toDigits hc) (by decide))
  rw [literalDigits, split_of_not_mem Nat.underscore_not_in_toDigits, hfilter]
  simpa [Nat.toDigits_ne_nil] using hall

/-- **`int` reads back what `str` prints.** -/
theorem parseInt_strInt (n : Int) : parseInt (strInt n) = some n := by
  rw [parseInt, strip_strInt]
  obtain ⟨m, rfl, heq⟩ | ⟨m, rfl, heq⟩ := strInt_cases n
  · have hlit := literalDigits_toDigits m
    have hval := ofDigits_toDigits m
    obtain ⟨d, ds, hcons⟩ := List.exists_cons_of_ne_nil (Nat.toDigits_ne_nil (n := m) (b := 10))
    have hd : d.isDigit = true := isDigit_toDigits (hcons ▸ List.mem_cons_self)
    rw [heq]
    split
    · rename_i hds
      exact absurd hd ((List.cons.inj (hcons.symm.trans hds)).1 ▸ by decide)
    · rename_i hds
      exact absurd hd ((List.cons.inj (hcons.symm.trans hds)).1 ▸ by decide)
    · rw [hlit, Option.map_some, hval]
  · rw [heq]
    simp only [literalDigits_toDigits, Option.map_some, ofDigits_toDigits]

theorem isNumber_strInt (n : Int) : isNumber (strInt n) = true := by
  have hall : ∀ m, (Nat.toDigits 10 m).all Char.isDigit = true := fun m =>
    List.all_eq_true.2 fun _ => isDigit_toDigits
  obtain ⟨m, -, heq⟩ | ⟨m, -, heq⟩ := strInt_cases n
  · have hsign : (Nat.toDigits 10 m).head? ≠ some '-' := fun h =>
      absurd (isDigit_toDigits (List.mem_of_mem_head? h)) (by decide)
    rw [heq, isNumber, if_neg hsign]
    simp [hall, Nat.toDigits_ne_nil]
  · rw [heq, isNumber, List.head?_cons, if_pos rfl, List.tail_cons]
    simp [hall, Nat.toDigits_ne_nil]

end Numbers

/-! ## Operands through the converter -/

section Operands

variable {t : Text} {n : Int}

theorem matchHi_of_head {c : Char} (h : t.head? = some c) (hc : c ≠ '%') : matchHi t = none := by
  obtain ⟨u, rfl⟩ := List.head?_eq_some_iff.1 h
  refine if_neg fun hp => hc ?_
  exact (List.cons_prefix_cons.1 hp).1.symm

theorem matchLo_of_head {c : Char} (h : t.head? = some c) (hc : c ≠ '%') : matchLo t = none := by
  obtain ⟨u, rfl⟩ := List.head?_eq_some_iff.1 h
  refine if_neg fun hp => hc ?_
  exact (List.cons_prefix_cons.1 hp).1.symm

theorem takeWhile_of_not_mem {c : Char} {u : Text} (h : c ∉ t) :
    (t ++ c :: u).takeWhile (· ≠ c) = t ∧ (t ++ c :: u).dropWhile (· ≠ c) = c :: u := by
  have hall : ∀ x ∈ t, decide (x ≠ c) = true := fun x hx => decide_eq_true fun heq => h (heq ▸ hx)
  rw [List.takeWhile_append_of_pos hall, List.dropWhile_append_of_pos hall]
  simp

theorem not_hex_strInt (n : Int) : ¬ ['0', 'x'] <:+: strInt n := fun h =>
  not_mem_strInt (by decide) (by decide) (h.subset (List.mem_cons_of_mem _ List.mem_cons_self : 'x' ∈ ['0', 'x']))

/-- **A number** is read as one. -/
theorem parseOperand_strInt (n : Int) :
    parseOperand (strInt n) = some { kind := .immediate, raw := strInt n, imm := some n } := by
  obtain ⟨c, hc, hhead⟩ := head?_strInt n
  have hhead : (strInt n).head? = some c := by rw [← hhead [], List.append_nil]
  have hpercent : c ≠ '%' := fun heq => not_mem_strInt (by decide) (by decide) (heq ▸ hc)
  have hmemory : matchMemory (strInt n) = none := by
    have hall : ∀ x ∈ strInt n, decide (x ≠ '(') = true := fun x hx => decide_eq_true fun heq =>
      not_mem_strInt (by decide) (by decide) (heq ▸ hx)
    have hdrop : (strInt n).dropWhile (· ≠ '(') = [] := List.dropWhile_eq_nil_iff.2 hall
    rw [matchMemory, hdrop]
    simp [parenReg]
  rw [parseOperand]
  simp [strip_strInt, matchHi_of_head hhead hpercent, matchLo_of_head hhead hpercent, hmemory, isNumber_strInt,
    parseInt_strInt]
  exact fun h => absurd (of_decide_eq_true h) (not_hex_strInt n)

/-- **An address** is read as a number and a register. -/
theorem parseOperand_gasAddress (n : Int) (r : Rv32.Reg) : parseOperand (gasAddress n r) =
    some { kind := .memory, raw := gasAddress n r, reg := some (abiName r), imm := some n } := by
  obtain ⟨c, hc, hhead⟩ := head?_strInt n
  have htext : gasAddress n r = strInt n ++ '(' :: (abiName r ++ [')']) := by
    rw [gasAddress, List.append_assoc, List.append_assoc]
    rfl
  have hhead : (gasAddress n r).head? = some c := htext ▸ hhead _
  have hlast : (gasAddress n r).getLast? = some ')' := by
    rw [gasAddress]
    exact List.getLast?_concat
  have hpercent : c ≠ '%' := fun heq => not_mem_strInt (by decide) (by decide) (heq ▸ hc)
  have hstrip : strip (gasAddress n r) = gasAddress n r := by
    refine strip_append (a := []) nofun (fun x hx => ?_) fun x hx => ?_
    · obtain rfl := Option.some.inj (hhead.symm.trans hx)
      exact isSpace_strInt hc
    · obtain rfl := Option.some.inj (hlast.symm.trans hx)
      decide
  have hmemory : matchMemory (gasAddress n r) = some (strInt n, abiName r) := by
    obtain ⟨htake, hdrop⟩ := takeWhile_of_not_mem (u := abiName r ++ [')'])
      (not_mem_strInt (n := n) (c := '(') (by decide) (by decide))
    rw [matchMemory, htext]
    simp only [htake, hdrop, isNumber_strInt, if_true, parenReg_abiName, Option.map_some]
  rw [parseOperand]
  simp [hstrip, matchHi_of_head hhead hpercent, matchLo_of_head hhead hpercent, hmemory, parseInt_strInt]
  exact fun h => absurd h.isInfix (not_hex_strInt n)

end Operands

/-! ## Operands through the assembler -/

section Reading

variable {ctx : Rva.Context} {c : Rva.Cursor} {rest : Text} {n : Int} {r : Rv32.Reg} {k : Nat}

theorem digitsValue_toDigits (m : Nat) : Rva.digitsValue (Nat.toDigits 10 m) = BitVec.ofNat 32 m := by
  have hrun : ∀ (ds : Text) (a : Nat), (∀ c ∈ ds, c.isDigit = true) →
      ds.foldl (fun w c => w * 10 + BitVec.ofNat 32 (c.toNat - '0'.toNat)) (BitVec.ofNat 32 a) =
        BitVec.ofNat 32 (ds.foldl (fun n c => n * 10 + hexDigit c) a) := by
    intro ds
    induction ds with
    | nil => exact fun _ _ => rfl
    | cons d ds ih =>
      intro a hds
      obtain ⟨hd, hds⟩ := List.forall_mem_cons.1 hds
      have hstep : BitVec.ofNat 32 a * 10 + BitVec.ofNat 32 (d.toNat - '0'.toNat) =
          BitVec.ofNat 32 (a * 10 + hexDigit d) := by
        rw [hexDigit, if_pos hd, BitVec.ofNat_add, BitVec.ofNat_mul]
        rfl
      rw [List.foldl_cons, List.foldl_cons, hstep, ih _ hds]
  have hvalue := hrun (Nat.toDigits 10 m) 0 fun _ => isDigit_toDigits
  have hread := ofDigits_toDigits m
  rw [ofDigits] at hread
  rw [hread] at hvalue
  exact hvalue

/-- **A printed number** has its value. -/
theorem isValue_strInt (hrest : Rva.Ends rest)
    (h : ctx.line.drop c.position = List.replicate k ' ' ++ (strInt n ++ rest)) :
    Rva.IsValue ctx c (BitVec.ofInt 32 n) { c with position := c.position + k + (strInt n).length } := by
  obtain ⟨m, rfl, heq⟩ | ⟨m, rfl, heq⟩ := strInt_cases n
  · rw [heq] at h ⊢
    rw [BitVec.ofInt_natCast, ← digitsValue_toDigits]
    exact Rva.isValue_of_drop (fun _ => isDigit_toDigits) Nat.toDigits_ne_nil hrest h
  · rw [heq] at h ⊢
    rw [BitVec.ofInt_neg, BitVec.ofInt_natCast, ← digitsValue_toDigits, List.length_cons, Nat.add_comm _ 1,
      ← Nat.add_assoc]
    exact Rva.isValue_neg_of_drop (fun _ => isDigit_toDigits) Nat.toDigits_ne_nil hrest h

variable (hregs : ctx.registers = Rva.registerTable)

include hregs

omit hregs in
/-- A name ends at such a character. -/
theorem stops_at {ch : Char} (hch : Rva.alphaNumeric ch = false) :
    ∀ x, (ch :: rest).head? = some x → Rva.alphaNumeric x = false := fun _ hx => Option.some.inj hx ▸ hch

theorem isReg_abiName (hrest : ∀ c, rest.head? = some c → Rva.alphaNumeric c = false)
    (h : ctx.line.drop c.position = List.replicate k ' ' ++ (abiName r ++ rest)) :
    Rva.IsReg ctx c r { c with position := c.position + k + (abiName r).length } :=
  Rva.isReg_of_drop h (read_abiName r) (hregs ▸ find_abiName r) hrest

theorem regComma_abiName (h : ctx.line.drop c.position = ' ' :: (abiName r ++ ',' :: rest)) :
    Rva.RegComma ctx c r { c with position := c.position + 1 + (abiName r).length + 1 } ∧
      ctx.line.drop (c.position + 1 + (abiName r).length + 1) = rest := by
  have hreg := isReg_abiName (k := 1) hregs (stops_at (by decide)) h
  have hcomma : ctx.line.drop (c.position + 1 + (abiName r).length) = ',' :: rest :=
    Rva.drop_of_append (Rva.drop_of_append (u := [' ']) h)
  exact ⟨⟨_, hreg, Rva.has_of_drop (k := 0) hcomma (by decide)⟩, Rva.drop_of_append (u := [',']) hcomma⟩

/-- The number and the register of an address, in brackets. -/
def jimAddress (n : Int) (r : Rv32.Reg) : Text := strInt n ++ "[".toList ++ abiName r ++ "]".toList

theorem based_jimAddress {imm : BitVec 12} (h : ctx.line.drop c.position = ' ' :: jimAddress imm.toInt r) :
    ∃ c', Rva.Based ctx c r imm c' := by
  have htext : jimAddress imm.toInt r = strInt imm.toInt ++ '[' :: (abiName r ++ [']']) := by
    rw [jimAddress, List.append_assoc, List.append_assoc]
    rfl
  rw [htext] at h
  obtain ⟨d, hd, hhead⟩ := head?_strInt imm.toInt
  have hblank : Rva.isBlank d = false := by
    rcases mem_strInt hd with hdigit | rfl
    · exact Rva.isBlank_of_isDigit hdigit
    · decide
  have hopen : d ≠ '[' := fun heq => not_mem_strInt (by decide) (by decide) (heq ▸ hd)
  have hno : Rva.HasNot ctx '[' c { c with position := c.position + 1 } := by
    have hfirst : (strInt imm.toInt ++ '[' :: (abiName r ++ [']'])).headD '\x00' = d := by
      rw [List.headD_eq_head?_getD, hhead, Option.getD_some]
    exact Rva.hasNot_of_drop (k := 1) h (fun heq => hopen (hfirst.symm.trans heq))
      fun x hx => Option.some.inj ((hhead _).symm.trans hx) ▸ hblank
  have hnumber : ctx.line.drop (c.position + 1) = strInt imm.toInt ++ '[' :: (abiName r ++ [']']) :=
    Rva.drop_of_append (u := [' ']) h
  have hvalue := isValue_strInt (c := { c with position := c.position + 1 }) (k := 0) (Or.inr rfl) hnumber
  have hbracket := Rva.drop_of_append hnumber
  have hreg := Rva.drop_of_append (u := ['[']) hbracket
  have hclose := Rva.drop_of_append hreg
  exact ⟨_, .offset hno hvalue (Rva.has_of_drop (k := 0) hbracket (by decide))
    ⟨_, _, isReg_abiName (k := 0) hregs (stops_at (by decide)) hreg,
      Rva.has_of_drop (k := 0) hclose (by decide), rfl⟩⟩

end Reading

/-! ## Lines through the converter -/

section Lines

/-- No part of a line that has a meaning of its own. -/
def Solid (t : Text) : Prop := t ≠ [] ∧ ∀ c ∈ t, isSpace c = false ∧ c ≠ ',' ∧ c ≠ '#' ∧ c ≠ ':'

instance (t : Text) : Decidable (Solid t) := inferInstanceAs (Decidable (_ ∧ _))

variable {op : Text} {args : List Text}

theorem solid_abiName : ∀ r : Rv32.Reg, Solid (abiName r) := by decide +kernel

theorem solid_strInt (n : Int) : Solid (strInt n) :=
  ⟨strInt_ne_nil n, fun _ hc => ⟨isSpace_strInt hc, fun heq => not_mem_strInt (by decide) (by decide) (heq ▸ hc),
    fun heq => not_mem_strInt (by decide) (by decide) (heq ▸ hc),
    fun heq => not_mem_strInt (by decide) (by decide) (heq ▸ hc)⟩⟩

theorem Solid.append {t u : Text} (ht : Solid t) (hu : Solid u) : Solid (t ++ u) :=
  ⟨List.append_ne_nil_of_left_ne_nil ht.1 u, List.forall_mem_append.2 ⟨ht.2, hu.2⟩⟩

theorem solid_gasAddress (n : Int) (r : Rv32.Reg) : Solid (gasAddress n r) :=
  (((solid_strInt n).append (by decide)).append (solid_abiName r)).append (by decide)

theorem split_append {c : Char} {a t : Text} (h : c ∉ a) : split c (a ++ c :: t) = a :: split c t := by
  induction a with
  | nil => rw [List.nil_append, split, if_pos rfl]
  | cons x a ih =>
    have hx : x ≠ c := fun heq => h (heq ▸ List.mem_cons_self)
    rw [List.cons_append, split, if_neg hx, ih fun ha => h (List.mem_cons_of_mem _ ha)]

theorem join_cons (a b : Text) (args : List Text) :
    join [','] (a :: b :: args) = a ++ ',' :: join [','] (b :: args) := by
  simp [join, List.intercalate]

/-- Operands that have been joined are split again. -/
theorem split_join (hargs : ∀ a ∈ args, Solid a) (hne : args ≠ []) : split ',' (join [','] args) = args := by
  induction args with
  | nil => exact absurd rfl hne
  | cons a args ih =>
    obtain ⟨ha, hargs⟩ := List.forall_mem_cons.1 hargs
    have hnot : ',' ∉ a := fun h => (ha.2 _ h).2.1 rfl
    cases args with
    | nil =>
      have hone : join [','] [a] = a := by simp [join, List.intercalate]
      rw [hone, split_of_not_mem hnot]
    | cons b args => rw [join_cons, split_append hnot, ih hargs (List.cons_ne_nil _ _)]

theorem join_chars (hargs : ∀ a ∈ args, Solid a) (hne : args ≠ []) :
    join [','] args ≠ [] ∧ ∀ c ∈ join [','] args, isSpace c = false ∧ c ≠ '#' ∧ c ≠ ':' := by
  induction args with
  | nil => exact absurd rfl hne
  | cons a args ih =>
    obtain ⟨ha, hargs⟩ := List.forall_mem_cons.1 hargs
    have hchars : ∀ c ∈ a, isSpace c = false ∧ c ≠ '#' ∧ c ≠ ':' := fun c hc =>
      ⟨(ha.2 c hc).1, (ha.2 c hc).2.2⟩
    cases args with
    | nil =>
      have hone : join [','] [a] = a := by simp [join, List.intercalate]
      rw [hone]
      exact ⟨ha.1, hchars⟩
    | cons b args =>
      obtain ⟨-, hrest⟩ := ih hargs (List.cons_ne_nil _ _)
      rw [join_cons]
      refine ⟨List.append_ne_nil_of_left_ne_nil ha.1 _, List.forall_mem_append.2 ⟨hchars, ?_⟩⟩
      exact List.forall_mem_cons.2 ⟨by decide, hrest⟩

theorem Solid.strip {t : Text} (h : Solid t) : strip t = t :=
  strip_append (a := []) nofun (fun _ hc => (h.2 _ (List.mem_of_mem_head? hc)).1)
    fun _ hc => (h.2 _ (List.mem_of_mem_getLast? hc)).1

/-- **A line with an instruction** falls into its mnemonic and its operands. -/
theorem tokenise_instruction (hop : Solid op) (hargs : ∀ a ∈ args, Solid a) (hne : args ≠ []) :
    tokenise ('\t' :: (op ++ '\t' :: join [','] args)) = { op := some op, args := args } := by
  obtain ⟨hjoin, hchars⟩ := join_chars hargs hne
  have hsplit := split_join hargs hne
  generalize join [','] args = body at hjoin hchars hsplit
  have hmap : ('\t' :: (op ++ '\t' :: body)).map (fun c => if c = '\t' then ' ' else c) =
      [' '] ++ (op ++ ' ' :: body) := by
    have hkept : ∀ t : Text, (∀ c ∈ t, isSpace c = false) → t.map (fun c => if c = '\t' then ' ' else c) = t := by
      intro t ht
      refine (List.map_congr_left fun c hc => if_neg ?_).trans (List.map_id t)
      rintro rfl
      exact absurd (ht _ hc) (by decide)
    rw [List.map_cons, List.map_append, List.map_cons, hkept op fun c hc => (hop.2 c hc).1,
      hkept body fun c hc => (hchars c hc).1]
    rfl
  have hhead : ∀ c ∈ (op ++ ' ' :: body).head?, c ∈ op := by
    intro c hc
    obtain ⟨d, op, rfl⟩ := List.exists_cons_of_ne_nil hop.1
    exact Option.some.inj hc ▸ List.mem_cons_self
  have hlast : ∀ c ∈ (op ++ ' ' :: body).getLast?, c ∈ body := by
    intro c hc
    rw [List.getLast?_append_of_ne_nil _ (List.cons_ne_nil _ _), List.getLast?_cons_of_ne_nil hjoin] at hc
    exact List.mem_of_mem_getLast? hc
  have hstrip : strip ([' '] ++ (op ++ ' ' :: body)) = op ++ ' ' :: body :=
    strip_append (by decide) (fun c hc => (hop.2 c (hhead c hc)).1) fun c hc => (hchars c (hlast c hc)).1
  have hempty : op ++ ' ' :: body ≠ [] := List.append_ne_nil_of_left_ne_nil hop.1 _
  have hcomment : (op ++ ' ' :: body).head? ≠ some '#' := fun h => (hop.2 _ (hhead _ h)).2.2.1 rfl
  have hlabel : (op ++ ' ' :: body).getLast? ≠ some ':' := fun h => (hchars _ (hlast _ h)).2.2 rfl
  have htake : (op ++ ' ' :: body).takeWhile (· ≠ '#') = op ++ ' ' :: body := by
    refine List.takeWhile_eq_self_iff.2 (List.forall_mem_append.2 ⟨fun c hc => ?_, ?_⟩)
    · exact decide_eq_true (hop.2 c hc).2.2.1
    · exact List.forall_mem_cons.2 ⟨by decide, fun c hc => decide_eq_true (hchars c hc).2.1⟩
  have hspace : ∀ c ∈ op, (!isSpace c) = true := fun c hc => by rw [(hop.2 c hc).1, Bool.not_false]
  have hname : (op ++ ' ' :: body).takeWhile (fun c => !isSpace c) = op := by
    rw [List.takeWhile_append_of_pos hspace]
    simp [isSpace]
  have hrest : (op ++ ' ' :: body).dropWhile (fun c => !isSpace c) = ' ' :: body := by
    rw [List.dropWhile_append_of_pos hspace]
    simp [isSpace]
  have hbody : (' ' :: body).dropWhile isSpace = body := by
    obtain ⟨d, body, rfl⟩ := List.exists_cons_of_ne_nil hjoin
    have hd := (hchars d List.mem_cons_self).1
    rw [List.dropWhile_cons_of_pos (by decide), List.dropWhile_cons_of_neg (by rw [hd]; decide)]
  have hargs' : (split ',' body).map strip = args := by
    rw [hsplit]
    exact (List.map_congr_left fun a ha => (hargs a ha).strip).trans (List.map_id args)
  rw [tokenise, hmap, hstrip]
  simp only [if_neg hempty, if_neg hcomment, if_neg hlabel, htake, hname, hrest, hbody, hargs']
  rw [if_neg (List.cons_ne_nil _ _)]

end Lines

/-! ## An instruction through all of it -/

/-- The line that GCC writes. -/
def gasLine (i : Instr) : Option Text :=
  (gasInstr i).map fun p => '\t' :: (p.1.name.toList ++ '\t' :: join [','] p.2)

/-- **`rva.c` puts down the word of the instruction** for a line: there is its mnemonic at the beginning, and
on the last pass the encoding comes of what is behind that. -/
def AssemblesTo (line : Text) (i : Instr) : Prop :=
  ∃ (m : Rv32.Mnemonic) (token : Word) (pos : Nat), Rva.skipSpc line 0 = pos ∧ Rva.getNum line pos 10 = none ∧
    Rva.getIdentifier line pos Rva.lineLength = m.name.toList ∧ Rva.charAt line (pos + m.name.toList.length) ≠ ':' ∧
    Rva.rv32iMnemonicTable.value? m.name.toList = some token ∧
    ∀ (ctx : Rva.Context) (allocate : Nat → Nat) (c : Rva.Cursor), ctx.Final → ctx.registers = Rva.registerTable →
      ctx.line = line → c.position = pos + m.name.toList.length →
      (Rva.rv32iMnemonic ctx allocate token c).1 = .ok [encode i]

/-- An instruction that the converter carries over: what the parser makes of the source line, which no pass
changes, and the line that is printed. -/
structure Carried (i : Instr) (source : Text) (node : Instruction) (line : Text) : Prop where
  parsed : ∀ s : ParserState, parseLine s (tokenise source) = some ((enterFunction s).append (.instruction node))
  resolved : ∀ function mapping, Node.resolve function mapping (.instruction node) = .instruction node
  notUpper : node.op ≠ "lui".toList
  collapsed : ∀ mapped, collapseNode mapped (.instruction node) = some [.instruction node]
  printed : node.str = some line
  assembles : AssemblesTo line i

section Instruction

variable {i : Instr} {m : Rv32.Mnemonic} {args : List Text}

/-- The operands, as they are parsed. -/
def registerOf (r : Rv32.Reg) : Operand := { kind := .register, raw := abiName r, reg := some (abiName r) }
def numberOf (n : Int) : Operand := { kind := .immediate, raw := strInt n, imm := some n }
def addressOf (n : Int) (r : Rv32.Reg) : Operand :=
  { kind := .memory, raw := gasAddress n r, reg := some (abiName r), imm := some n }

/-- What is asked of a mnemonic: that both programs read it where it stands, and that it is none that a pass
deals with. -/
structure IsName (t : Text) : Prop where
  alphaNumeric : ∀ c ∈ t, Rva.alphaNumeric c = true
  head : Rva.alphabetic (t.headD '\x00') = true
  noDigit : t.headD '\x00' ≠ '_' ∧ Rva.numChar 10 (t.headD '\x00') = none
  length_lt : t.length < Rva.lineLength
  solid : Solid t
  noDot : t.head? ≠ some '.'
  notUpper : t ≠ "lui".toList

theorem isName_of_gasInstr (h : gasInstr i = some (m, args)) : IsName m.name.toList := by
  cases i with
  | load op | store op | imm op | shift op | reg op =>
    obtain ⟨rfl, -⟩ := Prod.mk.inj (Option.some.inj h)
    cases op <;> exact ⟨by decide, by decide, by decide, by decide, by decide, by decide, by decide⟩
  | lui | auipc | jal | jalr | branch | csr | csri => cases h

/-- The line that is printed, from the operands. -/
def jimLine (name : Text) (texts : List Text) : Text :=
  "    ".toList ++ name ++ " ".toList ++ join ", ".toList texts

theorem getNum_of_isName {line name rest : Text} {pos : Nat} (hname : IsName name)
    (h : line.drop pos = name ++ rest) : Rva.getNum line pos 10 = none := by
  have hskip : Rva.skipSpc line pos = pos :=
    Rva.skipSpc_of_drop (k := 0) h (Rva.not_blank_of_alphabetic hname.head)
  cases name with
  | nil => exact absurd hname.head (by decide)
  | cons c name =>
    have hunder : c ≠ '_' := hname.noDigit.1
    have hnum : Rva.numChar 10 c = none := hname.noDigit.2
    rw [Rva.getNum, hskip, h, List.cons_append, Rva.digits, if_neg hunder, hnum]

/-- How an instruction is carried over: what is asked of its operands. -/
theorem carried_of_reads (operands : List Operand) {texts : List Text} (hname : IsName m.name.toList)
    (hsolid : ∀ a ∈ args, Solid a) (hne : operands ≠ []) (hparse : args.mapM parseOperand = some operands)
    (hprint : operands.mapM Operand.str = some texts) (hkinds : ∀ o ∈ operands, o.kind ≠ .symbol)
    (haddi : m.name.toList = "addi".toList → ∃ o, operands[2]? = some o ∧ o.kind = .immediate)
    (hreads : ∀ (ctx : Rva.Context) (allocate : Nat → Nat) (c : Rva.Cursor), ctx.Final →
      ctx.registers = Rva.registerTable → ctx.line.drop c.position = ' ' :: join ", ".toList texts →
      (Rva.rv32iMnemonic ctx allocate (Rva.tokenOf m) c).1 = .ok [encode i]) :
    Carried i ('\t' :: (m.name.toList ++ '\t' :: join [','] args)) ⟨m.name.toList, operands⟩
      (jimLine m.name.toList texts) := by
  have hargs : args ≠ [] := by
    rintro rfl
    exact hne (Option.some.inj hparse).symm
  have hline : jimLine m.name.toList texts =
      List.replicate 4 ' ' ++ (m.name.toList ++ ' ' :: join ", ".toList texts) := by
    rw [jimLine, List.append_assoc, List.append_assoc]
    rfl
  refine ⟨fun s => ?_, fun function mapping => ?_, hname.notUpper, fun mapped => ?_, ?_, ?_⟩
  · rw [tokenise_instruction hname.solid hsolid hargs]
    simp only [parseLine, if_neg hname.noDot, parseInstruction, hparse]
    rfl
  · rw [Node.resolve]
    have hkept : operands.map (·.resolve function mapping) = operands := by
      refine (List.map_congr_left fun o ho => ?_).trans (List.map_id operands)
      rw [Operand.resolve]
      split
      · rename_i hkind _
        exact absurd hkind (hkinds o ho)
      · rfl
    rw [hkept]
  · rw [collapseNode]
    split
    · rename_i hop
      obtain ⟨o, ho, hkind⟩ := haddi hop
      have hsrc : Instruction.src ⟨m.name.toList, operands⟩ 2 = some o := ho
      simp [collapseAddi, hsrc, hkind]
    · rfl
  · rw [Instruction.str, if_neg hne, hprint, Option.map_some, jimLine]
  · have hdrop : (jimLine m.name.toList texts).drop 4 = m.name.toList ++ ' ' :: join ", ".toList texts := by
      rw [hline]
      rfl
    have hskip : Rva.skipSpc (jimLine m.name.toList texts) 0 = 4 := by
      have hzero : (jimLine m.name.toList texts).drop 0 =
          List.replicate 4 ' ' ++ (m.name.toList ++ ' ' :: join ", ".toList texts) := hline
      exact Rva.skipSpc_of_drop hzero (Rva.not_blank_of_alphabetic hname.head)
    have hbehind := Rva.drop_of_append hdrop
    refine ⟨m, Rva.tokenOf m, 4, hskip, getNum_of_isName hname hdrop,
      Rva.getIdentifier_of_drop hdrop hname.head hname.alphaNumeric hname.length_lt (stops_at (by decide)), ?_,
      Rva.value_tokenOf m, fun ctx allocate c hfinal hregs hctx hpos => ?_⟩
    · rw [Rva.charAt_of_drop hbehind]
      show ' ' ≠ ':'
      decide
    · refine hreads ctx allocate c hfinal hregs ?_
      rw [hctx, hpos, hbehind]

theorem join_pair (a b : Text) : ' ' :: join ", ".toList [a, b] = ' ' :: (a ++ ',' :: ' ' :: b) := by
  simp [join, List.intercalate]

theorem join_triple (a b c : Text) :
    ' ' :: join ", ".toList [a, b, c] = ' ' :: (a ++ ',' :: ' ' :: (b ++ ',' :: ' ' :: c)) := by
  simp [join, List.intercalate]

section Reading

variable {ctx : Rva.Context} {c : Rva.Cursor} {allocate : Nat → Nat} {rd rs rt : Rv32.Reg}

/-- A register, a comma and an address. -/
theorem address_of_join {imm : BitVec 12} (hregs : ctx.registers = Rva.registerTable)
    (h : ctx.line.drop c.position = ' ' :: join ", ".toList [abiName rd, jimAddress imm.toInt rs]) :
    ∃ c₁ c', Rva.RegComma ctx c rd c₁ ∧ Rva.Based ctx c₁ rs imm c' := by
  obtain ⟨hrd, hrest⟩ := regComma_abiName hregs (h.trans (join_pair _ _))
  obtain ⟨c', haddr⟩ :=
    based_jimAddress (c := { c with position := c.position + 1 + (abiName rd).length + 1 }) hregs hrest
  exact ⟨_, c', hrd, haddr⟩

/-- Two registers with their commas, and what is behind them. -/
theorem registers_of_join {t : Text} (hregs : ctx.registers = Rva.registerTable)
    (h : ctx.line.drop c.position = ' ' :: join ", ".toList [abiName rd, abiName rs, t]) :
    ∃ c₁ c₂, Rva.RegComma ctx c rd c₁ ∧ Rva.RegComma ctx c₁ rs c₂ ∧ ctx.line.drop c₂.position = ' ' :: t := by
  obtain ⟨hrd, hrest⟩ := regComma_abiName hregs (h.trans (join_triple _ _ _))
  obtain ⟨hrs, hrest⟩ :=
    regComma_abiName (c := { c with position := c.position + 1 + (abiName rd).length + 1 }) hregs hrest
  exact ⟨_, _, hrd, hrs, hrest⟩

theorem isValue_of_drop_end {n : Int} (h : ctx.line.drop c.position = ' ' :: strInt n) :
    ∃ c', Rva.IsValue ctx c (BitVec.ofInt 32 n) c' :=
  ⟨_, isValue_strInt (k := 1) (Or.inl rfl) (h.trans (by rw [List.append_nil]; rfl))⟩

theorem fst_eq_of_states {m : Rv32.Mnemonic} {c' : Rva.Cursor} {ws : List Word}
    (h : Rva.rv32iMnemonic ctx allocate (Rva.tokenOf m) c = (.ok ws, c')) :
    (Rva.rv32iMnemonic ctx allocate (Rva.tokenOf m) c).1 = .ok ws := by rw [h]

end Reading

theorem loadName_ne (op : Rv32.LoadOp) : op.name.toList ≠ "addi".toList := by cases op <;> decide

theorem storeName_ne (op : Rv32.StoreOp) : op.name.toList ≠ "addi".toList := by cases op <;> decide

theorem regName_ne (op : Rv32.RegOp) : op.name.toList ≠ "addi".toList := by cases op <;> decide

/-- **GCC's line is carried over.** -/
theorem carried {source : Text} (h : gasLine i = some source) : ∃ node line, Carried i source node line := by
  rw [gasLine, Option.map_eq_some_iff] at h
  obtain ⟨⟨m, args⟩, hgas, rfl⟩ := h
  have hname := isName_of_gasInstr hgas
  cases i with
  | load op rd rs imm =>
    obtain ⟨rfl, rfl⟩ := Prod.mk.inj (Option.some.inj hgas)
    refine ⟨_, _, carried_of_reads [registerOf rd, addressOf imm.toInt rs] hname ?_ (List.cons_ne_nil _ _)
      ?_ rfl ?_ ?_ fun ctx allocate c hfinal hregs hdrop => ?_⟩
    · exact List.forall_mem_cons.2 ⟨solid_abiName rd, List.forall_mem_singleton.2 (solid_gasAddress _ _)⟩
    · simp [parseOperand_abiName, parseOperand_gasAddress, registerOf, addressOf]
    · simp [registerOf, addressOf]
    · exact fun heq => absurd heq (loadName_ne op)
    · obtain ⟨c₁, c', hrd, haddr⟩ := address_of_join hregs hdrop
      exact fst_eq_of_states ((Rva.load_iff hfinal op).2 ⟨[.load op rd rs imm], .load hrd haddr, rfl⟩)
  | store op rt rs imm =>
    obtain ⟨rfl, rfl⟩ := Prod.mk.inj (Option.some.inj hgas)
    refine ⟨_, _, carried_of_reads [registerOf rt, addressOf imm.toInt rs] hname ?_ (List.cons_ne_nil _ _)
      ?_ rfl ?_ ?_ fun ctx allocate c hfinal hregs hdrop => ?_⟩
    · exact List.forall_mem_cons.2 ⟨solid_abiName rt, List.forall_mem_singleton.2 (solid_gasAddress _ _)⟩
    · simp [parseOperand_abiName, parseOperand_gasAddress, registerOf, addressOf]
    · simp [registerOf, addressOf]
    · exact fun heq => absurd heq (storeName_ne op)
    · obtain ⟨c₁, c', hrt, haddr⟩ := address_of_join hregs hdrop
      exact fst_eq_of_states ((Rva.store_iff hfinal op).2 ⟨[.store op rt rs imm], .store hrt haddr, rfl⟩)
  | imm op rd rs imm =>
    obtain ⟨rfl, rfl⟩ := Prod.mk.inj (Option.some.inj hgas)
    refine ⟨_, _, carried_of_reads [registerOf rd, registerOf rs, numberOf imm.toInt] hname ?_
      (List.cons_ne_nil _ _) ?_ rfl ?_ (fun _ => ⟨_, rfl, rfl⟩) fun ctx allocate c hfinal hregs hdrop => ?_⟩
    · exact List.forall_mem_cons.2 ⟨solid_abiName rd, List.forall_mem_cons.2 ⟨solid_abiName rs,
        List.forall_mem_singleton.2 (solid_strInt _)⟩⟩
    · simp [parseOperand_abiName, parseOperand_strInt, registerOf, numberOf]
    · simp [registerOf, numberOf]
    · obtain ⟨c₁, c₂, hrd, hrs, hrest⟩ := registers_of_join hregs hdrop
      obtain ⟨c', hvalue⟩ := isValue_of_drop_end hrest
      exact fst_eq_of_states ((Rva.imm_iff hfinal op).2 ⟨[.imm op rd rs imm], .imm hrd hrs hvalue, rfl⟩)
  | shift op rd rs shamt =>
    obtain ⟨rfl, rfl⟩ := Prod.mk.inj (Option.some.inj hgas)
    refine ⟨_, _, carried_of_reads [registerOf rd, registerOf rs, numberOf shamt.toNat] hname ?_
      (List.cons_ne_nil _ _) ?_ rfl ?_ (fun _ => ⟨_, rfl, rfl⟩) fun ctx allocate c hfinal hregs hdrop => ?_⟩
    · exact List.forall_mem_cons.2 ⟨solid_abiName rd, List.forall_mem_cons.2 ⟨solid_abiName rs,
        List.forall_mem_singleton.2 (solid_strInt _)⟩⟩
    · simp [parseOperand_abiName, parseOperand_strInt, registerOf, numberOf]
    · simp [registerOf, numberOf]
    · obtain ⟨c₁, c₂, hrd, hrs, hrest⟩ := registers_of_join hregs hdrop
      obtain ⟨c', hvalue⟩ := isValue_of_drop_end hrest
      rw [BitVec.ofInt_natCast, BitVec.ofNat_toNat] at hvalue
      exact fst_eq_of_states ((Rva.shift_iff hfinal op).2 ⟨[.shift op rd rs shamt], .shift hrd hrs hvalue, rfl⟩)
  | reg op rd rs rt =>
    obtain ⟨rfl, rfl⟩ := Prod.mk.inj (Option.some.inj hgas)
    refine ⟨_, _, carried_of_reads [registerOf rd, registerOf rs, registerOf rt] hname ?_
      (List.cons_ne_nil _ _) ?_ rfl ?_ ?_ fun ctx allocate c hfinal hregs hdrop => ?_⟩
    · exact List.forall_mem_cons.2 ⟨solid_abiName rd, List.forall_mem_cons.2 ⟨solid_abiName rs,
        List.forall_mem_singleton.2 (solid_abiName rt)⟩⟩
    · simp [parseOperand_abiName, registerOf]
    · simp [registerOf]
    · exact fun heq => absurd heq (regName_ne op)
    · obtain ⟨c₁, c₂, hrd, hrs, hrest⟩ := registers_of_join hregs hdrop
      have hlast : ctx.line.drop c₂.position = List.replicate 1 ' ' ++ (abiName rt ++ []) :=
        hrest.trans (by rw [List.append_nil]; rfl)
      have hend : ∀ x, ([] : Text).head? = some x → Rva.alphaNumeric x = false := nofun
      have hrt := isReg_abiName hregs hend hlast
      exact fst_eq_of_states ((Rva.reg_iff op).2 ⟨[.reg op rd rs rt], .reg hrd hrs hrt, rfl⟩)
  | lui | auipc | jal | jalr | branch | csr | csri => cases hgas

end Instruction

/-! ## A run of instructions -/

/-- An instruction that no pass changes stays in front of what becomes of the rest. -/
theorem collapse_cons {anchors : Anchors} {strTable : StrTable} {mapped : LaMapped} {node : Instruction}
    (hlui : node.op ≠ "lui".toList)
    (hnode : ∀ mapped, collapseNode mapped (.instruction node) = some [.instruction node])
    (rest : List Node) : collapse anchors strTable mapped (.instruction node :: rest) =
      (collapse anchors strTable mapped rest).map (.instruction node :: ·) := by
  cases rest with
  | nil =>
    rw [collapse, collapse, hnode]
    rfl
  | cons next rest =>
    rw [collapse]
    simp only [if_neg hlui, hnode]
    cases collapse anchors strTable mapped (next :: rest) <;> rfl

theorem parseLine_carried {i : Instr} {source line : Text} {node : Instruction} (h : Carried i source node line)
    {s : ParserState} {f : AsmFunction} (hf : s.currentFunction = some f) (hpending : s.pendingLabel = none) :
    parseLine s (tokenise source) =
      some { s with currentFunction := some { f with body := f.body ++ [.instruction node] } } := by
  have henter : enterFunction s = s := by rw [enterFunction, hpending]
  rw [h.parsed, henter, ParserState.append, hf, Option.map_some]

/-- **What GCC writes is what is assembled.**  A run of instructions whose operands are registers and numbers
goes through the converter as it is, wherever in a function it stands, and of each line that is printed comes
the word of its instruction. -/
theorem converted_assembles (is : List Instr) (sources : List Text) (hgas : is.mapM gasLine = some sources)
    (s : ParserState) (f : AsmFunction) (hf : s.currentFunction = some f) (hpending : s.pendingLabel = none) :
    ∃ (nodes : List Instruction) (lines : List Text),
      (sources.map tokenise).foldlM parseLine s =
        some { s with currentFunction := some { f with body := f.body ++ nodes.map .instruction } } ∧
      (∀ function mapping, (nodes.map .instruction).map (Node.resolve function mapping) = nodes.map .instruction) ∧
      (∀ anchors strTable mapped rest, collapse anchors strTable mapped (nodes.map .instruction ++ rest) =
        (collapse anchors strTable mapped rest).map (nodes.map .instruction ++ ·)) ∧
      nodes.mapM Instruction.str = some lines ∧ List.Forall₂ AssemblesTo lines is := by
  induction is generalizing sources s f with
  | nil =>
    obtain rfl : [] = sources := Option.some.inj hgas
    refine ⟨[], [], ?_, fun _ _ => rfl, fun _ _ _ rest => ?_, rfl, .nil⟩
    · have hbody : f.body ++ ([] : List Instruction).map .instruction = f.body := List.append_nil _
      rw [hbody]
      show some s = some { s with currentFunction := some f }
      rw [← hf]
    · simp
  | cons i is ih =>
    rw [List.mapM_cons] at hgas
    simp only [Option.bind_eq_bind, Option.bind_eq_some_iff, Option.pure_def, Option.some.injEq] at hgas
    obtain ⟨source, hsource, sources, hsources, rfl⟩ := hgas
    obtain ⟨node, line, hnode⟩ := carried hsource
    obtain ⟨nodes, lines, hparse, hresolve, hcollapse, hstr, hlines⟩ := ih sources hsources
      { s with currentFunction := some { f with body := f.body ++ [.instruction node] } } _ rfl hpending
    refine ⟨node :: nodes, line :: lines, ?_, fun function mapping => ?_, fun anchors strTable mapped rest => ?_, ?_,
      .cons hnode.assembles hlines⟩
    · rw [List.map_cons, List.foldlM_cons, parseLine_carried hnode hf hpending]
      refine hparse.trans ?_
      rw [List.append_assoc]
      rfl
    · rw [List.map_cons, List.map_cons, hnode.resolved, hresolve]
    · rw [List.map_cons, List.cons_append, collapse_cons hnode.notUpper hnode.collapsed, hcollapse, Option.map_map]
      rfl
    · rw [List.mapM_cons, hnode.printed, hstr]
      rfl

/-- A function that is being filled. -/
def openedFunction : ParserState where
  currentSection := .text
  currentFunction := some { name := "f".toList, exported := true }

theorem converted_assembles_two : ∃ (nodes : List Instruction) (lines : List Text),
    (["\tlw\ta0,-8(sp)".toList, "\taddi\ta0,a0,12".toList].map tokenise).foldlM parseLine openedFunction =
      some { openedFunction with
        currentFunction := some { name := "f".toList, exported := true, body := [] ++ nodes.map .instruction } } ∧
    (∀ function mapping, (nodes.map .instruction).map (Node.resolve function mapping) = nodes.map .instruction) ∧
    (∀ anchors strTable mapped rest, collapse anchors strTable mapped (nodes.map .instruction ++ rest) =
      (collapse anchors strTable mapped rest).map (nodes.map .instruction ++ ·)) ∧
    nodes.mapM Instruction.str = some lines ∧
    List.Forall₂ AssemblesTo lines [.load .lw 10 2 (-8), .imm .addi 10 10 12] :=
  converted_assembles _ _ (by decide +kernel) openedFunction _ rfl rfl

end RiscyOS.GasToJim
