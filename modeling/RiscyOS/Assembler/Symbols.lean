import RiscyOS.Lib.HashTable
import RiscyOS.Assembler.Text

/-!
# Symbol tables

The tables of `rva.c`: records in sixteen lists, by the lowest bits of a hash of the name.  A table may
be case insensitive; then names are kept in upper case.

A record is told from the others of its table by its identifier, as the C code does by its address.
The names compared here are those kept in the records, of 32 characters at most; for a longer name the
C code reads on behind the field.
-/

set_option autoImplicit false

namespace RiscyOS.Rva

open Memory

/-- `SYM_NAME_MAX`. -/
def symNameMax : Nat := 32

/-- `SYM_TAB_CASE_FLAG`. -/
def symTabCaseFlag : Word := 1

/-- `SYM_REC_DEF_FLAG`. -/
def symRecDefFlag : Word := 0x0100

/-- `SYM_REC_EQU_FLAG`. -/
def symRecEquFlag : Word := 0x0400

/-- `SYM_REC_USR_FLAG`. -/
def symRecUsrFlag : Word := 0x0800

/-- `SYM_REC_DATA_FLAG`. -/
def symRecDataFlag : Word := 0x2000

/-- `sym_record`, without what the ELF output keeps in it. -/
structure SymRecord where
  count : Nat
  hash : Word
  flags : Word
  identifier : Nat
  value : Word
  name : Line
  deriving DecidableEq, Repr

/-- The symbol has been given a value. -/
def SymRecord.defined (r : SymRecord) : Bool := r.flags &&& symRecDefFlag ≠ 0

/-- `sym_table`. -/
structure SymTable where
  symbolNumber : Nat
  flags : Word
  pList : BitVec 4 → List SymRecord

/-- `sym_create_table`. -/
def symCreateTable (flags : Word) : SymTable where
  symbolNumber := 0
  flags := flags
  pList _ := []

def SymTable.caseInsensitive (t : SymTable) : Bool := t.flags &&& symTabCaseFlag ≠ 0

/-- What becomes of a character when a name is copied. -/
def foldCase (caseInsensitive : Bool) (c : Char) : Char :=
  if caseInsensitive ∧ 'a' ≤ c ∧ c ≤ 'z' then upperCase c else c

/-- The hash of a name. -/
def hashName (name : Line) : Word :=
  name.foldl (fun hash c => ((hash <<< 5) ^^^ (hash >>> 11)) + BitVec.ofNat 32 c.toNat) 0

/-- `sym_create_record`, with the copy of the name that `sym_string_copy` makes.  The identifier is for
the table to give. -/
def symCreateRecord (name : Line) (value flags tableFlags : Word) : SymRecord :=
  let name := name.map (foldCase (tableFlags &&& symTabCaseFlag ≠ 0))
  { count := name.length
    hash := hashName name
    flags := flags
    identifier := 0
    value := value
    name := name.take symNameMax }

/-- What a search compares. -/
def SymRecord.key (r : SymRecord) : Word × Nat × Line := (r.hash, r.count, r.name)

/-- The lists, as a hash table. -/
def symShape : HashTable.Shape (BitVec 4) (Word × Nat × Line) SymRecord where
  hash k := k.1.setWidth 4
  key := SymRecord.key

/-- `sym_find_record`. -/
def symFindRecord (table : SymTable) (record : SymRecord) : Option SymRecord :=
  HashTable.find symShape table.pList record.key

/-- `sym_add_to_table`. -/
def symAddToTable (table : SymTable) (record : SymRecord) : SymTable :=
  { table with
    symbolNumber := table.symbolNumber + 1
    pList := HashTable.add symShape table.pList { record with identifier := table.symbolNumber } }

/-- `sym_find_label`. -/
def symFindLabel (name : Line) (table : SymTable) : Option SymRecord :=
  symFindRecord table (symCreateRecord name 0 0 table.flags)

/-- `sym_find_label_list`. -/
def symFindLabelList (name : Line) (tables : List SymTable) : Option SymRecord :=
  tables.findSome? (symFindLabel name)

/-- `defn_return`, without the case that there is no table. -/
inductive DefnReturn where
  | added | defined | redefined | unchanged
  deriving DecidableEq, Repr

/-- Change the record that has the name of this one. -/
def SymTable.update (table : SymTable) (record : SymRecord) (f : SymRecord → SymRecord) : SymTable :=
  { table with pList := HashTable.modify symShape table.pList record.key f }

/-- `sym_define_label`. -/
def symDefineLabel (name : Line) (value flags : Word) (table : SymTable) : DefnReturn × SymTable :=
  let ptr1 := symCreateRecord name value (flags ||| symRecDefFlag) table.flags
  match symFindRecord table ptr1 with
  | none => (.added, symAddToTable table ptr1)
  | some ptr2 =>
    if ¬ ptr2.defined then
      (.defined, table.update ptr1 fun r => { r with flags := r.flags ||| symRecDefFlag, value := ptr1.value })
    else if ptr2.value ≠ ptr1.value then
      (.redefined, table.update ptr1 fun r => { r with value := ptr1.value })
    else (.unchanged, table)

/-- `build_table`. -/
def buildTable (flags : Word) (symbols : List (String × Word)) : SymTable :=
  symbols.foldl (fun table s => (symDefineLabel s.1.toList s.2 0 table).2) (symCreateTable flags)

/-! ## What a table says of a name -/

/-- The two names are one, in a table with these flags. -/
def SameName (tableFlags : Word) (a b : Line) : Prop :=
  a.map (foldCase (tableFlags &&& symTabCaseFlag ≠ 0)) = b.map (foldCase (tableFlags &&& symTabCaseFlag ≠ 0))

instance (tableFlags : Word) (a b : Line) : Decidable (SameName tableFlags a b) :=
  inferInstanceAs (Decidable (_ = _))

section

variable {a b name : Line} {value flags : Word} {table : SymTable}

/-- **Names that fit are told apart** by what a search compares. -/
theorem key_createRecord_inj (value flags tableFlags value' flags' : Word) (ha : a.length ≤ symNameMax)
    (hb : b.length ≤ symNameMax) : (symCreateRecord a value flags tableFlags).key = (symCreateRecord b value' flags' tableFlags).key ↔
      SameName tableFlags a b := by
  simp only [SymRecord.key, symCreateRecord, Prod.mk.injEq, SameName]
  constructor
  · rintro ⟨-, -, h⟩
    rwa [List.take_of_length_le (by simpa using ha), List.take_of_length_le (by simpa using hb)] at h
  · intro h
    rw [h]
    exact ⟨rfl, rfl, rfl⟩

@[simp] theorem flags_update {r : SymRecord} {f : SymRecord → SymRecord} :
    (table.update r f).flags = table.flags := rfl

theorem find_update {r : SymRecord} {f : SymRecord → SymRecord} {k : Word × Nat × Line}
    (hf : ∀ q, (f q).key = q.key) : HashTable.find symShape (table.update r f).pList k =
      if r.key = k then (HashTable.find symShape table.pList r.key).map f
      else HashTable.find symShape table.pList k :=
  HashTable.find_modify fun q hq => (hf q).trans hq

theorem flags_defineLabel : (symDefineLabel name value flags table).2.flags = table.flags := by
  rw [symDefineLabel]
  cases symFindRecord table (symCreateRecord name value (flags ||| symRecDefFlag) table.flags) with
  | none => rfl
  | some r =>
    by_cases hdef : r.defined
    · simp only [hdef, not_true_eq_false, if_false]
      split <;> rfl
    · simp only [hdef]
      rfl

/-- The value that a table has for a name, if it has one. -/
def SymTable.value? (table : SymTable) (name : Line) : Option Word :=
  (symFindLabel name table).bind fun r => if r.defined then some r.value else none

theorem defined_or (w : Word) : (w ||| symRecDefFlag) &&& symRecDefFlag ≠ 0 := by
  have h : (w ||| symRecDefFlag) &&& symRecDefFlag = symRecDefFlag := by
    apply BitVec.eq_of_getLsbD_eq
    intro i _
    simp only [BitVec.getLsbD_and, BitVec.getLsbD_or]
    cases w.getLsbD i <;> simp
  rw [h]
  decide

/-- What is found after a definition: the record it defines, under its name, and what was there before
under others. -/
theorem findLabel_defineLabel (value flags : Word) (table : SymTable) (ha : a.length ≤ symNameMax)
    (hb : b.length ≤ symNameMax) :
    if SameName table.flags a b then
      ∃ r, symFindLabel b (symDefineLabel a value flags table).2 = some r ∧ r.defined ∧ r.value = value
    else symFindLabel b (symDefineLabel a value flags table).2 = symFindLabel b table := by
  have hkey := key_createRecord_inj value (flags ||| symRecDefFlag) table.flags 0 0 ha hb
  rw [symFindLabel, flags_defineLabel, symFindLabel, symDefineLabel]
  generalize hrec : symCreateRecord a value (flags ||| symRecDefFlag) table.flags = ptr1 at hkey
  have hvalue : ptr1.value = value := by rw [← hrec, symCreateRecord]
  have hflags : ptr1.flags = flags ||| symRecDefFlag := by rw [← hrec, symCreateRecord]
  generalize symCreateRecord b 0 0 table.flags = target at hkey
  simp only [symFindRecord, ← hkey]
  cases hfind : HashTable.find symShape table.pList ptr1.key with
  | none =>
    simp only [symAddToTable, HashTable.find_add]
    have hadd : symShape.key { ptr1 with identifier := table.symbolNumber } = ptr1.key := rfl
    rw [hadd]
    split
    · exact ⟨_, rfl, decide_eq_true (hflags ▸ defined_or flags), hvalue⟩
    · rfl
  | some ptr2 =>
    by_cases hdef : ptr2.defined
    · simp only [hdef, not_true_eq_false, if_false]
      by_cases hsame : ptr2.value = ptr1.value
      · simp only [hsame, ne_eq, not_true_eq_false, if_false]
        split
        · rename_i heq
          exact ⟨ptr2, heq ▸ hfind, hdef, hsame.trans hvalue⟩
        · trivial
      · simp only [hsame, ne_eq, not_false_eq_true, if_true]
        rw [find_update, hfind]
        · split
          · exact ⟨_, rfl, hdef, hvalue⟩
          · rfl
        · exact fun _ => rfl
    · simp only [hdef, Bool.false_eq_true, not_false_eq_true, if_true]
      rw [find_update, hfind]
      · split
        · exact ⟨_, rfl, decide_eq_true (defined_or _), hvalue⟩
        · rfl
      · exact fun _ => rfl

/-- **A definition is found under its name**, and nothing else changes. -/
theorem value_defineLabel (ha : a.length ≤ symNameMax) (hb : b.length ≤ symNameMax) :
    (symDefineLabel a value flags table).2.value? b =
      if SameName table.flags a b then some value else table.value? b := by
  have hfind := findLabel_defineLabel value flags table ha hb
  rw [SymTable.value?, SymTable.value?]
  split
  · rename_i hsame
    rw [if_pos hsame] at hfind
    obtain ⟨r, hr, hdef, hvalue⟩ := hfind
    rw [hr, Option.bind_some, if_pos hdef, hvalue]
  · rename_i hne
    rw [if_neg hne] at hfind
    rw [hfind]

end

/-! ## Runs of definitions -/

/-- A number of definitions, one after the other. -/
def defineAll (table : SymTable) (defs : List (Line × Word × Word)) : SymTable :=
  defs.foldl (fun table d => (symDefineLabel d.1 d.2.1 d.2.2 table).2) table

/-- **A symbol table is a map.**  After any definitions, in any order, a name has the value that the last
one for it gives, and if there is none, what it had before.  In a case insensitive table a name is the
same in upper and lower case, and how the names hash does not matter. -/
theorem value_defineAll (table : SymTable) (defs : List (Line × Word × Word)) (name : Line)
    (hname : name.length ≤ symNameMax) (hdefs : ∀ d ∈ defs, d.1.length ≤ symNameMax) :
    (defineAll table defs).value? name =
      match defs.reverse.find? fun d => SameName table.flags d.1 name with
      | some d => some d.2.1
      | none => table.value? name := by
  induction defs generalizing table with
  | nil => rfl
  | cons d defs ih =>
    have hd := hdefs d (List.mem_cons_self ..)
    rw [defineAll, List.foldl_cons, ← defineAll, ih _ fun e he => hdefs e (List.mem_cons_of_mem _ he),
      flags_defineLabel, List.reverse_cons, List.find?_append, value_defineLabel hd hname]
    cases defs.reverse.find? fun d => decide (SameName table.flags d.1 name) with
    | some e => rfl
    | none =>
      by_cases hsame : SameName table.flags d.1 name <;> simp [hsame]

/-! ## What holds of all values -/

/-- Something holds of all the values in a table. -/
def SymTable.All (table : SymTable) (P : Word → Prop) : Prop := HashTable.All table.pList fun r => P r.value

section

variable {P : Word → Prop} {table : SymTable} {name : Line} {value flags : Word} {r : SymRecord}

theorem SymTable.All.find (h : table.All P) (hfind : symFindLabel name table = some r) : P r.value := by
  have hall : HashTable.All table.pList fun r => P r.value := h
  exact hall.find (S := symShape) hfind

theorem SymTable.All.define (h : table.All P) (hvalue : P value) : (symDefineLabel name value flags table).2.All P := by
  rw [symDefineLabel]
  cases symFindRecord table (symCreateRecord name value (flags ||| symRecDefFlag) table.flags) with
  | none => exact HashTable.All.add h hvalue
  | some ptr2 =>
    by_cases hdef : ptr2.defined
    · simp only [hdef, not_true_eq_false, if_false]
      split
      · exact HashTable.All.modify h fun _ _ => hvalue
      · exact h
    · simp only [hdef]
      exact HashTable.All.modify h fun _ _ => hvalue

theorem SymTable.All.defineAll {defs : List (Line × Word × Word)} (h : table.All P)
    (hdefs : ∀ d ∈ defs, P d.2.1) : (defineAll table defs).All P := by
  induction defs generalizing table with
  | nil => exact h
  | cons d defs ih =>
    rw [Rva.defineAll, List.foldl_cons, ← Rva.defineAll]
    exact ih (h.define (hdefs d (List.mem_cons_self ..))) fun e he => hdefs e (List.mem_cons_of_mem _ he)

end

/-! ## What a definition reports -/

/-- All the records have a value. -/
def SymTable.AllDefined (table : SymTable) : Prop := HashTable.All table.pList fun r => r.defined = true

section

variable {table : SymTable} {name : Line} {value flags : Word}

theorem defined_create (name : Line) (value flags tableFlags : Word) :
    (symCreateRecord name value (flags ||| symRecDefFlag) tableFlags).defined = true :=
  decide_eq_true (defined_or flags)

theorem SymTable.AllDefined.define (h : table.AllDefined) : (symDefineLabel name value flags table).2.AllDefined := by
  rw [symDefineLabel]
  cases symFindRecord table (symCreateRecord name value (flags ||| symRecDefFlag) table.flags) with
  | none => exact HashTable.All.add h (defined_create name value flags table.flags)
  | some ptr2 =>
    by_cases hdef : ptr2.defined
    · simp only [hdef, not_true_eq_false, if_false]
      split
      · exact HashTable.All.modify h fun _ hr => hr
      · exact h
    · simp only [hdef]
      exact HashTable.All.modify h fun _ _ => decide_eq_true (defined_or _)

theorem SymTable.AllDefined.defineAll {defs : List (Line × Word × Word)} (h : table.AllDefined) :
    (defineAll table defs).AllDefined := by
  induction defs generalizing table with
  | nil => exact h
  | cons d defs ih =>
    rw [Rva.defineAll, List.foldl_cons, ← Rva.defineAll]
    exact ih h.define

end

end RiscyOS.Rva
