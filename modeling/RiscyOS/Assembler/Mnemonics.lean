import Mathlib.Data.List.Pairwise
import RiscyOS.Assembler.Evaluate

/-!
# Mnemonics and their tokens

What `rva.c` knows of an instruction is a word, its token, out of the file `mnemonics`: the class that says
how the line is to be read, and the fields of the instruction that do not depend on the operands.  Here are
those of RV32 with multiplication, and the pseudo-instructions that RV32 has.  The file has more, for other
extensions and for directives, and the addresses of CSRs.
-/

set_option autoImplicit false

namespace RiscyOS.Rva

open Memory

/-- The instructions of the machine. -/
def baseMnemonics : List (String × Word) :=
  [("lui", 0x00D00000), ("auipc", 0x00500000), ("jal", 0x01B10000), ("jalr", 0x01950000),
    ("lb", 0x00058000), ("lh", 0x02058000), ("lw", 0x04058000), ("lbu", 0x08058000), ("lhu", 0x0A058000),
    ("addi", 0x00420000), ("slti", 0x04420000), ("sltiu", 0x06420000), ("xori", 0x08420000),
    ("ori", 0x0C420000), ("andi", 0x0E420000), ("slli", 0x02420000), ("srli", 0x0A420000),
    ("srai", 0x0A422000),
    ("beq", 0x01830000), ("bne", 0x03830000), ("blt", 0x09830000), ("bge", 0x0B830000),
    ("bltu", 0x0D830000), ("bgeu", 0x0F830000),
    ("sb", 0x00848000), ("sh", 0x02848000), ("sw", 0x04848000),
    ("add", 0x00C60000), ("sub", 0x00C62000), ("sll", 0x02C60000), ("slt", 0x04C60000),
    ("sltu", 0x06C60000), ("xor", 0x08C60000), ("srl", 0x0AC60000), ("sra", 0x0AC62000),
    ("or", 0x0CC60000), ("and", 0x0EC60000),
    ("mul", 0x00C60100), ("mulh", 0x02C60100), ("mulhsu", 0x04C60100), ("mulhu", 0x06C60100),
    ("div", 0x08C60100), ("divu", 0x0AC60100), ("rem", 0x0CC60100), ("remu", 0x0EC60100),
    ("csrrw", 0x03CA0000), ("csrrs", 0x05CA0000), ("csrrc", 0x07CA0000), ("csrrwi", 0x1BCA0000),
    ("csrrsi", 0x1DCA0000), ("csrrci", 0x1FCA0000),
    ("fence", 0x00080000), ("fence.i", 0x02080000), ("ecall", 0x00070000), ("ebreak", 0x00170000),
    ("uret", 0x00270000), ("sret", 0x10270000), ("mret", 0x30270000), ("wfi", 0x10570000)]

/-- The others, which are written for some of these. -/
def pseudoMnemonics : List (String × Word) :=
  [("subi", 0x10420000), ("li", 0x000B8000), ("la", 0x000B9000), ("lla", 0x000B9000),
    ("call", 0x021BA000), ("tail", 0x006BA000),
    ("nop", 0x00090000), ("ret", 0x10090000), ("illegal", 0x20090000), ("jr", 0x00190000),
    ("j", 0x00290000), ("mv", 0x00390000), ("not", 0x10390000), ("neg", 0x20390000),
    ("seqz", 0x50390000), ("snez", 0x60390000), ("sltz", 0x70390000), ("sgtz", 0x80390000),
    ("beqz", 0x00490000), ("bnez", 0x02490000), ("blez", 0x0B490000), ("bgez", 0x0A490000),
    ("bltz", 0x08490000), ("bgtz", 0x09490000),
    ("bgt", 0x19830000), ("ble", 0x1B830000), ("bgtu", 0x1D830000), ("bleu", 0x1F830000),
    ("csrr", 0x24590000), ("csrw", 0x02590000), ("csrs", 0x04590000), ("csrc", 0x06590000),
    ("csrwi", 0x1A590000), ("csrsi", 0x1C590000), ("csrci", 0x1E590000),
    ("rdinstret", 0xC0692200), ("rdcycle", 0xC0690200), ("rdtime", 0xC0691200),
    ("rdinstreth", 0xC8692200), ("rdcycleh", 0xC8690200), ("rdtimeh", 0xC8691200)]

/-- `rv32i_mnemonic_table`. -/
def rv32iMnemonicTable : SymTable := buildTable symTabCaseFlag (baseMnemonics ++ pseudoMnemonics)

theorem buildTable_eq (flags : Word) (symbols : List (String × Word)) : buildTable flags symbols =
    defineAll (symCreateTable flags) (symbols.map fun s => (s.1.toList, s.2, 0)) := by
  rw [buildTable, defineAll, List.foldl_map]

/-- No name is there twice. -/
def Distinct (flags : Word) (symbols : List (String × Word)) : Prop :=
  symbols.Pairwise fun s t => ¬ SameName flags s.1.toList t.1.toList

/-- **A table that is built of names that are all different** has each of them, with its value. -/
theorem value_buildTable {flags : Word} {symbols : List (String × Word)}
    (hlen : ∀ s ∈ symbols, s.1.toList.length ≤ symNameMax) (hne : Distinct flags symbols)
    {s : String × Word} (hs : s ∈ symbols) : (buildTable flags symbols).value? s.1.toList = some s.2 := by
  rw [buildTable_eq, value_defineAll _ _ _ (hlen s hs)]
  · have hflags : (symCreateTable flags).flags = flags := rfl
    rw [hflags, ← List.map_reverse, List.find?_map]
    cases hfind : symbols.reverse.find? ((fun d => decide (SameName flags d.1 s.1.toList)) ∘ fun t =>
        (t.1.toList, t.2, (0 : Word))) with
    | none =>
      have hno := List.find?_eq_none.1 hfind s (List.mem_reverse.2 hs)
      exact absurd (decide_eq_true (rfl : SameName flags s.1.toList s.1.toList)) hno
    | some t =>
      have ht := List.mem_reverse.1 (List.mem_of_find?_eq_some hfind)
      have htrue := List.find?_some hfind
      have hsame : SameName flags t.1.toList s.1.toList := of_decide_eq_true htrue
      have heq : t = s := by
        by_contra hts
        have hsymm : Std.Symm fun x y : String × Word => ¬ SameName flags x.1.toList y.1.toList :=
          ⟨fun _ _ hxy hyx => hxy (Eq.symm hyx)⟩
        exact List.Pairwise.forall hne ht hs hts hsame
      rw [heq]
      rfl
  · intro d hd
    obtain ⟨t, ht, rfl⟩ := List.mem_map.1 hd
    exact hlen t ht

instance (flags : Word) (symbols : List (String × Word)) : Decidable (Distinct flags symbols) :=
  inferInstanceAs (Decidable (List.Pairwise ..))

theorem mnemonics_distinct : Distinct symTabCaseFlag (baseMnemonics ++ pseudoMnemonics) := by decide

/-- The token of every mnemonic is found. -/
theorem value_mnemonic {s : String × Word} (hs : s ∈ baseMnemonics ++ pseudoMnemonics) :
    rv32iMnemonicTable.value? s.1.toList = some s.2 :=
  value_buildTable (by decide) mnemonics_distinct hs

end RiscyOS.Rva
