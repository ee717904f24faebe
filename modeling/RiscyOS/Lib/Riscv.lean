import Mathlib.Computability.StateTransition
import RiscyOS.Lib.Record

/-!
# Assembly routines and their callers

A routine is a list of statements, as it stands in its source file: labels, straight-line
instructions, branches, calls and returns.  It is run on a hart, from some point of the list to where
control leaves it for good.

* `Image` — what the linker and the rest of the program add: the addresses of symbols and of program
  points, and what a routine called by name does to the hart.
* `Image.next` — one statement.  `Image.Leads` is any number of them, put together with one rule for
  each kind of statement.  Control leaves with `ret` or a tail call, and `Image.Exits` says how; there
  is at most one way (`Exits.unique`).
* `Image.Returns` — what a caller may expect of a routine: it comes back with the stack pointer, the
  return address it was called with and the caller's frame.  `Image.CallsReturn` asks that of the calls
  that are made.
* `StackBalanced` — what is owed to the caller in turn.
-/

set_option autoImplicit false

namespace Riscv

open Memory

/-! ## The hart -/

/-- The registers, by their calling names. -/
inductive Reg where
  | zero | ra | sp | gp | tp
  | t0 | t1 | t2 | t3 | t4 | t5 | t6
  | s0 | s1 | s2 | s3 | s4 | s5 | s6 | s7 | s8 | s9 | s10 | s11
  | a0 | a1 | a2 | a3 | a4 | a5 | a6 | a7
  deriving DecidableEq, Repr

/-- Registers and memory. -/
structure Hart where
  reg : Reg → Word
  mem : Mem

namespace Hart

/-- A register read; `zero` reads as zero. -/
def get (s : Hart) (r : Reg) : Word := if r = .zero then 0 else s.reg r

def set (s : Hart) (r : Reg) (v : Word) : Hart := { s with reg := fun q => if q = r then v else s.reg q }

def store (s : Hart) (m : Mem) : Hart := { s with mem := m }

variable {s : Hart} {q r : Reg} {v : Word} {m : Mem}

theorem get_set_self (h : r ≠ .zero) : (s.set r v).get r = v := by
  rw [get, if_neg h]
  exact if_pos rfl

theorem get_set_of_ne (h : q ≠ r) : (s.set r v).get q = s.get q := by
  rw [get, get, set]
  exact congrArg _ (if_neg h)

theorem mem_set : (s.set r v).mem = s.mem := rfl

end Hart

/-! ## Statements -/

/-- The straight-line instructions. -/
inductive Op (S : Type) where
  | li (rd : Reg) (imm : Word)
  | la (rd : Reg) (symbol : S)
  | mv (rd rs : Reg)
  | addi (rd rs : Reg) (imm : Word)
  | add (rd rs rt : Reg)
  | rem (rd rs rt : Reg)
  | lw (rd : Reg) (offset : Nat) (base : Reg)
  | lbu (rd : Reg) (offset : Nat) (base : Reg)
  | sw (rs : Reg) (offset : Nat) (base : Reg)
  | sb (rs : Reg) (offset : Nat) (base : Reg)

/-- The register that an instruction writes, if it is not a store. -/
def Op.dest {S : Type} : Op S → Option Reg
  | .li rd _ | .la rd _ | .mv rd _ | .addi rd _ _ | .add rd _ _ | .rem rd _ _ | .lw rd _ _ |
    .lbu rd _ _ => some rd
  | .sw _ _ _ | .sb _ _ _ => none

/-- One line of a routine; `F` names routines, `S` symbols and `L` labels. -/
inductive Stmt (F S L : Type) where
  | label (l : L)
  | op (o : Op S)
  | beq (rs rt : Reg) (l : L)
  | beqz (rs : Reg) (l : L)
  | bnez (rs : Reg) (l : L)
  | blez (rs : Reg) (l : L)
  | j (l : L)
  | call (f : F)
  | tail (f : F)
  | ret

/-- What a routine is linked with.  `point n` is the address of the place with `n` statements to go. -/
structure Image (F S : Type) where
  symbol : S → Word
  point : Nat → Word
  callee : F → Hart → Hart

/-- How control leaves: to another routine or, for `none`, to the return address. -/
structure Exit (F : Type) where
  target : Option F
  hart : Hart

namespace Image

variable {F S L : Type} [DecidableEq L] (img : Image F S)

/-- One straight-line instruction. -/
def exec : Op S → Hart → Hart
  | .li rd imm, s => s.set rd imm
  | .la rd symbol, s => s.set rd (img.symbol symbol)
  | .mv rd rs, s => s.set rd (s.get rs)
  | .addi rd rs imm, s => s.set rd (s.get rs + imm)
  | .add rd rs rt, s => s.set rd (s.get rs + s.get rt)
  | .rem rd rs rt, s => s.set rd ((s.get rs).srem (s.get rt))
  | .lw rd offset base, s => s.set rd (word s.mem (s.get base) offset)
  | .lbu rd offset base, s => s.set rd ((byte s.mem (s.get base) offset).setWidth 32)
  | .sw rs offset base, s => s.store (setWord s.mem (s.get base) offset (s.get rs))
  | .sb rs offset base, s => s.store (setByte s.mem (s.get base) offset ((s.get rs).setWidth 8))

/-! One instruction at a time: the register it writes, all other registers, and the memory. -/

section Exec

variable {img : Image F S} {s : Hart} {o : Op S} {q rd rs rt base : Reg} {imm : Word} {x : S} {i : Nat}

theorem get_exec_of_ne (h : o.dest ≠ some q) : (img.exec o s).get q = s.get q := by
  cases o with
  | sw => rfl
  | sb => rfl
  | _ => exact Hart.get_set_of_ne fun heq => h (congrArg some heq.symm)

theorem mem_exec_of_dest (h : o.dest ≠ none) : (img.exec o s).mem = s.mem := by
  cases o with
  | sw => exact absurd rfl h
  | sb => exact absurd rfl h
  | _ => rfl

theorem get_exec_li (h : rd ≠ .zero) : (img.exec (.li rd imm) s).get rd = imm := Hart.get_set_self h

theorem get_exec_la (h : rd ≠ .zero) : (img.exec (.la rd x) s).get rd = img.symbol x :=
  Hart.get_set_self h

theorem get_exec_mv (h : rd ≠ .zero) : (img.exec (.mv rd rs) s).get rd = s.get rs := Hart.get_set_self h

theorem get_exec_addi (h : rd ≠ .zero) : (img.exec (.addi rd rs imm) s).get rd = s.get rs + imm :=
  Hart.get_set_self h

theorem get_exec_add (h : rd ≠ .zero) : (img.exec (.add rd rs rt) s).get rd = s.get rs + s.get rt :=
  Hart.get_set_self h

theorem get_exec_rem (h : rd ≠ .zero) :
    (img.exec (.rem rd rs rt) s).get rd = (s.get rs).srem (s.get rt) := Hart.get_set_self h

theorem get_exec_lw (h : rd ≠ .zero) :
    (img.exec (.lw rd i base) s).get rd = word s.mem (s.get base) i := Hart.get_set_self h

theorem mem_exec_sw : (img.exec (.sw rs i base) s).mem = setWord s.mem (s.get base) i (s.get rs) := rfl

end Exec

/-- Whether a statement is the label `l`. -/
def isLabel (l : L) : Stmt F S L → Bool
  | .label l' => l = l'
  | _ => false

/-- The statements from a label on. -/
def after (code : List (Stmt F S L)) (l : L) : List (Stmt F S L) := code.dropWhile fun i => !isLabel l i

/-- The next statement, and the hart there. -/
def next (code : List (Stmt F S L)) : List (Stmt F S L) × Hart → Option (List (Stmt F S L) × Hart)
  | (.label _ :: rest, s) => some (rest, s)
  | (.op o :: rest, s) => some (rest, img.exec o s)
  | (.beq rs rt l :: rest, s) => some (if s.get rs = s.get rt then after code l else rest, s)
  | (.beqz rs l :: rest, s) => some (if s.get rs = 0 then after code l else rest, s)
  | (.bnez rs l :: rest, s) => some (if s.get rs ≠ 0 then after code l else rest, s)
  | (.blez rs l :: rest, s) => some (if (s.get rs).toInt ≤ 0 then after code l else rest, s)
  | (.j l :: _, s) => some (after code l, s)
  | (.call f :: rest, s) => some (rest, img.callee f (s.set .ra (img.point rest.length)))
  | (.tail _ :: _, _) | (.ret :: _, _) | ([], _) => none

/-- Control leaves here. -/
def exit? : List (Stmt F S L) × Hart → Option (Exit F)
  | (.tail f :: _, s) => some ⟨some f, s⟩
  | (.ret :: _, s) => some ⟨none, s⟩
  | _ => none

/-- **Control gets** from the point `a`, with the hart `s`, to the point `b` with the hart `t`. -/
def Leads (code a : List (Stmt F S L)) (s : Hart) (b : List (Stmt F S L)) (t : Hart) : Prop :=
  StateTransition.Reaches (img.next code) (a, s) (b, t)

/-- Control leaves in the end, like this. -/
def Exits (code a : List (Stmt F S L)) (s : Hart) (e : Exit F) : Prop :=
  ∃ b t, img.Leads code a s b t ∧ exit? (b, t) = some e

/-- At most `n` statements. -/
def run (code : List (Stmt F S L)) : Nat → List (Stmt F S L) × Hart → Option (Exit F)
  | 0, _ => none
  | n + 1, c =>
    match exit? c with
    | some e => some e
    | none => (img.next code c).bind (run code n)

variable {img} {code a b c rest : List (Stmt F S L)} {s t u : Hart} {e e' : Exit F}

theorem next_of_exit (h : exit? (b, t) = some e) : img.next code (b, t) = none := by
  rcases b with _ | ⟨i, b⟩
  · rfl
  cases i with
  | tail => rfl
  | ret => rfl
  | _ => exact absurd h (by simp [exit?])

/-- **There is one way out.** -/
theorem Exits.unique (h : img.Exits code a s e) (h' : img.Exits code a s e') : e = e' := by
  obtain ⟨b, t, hlead, he⟩ := h
  obtain ⟨b', t', hlead', he'⟩ := h'
  have hmem := StateTransition.mem_eval.2 ⟨hlead, next_of_exit he⟩
  have hmem' := StateTransition.mem_eval.2 ⟨hlead', next_of_exit he'⟩
  rw [Part.mem_unique hmem hmem', he'] at he
  exact (Option.some.inj he).symm

/-- What a run finds is the way out. -/
theorem exits_of_run {n : Nat} (h : img.run code n (a, s) = some e) : img.Exits code a s e := by
  induction n generalizing a s with
  | zero => exact absurd h (by simp [run])
  | succ n ih =>
    rw [run] at h
    cases hexit : exit? (a, s) with
    | some e' =>
      rw [hexit] at h
      exact ⟨a, s, .refl, hexit.trans h⟩
    | none =>
      rw [hexit] at h
      obtain ⟨⟨b, t⟩, hnext, hrun⟩ := Option.bind_eq_some_iff.1 h
      obtain ⟨c, u, hlead, he⟩ := ih hrun
      exact ⟨c, u, hlead.head hnext, he⟩

/-! A path is put together from its statements. -/

namespace Leads

variable {o : Op S} {l : L} {f : F} {rs rt : Reg}

theorem refl : img.Leads code a s a s := Relation.ReflTransGen.refl

theorem trans (h : img.Leads code a s b t) (h' : img.Leads code b t c u) : img.Leads code a s c u :=
  Relation.ReflTransGen.trans h h'

theorem label (h : img.Leads code rest s b t) : img.Leads code (.label l :: rest) s b t :=
  Relation.ReflTransGen.head rfl h

theorem op (h : img.Leads code rest (img.exec o s) b t) : img.Leads code (.op o :: rest) s b t :=
  Relation.ReflTransGen.head rfl h

theorem call (h : img.Leads code rest (img.callee f (s.set .ra (img.point rest.length))) b t) :
    img.Leads code (.call f :: rest) s b t :=
  Relation.ReflTransGen.head rfl h

theorem beq_of_eq (heq : s.get rs = s.get rt) (h : img.Leads code (after code l) s b t) :
    img.Leads code (.beq rs rt l :: rest) s b t :=
  Relation.ReflTransGen.head (congrArg (fun p => some (p, s)) (if_pos heq)) h

theorem beq_of_ne (hne : s.get rs ≠ s.get rt) (h : img.Leads code rest s b t) :
    img.Leads code (.beq rs rt l :: rest) s b t :=
  Relation.ReflTransGen.head (congrArg (fun p => some (p, s)) (if_neg hne)) h

theorem beqz_of_eq (heq : s.get rs = 0) (h : img.Leads code (after code l) s b t) :
    img.Leads code (.beqz rs l :: rest) s b t :=
  Relation.ReflTransGen.head (congrArg (fun p => some (p, s)) (if_pos heq)) h

theorem beqz_of_ne (hne : s.get rs ≠ 0) (h : img.Leads code rest s b t) :
    img.Leads code (.beqz rs l :: rest) s b t :=
  Relation.ReflTransGen.head (congrArg (fun p => some (p, s)) (if_neg hne)) h

theorem bnez_of_eq (heq : s.get rs = 0) (h : img.Leads code rest s b t) :
    img.Leads code (.bnez rs l :: rest) s b t :=
  Relation.ReflTransGen.head (congrArg (fun p => some (p, s)) (if_neg (not_not.2 heq))) h

theorem j (h : img.Leads code (after code l) s b t) : img.Leads code (.j l :: rest) s b t :=
  Relation.ReflTransGen.head rfl h

theorem exits_ret (h : img.Leads code a s (.ret :: rest) t) : img.Exits code a s ⟨none, t⟩ :=
  ⟨_, _, h, rfl⟩

theorem exits_tail (h : img.Leads code a s (.tail f :: rest) t) : img.Exits code a s ⟨some f, t⟩ :=
  ⟨_, _, h, rfl⟩

theorem exits (h : img.Leads code a s b t) (h' : img.Exits code b t e) : img.Exits code a s e := by
  obtain ⟨c, u, hlead, he⟩ := h'
  exact ⟨c, u, h.trans hlead, he⟩

end Leads

end Image

/-! ## Callers and callees -/

/-- **What is owed to the caller**: control goes back to where it came from, on the same stack. -/
def StackBalanced {F : Type} (s : Hart) (e : Exit F) : Prop :=
  e.hart.get .sp = s.get .sp ∧ e.hart.get .ra = s.get .ra

namespace Image

variable {F S L : Type} {img : Image F S}

/-- **What a caller expects** of a routine it calls with `s`: that it comes back to the return address,
with the stack pointer where it was and nothing changed in the `frame` bytes above it. -/
structure Returns (img : Image F S) (frame : Nat) (f : F) (s : Hart) : Prop where
  sp_eq : (img.callee f s).get .sp = s.get .sp
  ra_eq : (img.callee f s).get .ra = s.get .ra
  frame_eq : ∀ x, (Span.mk (s.get .sp) frame).Has x → (img.callee f s).mem x = s.mem x

/-- Every call on the way returns. -/
def CallsReturn [DecidableEq L] (img : Image F S) (frame : Nat) (code a : List (Stmt F S L)) (s : Hart) :
    Prop :=
  ∀ f rest t, img.Leads code a s (.call f :: rest) t →
    img.Returns frame f (t.set .ra (img.point rest.length))

theorem CallsReturn.of_leads [DecidableEq L] {frame : Nat} {code a b : List (Stmt F S L)} {s t : Hart}
    (h : img.CallsReturn frame code a s) (hlead : img.Leads code a s b t) :
    img.CallsReturn frame code b t := fun f rest u hu => h f rest u (hlead.trans hu)

namespace Returns

variable {frame i : Nat} {f : F} {s : Hart} {v : Word}

/-- After a call the stack is the caller's. -/
theorem sp_call (h : img.Returns frame f (s.set .ra v)) :
    (img.callee f (s.set .ra v)).get .sp = s.get .sp :=
  h.sp_eq.trans (Hart.get_set_of_ne (by decide))

/-- The return address is that of the call. -/
theorem ra_call (h : img.Returns frame f (s.set .ra v)) : (img.callee f (s.set .ra v)).get .ra = v :=
  h.ra_eq.trans (Hart.get_set_self (by decide))

/-- A word of the caller's frame is still there. -/
theorem word_call (h : img.Returns frame f (s.set .ra v)) (hi : i + 4 ≤ frame) {p : Word}
    (hsp : s.get .sp = p) : word (img.callee f (s.set .ra v)).mem p i = word s.mem p i := by
  refine load32_congr fun x hx => h.frame_eq x ?_
  rw [Hart.get_set_of_ne (by decide), hsp]
  exact has_of_part (show (part p i 4).Has x from hx) hi

end Returns

/-- One way out decides. -/
theorem Exits.balanced_iff [DecidableEq L] {code a : List (Stmt F S L)} {s : Hart} {e : Exit F}
    (h : img.Exits code a s e) :
    (∀ e, img.Exits code a s e → StackBalanced s e) ↔ StackBalanced s e := by
  constructor
  · exact fun hall => hall e h
  · intro he e' he'
    rwa [← h.unique he']

end Image

end Riscv
