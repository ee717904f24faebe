import RiscyOS.GasToJim.Collapse
import RiscyOS.GasToJim.Execution

/-!
# What collapsing addresses preserves

Between a `lui` and the instruction that adds the lower part, the two programs do not agree: the register
has the upper part of the address in one and all of it in the other.  `Track` follows which registers are
in this state, and `Related` is what the two executions have in common meanwhile.

Every element of a body becomes some elements of the new one (`collapse_cons`), also where the pass takes
an `addi` together with the `lui` in front of it.  One step of the old program is then answered by the
steps for it in the new one, and a whole body by induction.  The steps that cannot be answered are of a few
kinds, and `Node.Collapsible` leaves them out: what the pass does not know about a symbol or a register
it has been told about before, and instructions that use a register while it has only the upper part.
-/

set_option autoImplicit false

namespace RiscyOS.GasToJim

open Memory

variable {anchors : Anchors} {strTable : StrTable} {isa : Isa}

/-! ## Following the upper parts -/

/-- What is known in front of an element of a body. -/
structure Track where
  /-- The symbol whose upper part a register has, written last by a `lui` of it. -/
  pending : Reg → Option Text := fun _ => none
  /-- The register of the last `lui` of a symbol. -/
  last : Text → Option Text := fun _ => none

/-- A register by name does not have an upper part any more. -/
def Track.clear (t : Track) (d : Text) : Track :=
  { t with pending := (regNumber d).elim t.pending fun r => setReg r none t.pending }

/-- What is known behind an element. -/
def Track.step (isa : Isa) (t : Track) : Node → Track
  | .instruction i =>
    match i.form with
    | .lui d s =>
      { pending := (regNumber d).elim t.pending fun r => setReg r (some s) t.pending
        last := Function.update t.last s (some d) }
    | .addiLo d _ _ | .addi d _ _ | .mv d _ | .la d _ => t.clear d
    | .other =>
      { t with pending := fun r =>
          if r ≠ 0 ∧ r ∈ isa.writes i.op (i.operands.map Operand.reg?) then none else t.pending r }
  | _ => t

/-- The symbol whose upper part is all that a register by name has. -/
def Track.upper (t : Track) (r : Option Text) : Option Text := (r.bind regNumber).bind t.pending

/-- **Every `%lo(s)` of the element has a base register written last by a `lui` of `%hi(s)`.** -/
def Node.Paired (t : Track) : Node → Prop
  | .instruction i =>
    match i.form with
    | .addiLo _ r s => t.upper r = some s
    | .other => ∀ o ∈ i.operands, o.kind = .loMem → t.upper o.reg = o.symbol
    | _ => True
  | _ => True

/-- Every `%lo(s)` of a body has a base register written last by a `lui` of `%hi(s)`. -/
def Paired (isa : Isa) : Track → List Node → Prop
  | _, [] => True
  | t, node :: rest => node.Paired t ∧ Paired isa (t.step isa node) rest

instance (t : Track) : ∀ node : Node, Decidable (node.Paired t)
  | .label _ | .directive _ => .isTrue trivial
  | .instruction i =>
    match hform : i.form with
    | .addiLo _ r s => decidable_of_iff (t.upper r = some s) (by simp only [Node.Paired, hform])
    | .other => decidable_of_iff (∀ o ∈ i.operands, o.kind = .loMem → t.upper o.reg = o.symbol)
        (by simp only [Node.Paired, hform])
    | .lui _ _ | .addi _ _ _ | .mv _ _ | .la _ _ => .isTrue (by simp only [Node.Paired, hform])

instance decidablePaired (isa : Isa) : ∀ (t : Track) (body : List Node), Decidable (Paired isa t body)
  | _, [] => .isTrue trivial
  | t, node :: rest =>
    have := decidablePaired isa (t.step isa node) rest
    inferInstanceAs (Decidable (node.Paired t ∧ Paired isa (t.step isa node) rest))

/-! ## What can be collapsed -/

/-- The symbol by which the pass replaces `s`. -/
def replacement (anchors : Anchors) (strTable : StrTable) (s : Text) : Text :=
  if ".LANCHOR".toList <+: s then ((anchors s).map Prod.fst).getD []
  else if ".".toList <+: s then (strTable.lookup (some s)).getD []
  else s

/-- The pass knows what `s` stands for, and can add the offset of an anchor in one instruction. -/
def Known (anchors : Anchors) (strTable : StrTable) (s : Text) : Prop :=
  if ".LANCHOR".toList <+: s then (anchors s).any fun entry => -2048 ≤ entry.2 ∧ entry.2 < 2048
  else if ".".toList <+: s then (strTable.lookup (some s)).any (· ≠ [])
  else True

instance (s : Text) : Decidable (Known anchors strTable s) := by
  rw [Known]
  infer_instance

/-- An `addi` is not taken for the one that belongs to a `lui` of `text`, unless it adds a lower part. -/
def Node.NotLower (text : Text) : Node → Prop
  | .instruction i =>
    i.op = "addi".toList → ∀ o ∈ i.src 2, o.kind ≠ .lo → o.str.any (· ≠ text)
  | _ => True

instance (text : Text) : ∀ node : Node, Decidable (node.NotLower text)
  | .label _ | .directive _ => .isTrue trivial
  | .instruction i => inferInstanceAs (Decidable
      (i.op = "addi".toList → ∀ o ∈ i.src 2, o.kind ≠ .lo → o.str.any (· ≠ text)))

/-- **The element can be collapsed.**  A `lui` is one of `%hi`, for a symbol that is known, and not the last
element; the lower part is added to the register of the last `lui` of its symbol; an `addi` has a register
or a number otherwise; and a register with an upper part only is not read. -/
def Node.Collapsible (anchors : Anchors) (strTable : StrTable) (isa : Isa) (t : Track) (rest : List Node) :
    Node → Prop
  | .instruction i =>
    match i.form with
    | .lui _ s => rest ≠ [] ∧ Known anchors strTable s ∧
        ∀ next ∈ rest.head?, next.NotLower (replacement anchors strTable s)
    | .addiLo _ r s => t.last s = some r
    | .addi _ r _ | .mv _ r => t.upper r = none
    | .la _ _ => True
    | .other => i.op ≠ "lui".toList ∧
        (i.op = "addi".toList → (i.src 2).any fun o => o.kind = .register ∨ o.kind = .immediate) ∧
        (∀ r ∈ isa.reads i.op (i.operands.map Operand.reg?), t.pending r = none) ∧
        ∀ o ∈ i.operands, o.kind = .memory → t.upper o.reg = none
  | _ => True

instance (t : Track) (rest : List Node) : ∀ node : Node, Decidable (node.Collapsible anchors strTable isa t rest)
  | .label _ | .directive _ => .isTrue trivial
  | .instruction i =>
    match hform : i.form with
    | .lui _ s => decidable_of_iff (rest ≠ [] ∧ Known anchors strTable s ∧
        ∀ next ∈ rest.head?, next.NotLower (replacement anchors strTable s))
        (by simp only [Node.Collapsible, hform])
    | .addiLo _ r s => decidable_of_iff (t.last s = some r) (by simp only [Node.Collapsible, hform])
    | .addi _ r _ => decidable_of_iff (t.upper r = none) (by simp only [Node.Collapsible, hform])
    | .mv _ r => decidable_of_iff (t.upper r = none) (by simp only [Node.Collapsible, hform])
    | .la _ _ => .isTrue (by simp only [Node.Collapsible, hform])
    | .other => decidable_of_iff (i.op ≠ "lui".toList ∧
        (i.op = "addi".toList → (i.src 2).any fun o => o.kind = .register ∨ o.kind = .immediate) ∧
        (∀ r ∈ isa.reads i.op (i.operands.map Operand.reg?), t.pending r = none) ∧
        ∀ o ∈ i.operands, o.kind = .memory → t.upper o.reg = none) (by simp only [Node.Collapsible, hform])

/-- A body can be collapsed. -/
def Collapsible (anchors : Anchors) (strTable : StrTable) (isa : Isa) : Track → List Node → Prop
  | _, [] => True
  | t, node :: rest =>
    node.Collapsible anchors strTable isa t rest ∧ Collapsible anchors strTable isa (t.step isa node) rest

instance decidableCollapsible (isa : Isa) :
    ∀ (t : Track) (body : List Node), Decidable (Collapsible anchors strTable isa t body)
  | _, [] => .isTrue trivial
  | t, node :: rest =>
    have := decidableCollapsible isa (t.step isa node) rest
    inferInstanceAs (Decidable
      (node.Collapsible anchors strTable isa t rest ∧ Collapsible anchors strTable isa (t.step isa node) rest))

/-- **The symbols put in by the pass** are where the others were. -/
structure Placed (anchors : Anchors) (strTable : StrTable) (addr : Text → Word) : Prop where
  anchor : ∀ s v n, anchors s = some (v, n) → addr v + BitVec.ofInt 32 n = addr s
  string : ∀ s t, strTable.lookup (some s) = some t → addr t = addr s

/-- **What the two executions have in common.** -/
structure Related (addr : Text → Word) (t : Track) (st st' : Hart) : Prop where
  mem : st'.mem = st.mem
  log : st'.log = st.log
  whole : ∀ r, t.pending r = none → st'.regs r = st.regs r
  upper : ∀ r s, t.pending r = some s → st.regs r = hiPart (addr s) ∧ st'.regs r = addr s

/-- `LA_MAPPED` has the register of the last `lui` of a symbol. -/
def MapsLast (mapped : LaMapped) (t : Track) : Prop :=
  ∀ s d, t.last s = some d → ∃ o : Operand, mapped.lookup (some s) = some o ∧ o.reg = some d

/-! ## Writing registers -/

theorem setReg_apply {α : Type} (r q : Reg) (x : α) (f : Reg → α) :
    setReg r x f q = if r ≠ 0 ∧ q = r then x else f q := by
  rw [setReg]
  split_ifs <;> simp_all

/-- **Writing a register** in both executions, with the same value or with the upper part and the whole
of an address. -/
theorem Related.write {addr : Text → Word} {t : Track} {st st' st₁ : Hart} {d : Text} {x x' : Word}
    {upper : Option Text} {last : Text → Option Text} (h : Related addr t st st')
    (hset : st.set d x = some st₁) (hwhole : upper = none → x' = x)
    (hupper : ∀ s, upper = some s → x = hiPart (addr s) ∧ x' = addr s) :
    ∃ st₂, st'.set d x' = some st₂ ∧
      Related addr ⟨(regNumber d).elim t.pending fun r => setReg r upper t.pending, last⟩ st₁ st₂ := by
  obtain ⟨r, hr, rfl⟩ := Option.map_eq_some_iff.1 hset
  refine ⟨{ st' with regs := setReg r x' st'.regs }, by rw [Hart.set, hr]; rfl, h.mem, h.log,
    fun q hq => ?_, fun q u hq => ?_⟩
  · simp only [hr, Option.elim_some, setReg_apply] at hq ⊢
    by_cases hqr : r ≠ 0 ∧ q = r
    · rw [if_pos hqr] at hq
      rw [if_pos hqr, if_pos hqr, hwhole hq]
    · rw [if_neg hqr] at hq
      rw [if_neg hqr, if_neg hqr, h.whole q hq]
  · simp only [hr, Option.elim_some, setReg_apply] at hq ⊢
    by_cases hqr : r ≠ 0 ∧ q = r
    · rw [if_pos hqr] at hq
      rw [if_pos hqr, if_pos hqr]
      exact hupper u hq
    · rw [if_neg hqr] at hq
      rw [if_neg hqr, if_neg hqr]
      exact h.upper q u hq

/-- A register that gets the same value in both executions. -/
theorem Related.set {addr : Text → Word} {t : Track} {st st' st₁ : Hart} {d : Text} {x : Word}
    (h : Related addr t st st') (hset : st.set d x = some st₁) :
    ∃ st₂, st'.set d x = some st₂ ∧ Related addr (t.clear d) st₁ st₂ :=
  h.write hset (fun _ => rfl) (by simp)

/-- Writing what is there already changes nothing. -/
theorem Hart.set_get {st : Hart} {d : Text} {x : Word} (h : st.get d = some x) : st.set d x = some st := by
  obtain ⟨r, hr, rfl⟩ := Option.map_eq_some_iff.1 h
  have hregs : setReg r (st.regs r) st.regs = st.regs := by
    funext q
    rw [setReg_apply]
    split_ifs with hq
    · rw [hq.2]
    · rfl
  rw [Hart.set, hr, Option.map_some, hregs]

/-! ## Operands -/

section Operands

variable {addr : Text → Word} {t : Track} {st st' : Hart} {o : Operand} {a : Arg}

theorem Related.get {r : Text} {x : Word} (h : Related addr t st st') (hr : t.upper r = none)
    (hget : st.get r = some x) : st'.get r = some x := by
  obtain ⟨q, hq, rfl⟩ := Option.map_eq_some_iff.1 hget
  rw [Track.upper, Option.bind_some, hq, Option.bind_some] at hr
  rw [Hart.get, hq, Option.map_some, h.whole q hr]

theorem Related.get_upper {r s : Text} (h : Related addr t st st') (hr : t.upper r = some s) :
    st.get r = some (hiPart (addr s)) ∧ st'.get r = some (addr s) := by
  obtain ⟨q, hq, hpending⟩ := Option.bind_eq_some_iff.1 hr
  rw [Option.bind_some] at hq
  obtain ⟨hst, hst'⟩ := h.upper q s hpending
  rw [Hart.get, Hart.get, hq, Option.map_some, Option.map_some, hst, hst']
  exact ⟨rfl, rfl⟩

/-- **An operand means the same to both instructions.** -/
theorem Related.arg (h : Related addr t st st')
    (hmem : o.kind = .memory → t.upper o.reg = none) (hlo : o.kind = .loMem → t.upper o.reg = o.symbol)
    (ha : o.arg .gas addr st.regs = some a) : o.arg .jim addr st'.regs = some a := by
  obtain ⟨kind, raw, reg, imm, symbol⟩ := o
  cases kind with
  | register | immediate | symbol => exact ha
  | hi | lo | resolvedMem => contradiction
  | memory =>
    obtain ⟨q, hq, rfl⟩ := Option.map_eq_some_iff.1 ha
    have hpending := hmem rfl
    rw [Track.upper, hq, Option.bind_some] at hpending
    simp only [Operand.arg, hq, Option.map_some, h.whole q hpending]
  | loMem =>
    obtain ⟨q, hq, ha⟩ := Option.bind_eq_some_iff.1 ha
    obtain ⟨s, hs, ha⟩ := Option.bind_eq_some_iff.1 ha
    obtain rfl := Option.some.inj ha
    have hpending := hlo rfl
    rw [Track.upper, hq, Option.bind_some] at hpending
    obtain ⟨hst, hst'⟩ := h.upper q s (hpending.trans hs)
    simp only [Operand.arg, hq, show symbol = some s from hs, hst, hst', Option.bind_eq_bind, Option.bind_some,
      hiPart_add_loPart]
    rfl

theorem reg?_of_arg {d : Dialect} {regs : Reg → Word} (ha : o.arg d addr regs = some a) : a.reg? = o.reg? := by
  obtain ⟨kind, raw, reg, imm, symbol⟩ := o
  cases kind with
  | register =>
    obtain ⟨q, hq, rfl⟩ := Option.map_eq_some_iff.1 ha
    exact hq.symm
  | immediate | memory | symbol =>
    obtain ⟨n, -, rfl⟩ := Option.map_eq_some_iff.1 ha
    rfl
  | hi | lo =>
    cases d with
    | gas => contradiction
    | jim =>
      obtain ⟨s, -, rfl⟩ := Option.map_eq_some_iff.1 ha
      rfl
  | loMem =>
    obtain ⟨q, -, ha⟩ := Option.bind_eq_some_iff.1 ha
    obtain ⟨s, -, ha⟩ := Option.bind_eq_some_iff.1 ha
    cases d <;> (obtain rfl := Option.some.inj ha; rfl)
  | resolvedMem => contradiction

/-- The operands of an instruction. -/
theorem Related.args {os : List Operand} {as : List Arg} (h : Related addr t st st')
    (hmem : ∀ o ∈ os, o.kind = .memory → t.upper o.reg = none)
    (hlo : ∀ o ∈ os, o.kind = .loMem → t.upper o.reg = o.symbol)
    (has : os.mapM (Operand.arg .gas addr st.regs) = some as) :
    os.mapM (Operand.arg .jim addr st'.regs) = some as ∧ as.map Arg.reg? = os.map Operand.reg? := by
  induction os generalizing as with
  | nil =>
    obtain rfl := Option.some.inj has
    exact ⟨rfl, rfl⟩
  | cons o os ih =>
    simp only [List.mapM_cons, Option.bind_eq_bind, Option.bind_eq_some_iff] at has
    obtain ⟨a, ha, bs, hbs, has⟩ := has
    obtain rfl := Option.some.inj has
    obtain ⟨ihmap, ihreg⟩ := ih (fun o ho => hmem o (List.mem_cons_of_mem _ ho))
      (fun o ho => hlo o (List.mem_cons_of_mem _ ho)) hbs
    have ho := h.arg (hmem o List.mem_cons_self) (hlo o List.mem_cons_self) ha
    refine ⟨by simp [List.mapM_cons, ho, ihmap], ?_⟩
    rw [List.map_cons, List.map_cons, ihreg, reg?_of_arg ha]

end Operands

/-! ## One instruction -/

section Instructions

variable {addr : Text → Word} {t : Track} {st st' st₁ : Hart} {i : Instruction} {rest : List Node}

/-- An instruction that does not read an upper part. -/
theorem Related.perform (h : Related addr t st st') (op : Text) (args : List Arg)
    (hreads : ∀ r ∈ isa.reads op (args.map Arg.reg?), t.pending r = none) :
    Related addr { t with pending := fun r =>
      if r ≠ 0 ∧ r ∈ isa.writes op (args.map Arg.reg?) then none else t.pending r }
      (st.perform isa op args) (st'.perform isa op args) := by
  have hrun : isa.run op args st'.regs st'.mem = isa.run op args st.regs st.mem := by
    rw [h.mem]
    exact isa.congr _ _ _ _ _ fun r hr => h.whole r (hreads r hr)
  refine ⟨?_, ?_, fun r hr => ?_, fun r s hr => ?_⟩
  · rw [Hart.perform, Hart.perform, hrun]
  · rw [Hart.perform, Hart.perform, hrun, h.log]
  · simp only [Hart.perform, hrun] at hr ⊢
    split_ifs at hr ⊢ with hwritten
    · rfl
    · exact h.whole r hr
  · simp only [Hart.perform] at hr ⊢
    split_ifs at hr ⊢ with hwritten
    exact h.upper r s hr

/-- **An instruction that stays** does the same in both executions. -/
theorem Related.exec (h : Related addr t st st') (hpaired : (Node.instruction i).Paired t)
    (hcollapsible : (Node.instruction i).Collapsible anchors strTable isa t rest)
    (hlui : ∀ d s, i.form ≠ .lui d s) (hlo : ∀ d r s, i.form ≠ .addiLo d r s)
    (hexec : GasToJim.exec isa .gas addr i st = some st₁) :
    ∃ st₂, GasToJim.exec isa .jim addr i st' = some st₂ ∧
      Related addr (t.step isa (.instruction i)) st₁ st₂ := by
  rw [Node.Collapsible] at hcollapsible
  rw [Node.Paired] at hpaired
  rw [GasToJim.exec] at hexec ⊢
  rw [Track.step]
  cases hform : i.form with
  | lui d s => exact absurd hform (hlui d s)
  | addiLo d r s => exact absurd hform (hlo d r s)
  | addi d r n =>
    simp only [hform] at hcollapsible hexec ⊢
    obtain ⟨x, hx, hset⟩ := Option.bind_eq_some_iff.1 hexec
    have hrange : -2048 ≤ n ∧ n < 2048 := by
      by_contra hout
      rw [if_neg hout] at hset
      contradiction
    rw [if_pos hrange] at hset
    obtain ⟨st₂, hst₂, hrelated⟩ := h.set hset
    refine ⟨st₂, ?_, hrelated⟩
    rw [h.get hcollapsible hx, Option.bind_eq_bind, Option.bind_some, if_pos hrange, hst₂]
  | mv d r =>
    simp only [hform] at hcollapsible hexec ⊢
    obtain ⟨x, hx, hset⟩ := Option.bind_eq_some_iff.1 hexec
    obtain ⟨st₂, hst₂, hrelated⟩ := h.set hset
    refine ⟨st₂, ?_, hrelated⟩
    rw [h.get hcollapsible hx, Option.bind_eq_bind, Option.bind_some, hst₂]
  | la d s =>
    simp only [hform] at hexec ⊢
    exact h.set hexec
  | other =>
    simp only [hform] at hcollapsible hpaired hexec ⊢
    obtain ⟨args, hargs, rfl⟩ := Option.map_eq_some_iff.1 hexec
    obtain ⟨hargs', hshape⟩ := h.args hcollapsible.2.2.2 hpaired hargs
    refine ⟨st'.perform isa i.op args, by rw [hargs', Option.map_some], ?_⟩
    have hperform := h.perform i.op args fun r hr => hcollapsible.2.2.1 r (hshape ▸ hr)
    rwa [hshape] at hperform

end Instructions

/-! ## What the pass makes of an element -/

section Pass

variable {i : Instruction} {node next : Node} {rest : List Node} {mapped : LaMapped} {t : Track}

/-- What an instruction of a form looks like. -/
def Instruction.Is (i : Instruction) : Form → Prop
  | .lui d s => i.op = "lui".toList ∧
      ∃ x y, i.operands = [x, y] ∧ x.reg = some d ∧ y.kind = .hi ∧ y.symbol = some s
  | .addiLo d r s => i.op = "addi".toList ∧
      ∃ x y z, i.operands = [x, y, z] ∧ x.reg = some d ∧ y.reg = some r ∧ z.kind = .lo ∧ z.symbol = some s
  | .addi _ _ _ => i.op = "addi".toList ∧ ∃ z, i.src 2 = some z ∧ z.kind = .immediate
  | .mv _ _ => i.op = "mv".toList
  | .la _ _ => i.op = "la".toList
  | .other => True

theorem Instruction.is_form (i : Instruction) : i.Is i.form := by
  rw [Instruction.form]
  split
  case h_6 => trivial
  all_goals
    rename_i hops
    split
    · rename_i hop
      first
        | exact hop
        | exact ⟨hop, _, _, hops, rfl, rfl, rfl⟩
        | exact ⟨hop, _, _, _, hops, rfl, rfl, rfl, rfl⟩
        | exact ⟨hop, _, by rw [Instruction.src, hops]; rfl, rfl⟩
    · trivial

theorem form_lui {d s : Text} (h : i.form = .lui d s) :
    i.op = "lui".toList ∧ ∃ x y, i.operands = [x, y] ∧ x.reg = some d ∧ y.kind = .hi ∧ y.symbol = some s := by
  have his := i.is_form
  rwa [h] at his

theorem form_addiLo {d r s : Text} (h : i.form = .addiLo d r s) :
    i.op = "addi".toList ∧
      ∃ x y z, i.operands = [x, y, z] ∧ x.reg = some d ∧ y.reg = some r ∧ z.kind = .lo ∧ z.symbol = some s := by
  have his := i.is_form
  rwa [h] at his

theorem form_addi {d r : Text} {n : Int} (h : i.form = .addi d r n) :
    i.op = "addi".toList ∧ ∃ z, i.src 2 = some z ∧ z.kind = .immediate := by
  have his := i.is_form
  rwa [h] at his

theorem form_mv {d r : Text} (h : i.form = .mv d r) : i.op = "mv".toList := by
  have his := i.is_form
  rwa [h] at his

theorem form_la {d s : Text} (h : i.form = .la d s) : i.op = "la".toList := by
  have his := i.is_form
  rwa [h] at his

/-- An element that is not a `lui` is dealt with by itself. -/
theorem collapse_cons_of_ne (hnode : ∀ i, node = .instruction i → i.op ≠ "lui".toList) {out : List Node}
    (hout : collapseNode mapped node = some out) :
    collapse anchors strTable mapped (node :: rest) = (collapse anchors strTable mapped rest).map (out ++ ·) := by
  cases rest with
  | nil =>
    rw [show collapse anchors strTable mapped [] = some [] from rfl, Option.map_some, List.append_nil, ← hout]
    rfl
  | cons next rest =>
    cases node with
    | instruction i =>
      rw [collapse, if_neg (hnode i rfl), hout]
      exact Option.map_eq_bind.symm
    | label | directive =>
      rw [collapse, hout]
      · exact Option.map_eq_bind.symm
      · simp

/-- **The operand of a `lui`** that is known. -/
theorem upperOf_known {hi : Operand} {s : Text} (hknown : Known anchors strTable s) (hkind : hi.kind = .hi)
    (hsymbol : hi.symbol = some s) :
    ∃ n, upperOf anchors strTable hi = some ⟨true, some (replacement anchors strTable s), n⟩ ∧
      -2048 ≤ n ∧ n < 2048 ∧
      ∀ addr, Placed anchors strTable addr →
        addr (replacement anchors strTable s) + BitVec.ofInt 32 n = addr s := by
  have hstr : hi.str = some s := by rw [Operand.str, hkind, formatted, hsymbol]; rfl
  rw [Known] at hknown
  rw [upperOf, hstr, replacement]
  by_cases hanchor : ".LANCHOR".toList <+: s
  · rw [if_pos hanchor] at hknown
    obtain ⟨⟨v, n⟩, hv, hrange⟩ := (Option.any_eq_true _ _).1 hknown
    obtain ⟨hlow, hhigh⟩ := of_decide_eq_true hrange
    refine ⟨n, ?_, hlow, hhigh, fun addr h => ?_⟩
    · simp only [Option.bind_eq_bind, Option.bind_some, if_pos hanchor, hsymbol, hv]
      rfl
    · rw [if_pos hanchor, hv]
      exact h.anchor s v n hv
  · rw [if_neg hanchor] at hknown
    refine ⟨0, ?_, by decide, by decide, fun addr h => ?_⟩
    all_goals by_cases hdot : ".".toList <+: s
    · rw [if_pos hdot] at hknown
      obtain ⟨u, hu, hne⟩ := (Option.any_eq_true _ _).1 hknown
      obtain ⟨c, cs, rfl⟩ := List.exists_cons_of_ne_nil (of_decide_eq_true hne)
      simp only [Option.bind_eq_bind, Option.bind_some, if_neg hanchor, if_pos hdot, hsymbol, hu]
      rfl
    · simp only [Option.bind_eq_bind, Option.bind_some, if_neg hanchor, if_neg hdot, hsymbol]
      rfl
    · rw [if_pos hdot] at hknown
      obtain ⟨u, hu, -⟩ := (Option.any_eq_true _ _).1 hknown
      rw [if_neg hanchor, if_pos hdot, hu, Option.getD_some, h.string s u hu]
      exact BitVec.add_zero _
    · rw [if_neg hanchor, if_neg hdot]
      exact BitVec.add_zero _

/-- The lower part of a `lui` that is remembered is left out, and otherwise moved. -/
theorem collapseAddi_lower {d r s : Text} (hform : i.form = .addiLo d r s) {o : Operand}
    (hlookup : mapped.lookup (some s) = some o) (hreg : o.reg = some r) :
    collapseNode mapped (.instruction i) = some
      (if r = d then []
       else [.instruction ⟨"mv".toList, [registerOperand (some d), registerOperand (some r)]⟩]) := by
  obtain ⟨hop, x, y, z, hops, hx, hy, hz, hsymbol⟩ := form_addiLo hform
  have hdest : i.dest = some x := by rw [Instruction.dest, hops]; rfl
  have hsrc : i.src 1 = some y := by rw [Instruction.src, hops]; rfl
  have hthird : i.src 2 = some z := by rw [Instruction.src, hops]; rfl
  rw [collapseNode, if_pos hop, collapseAddi, hthird]
  simp only [Option.bind_eq_bind, Option.bind_some, hz, reduceCtorEq, or_self, if_false, hsymbol, hlookup,
    hdest, hsrc, hreg, hx, hy, Option.some.injEq, and_true]
  split_ifs with hrd
  · rfl
  · rfl

/-- **The `addi` right behind a `lui`** would be left out anyway. -/
theorem collapse_lower {d : Text} {d1 hi : Operand} (hd : d1.reg = some d)
    (hmapped : MapsLast mapped t) (hnext : next.Collapsible anchors strTable isa t rest)
    {text : Text} (hstr : hi.str = some text) (hother : next.NotLower text) :
    ∃ b, isLowerOf next d1 hi = some b ∧ (b = true → collapseNode mapped next = some [] ∧
      ∀ j, next = .instruction j → j.op ≠ "lui".toList) := by
  cases next with
  | label | directive => exact ⟨false, rfl, by simp⟩
  | instruction j =>
    rw [isLowerOf]
    by_cases hj : j.op = "addi".toList ∧ j.dest = some d1 ∧ j.src 1 = some d1
    · rw [if_pos hj]
      obtain ⟨hop, hdest, hsrc⟩ := hj
      have hne : j.op ≠ "lui".toList := by simp [hop]
      -- what has no lower part is not printed as the symbol
      have hkeep {o : Operand} (ho : j.src 2 = some o) (hkind : o.kind ≠ .lo) :
          ((j.src 2).elim (some "None".toList) Operand.str).bind
            (fun u => hi.str.bind fun v => some (decide (u = v))) = some false := by
        obtain ⟨u, hu, hdiffers⟩ := (Option.any_eq_true _ _).1 (hother hop o ho hkind)
        rw [ho, Option.elim_some, hu, hstr, Option.bind_some, Option.bind_some]
        exact congrArg some (decide_eq_false (of_decide_eq_true hdiffers))
      rw [Node.Collapsible] at hnext
      cases hform : j.form with
      | lui => exact absurd (form_lui hform).1 hne
      | mv => simp [form_mv hform] at hop
      | la => simp [form_la hform] at hop
      | addi =>
        obtain ⟨-, o, ho, hkind⟩ := form_addi hform
        exact ⟨false, hkeep ho (by simp [hkind]), by simp⟩
      | other =>
        simp only [hform] at hnext
        obtain ⟨o, ho, hkind⟩ := (Option.any_eq_true _ _).1 (hnext.2.1 hop)
        refine ⟨false, hkeep ho ?_, by simp⟩
        rcases of_decide_eq_true hkind with hkind | hkind <;> simp [hkind]
      | addiLo d' r s =>
        simp only [hform] at hnext
        obtain ⟨-, x, y, z, hops, hx, hy, hz, hsymbol⟩ := form_addiLo hform
        have hxd : x = d1 := by simpa [Instruction.dest, hops] using hdest
        have hyd : y = d1 := by simpa [Instruction.src, hops] using hsrc
        obtain rfl : d' = d := Option.some.inj (hx.symm.trans (hxd ▸ hd))
        obtain rfl : r = d' := Option.some.inj (hy.symm.trans (hyd ▸ hd))
        obtain ⟨o, hlookup, hreg⟩ := hmapped s r hnext
        have hout := collapseAddi_lower hform hlookup hreg
        rw [if_pos rfl] at hout
        have hthird : j.src 2 = some z := by rw [Instruction.src, hops]; rfl
        have hzstr : z.str = some s := by rw [Operand.str, hz, formatted, hsymbol]; rfl
        refine ⟨decide (s = text), ?_, fun _ => ⟨hout, fun k hk => Node.instruction.inj hk ▸ hne⟩⟩
        rw [hthird, Option.elim_some, hzstr, hstr]
        rfl
    · rw [if_neg hj]
      exact ⟨false, rfl, by simp⟩

theorem lookup_dictSet {κ ν : Type} [DecidableEq κ] [BEq κ] [LawfulBEq κ] (k k' : κ) (v : ν) (d : List (κ × ν)) :
    (dictSet k v d).lookup k' = if k' = k then some v else d.lookup k' := by
  have hbeq (x y : κ) : (x == y) = decide (x = y) := by
    by_cases h : x = y <;> simp [h]
  induction d with
  | nil => by_cases h : k' = k <;> simp [dictSet, List.lookup_cons, hbeq, h]
  | cons e d ih =>
    obtain ⟨a, b⟩ := e
    rw [dictSet]
    by_cases he : a = k <;> by_cases h : k' = k
    · simp [he, h]
    · simp [List.lookup_cons, hbeq, he, h]
    · subst h
      simp [List.lookup_cons, hbeq, he, ih, Ne.symm he]
    · simp [List.lookup_cons, he, h, ih]

theorem mem_dictSet {κ ν : Type} [DecidableEq κ] {k : κ} {v : ν} {d : List (κ × ν)} {e : κ × ν}
    (h : e ∈ dictSet k v d) : e ∈ d ∨ e.2 = v := by
  induction d with
  | nil =>
    obtain rfl := List.mem_singleton.1 h
    exact Or.inr rfl
  | cons f d ih =>
    rw [dictSet] at h
    split at h
    · rcases List.mem_cons.1 h with rfl | h
      · exact Or.inr rfl
      · exact Or.inl (List.mem_cons_of_mem _ h)
    · rcases List.mem_cons.1 h with rfl | h
      · exact Or.inl List.mem_cons_self
      · exact (ih h).imp_left (List.mem_cons_of_mem _)

/-- **The address is loaded**, with the offset of an anchor. -/
theorem exec_loadAddress {addr : Text → Word} {d1 : Operand} {d s : Text} {n : Int} {a : Word}
    (hd : d1.reg = some d) (hlow : -2048 ≤ n) (hhigh : n < 2048) (ha : addr s + BitVec.ofInt 32 n = a)
    (st : Hart) : execBody isa .jim addr (loadAddress d1 ⟨true, some s, n⟩) st = st.set d a := by
  cases hr : regNumber d with
  | none => simp [loadAddress, execBody, exec, Instruction.form, registerOperand, hd, Hart.set, hr]
  | some r =>
    have hla : execBody isa .jim addr (loadAddress d1 ⟨true, some s, n⟩) st =
        execBody isa .jim addr (if n ≠ 0 then [.instruction ⟨"addi".toList, [registerOperand d1.reg,
          registerOperand d1.reg, { kind := .immediate, raw := [], imm := n }]⟩] else [])
          { st with regs := setReg r (addr s) st.regs } := by
      rw [loadAddress, execBody]
      simp [exec, Instruction.form, registerOperand, hd, Hart.set, hr]
    rw [hla, Hart.set, hr, Option.map_some, ← ha]
    by_cases hn : n = 0
    · subst hn
      simp [execBody]
    · rw [if_pos hn, execBody]
      have hset : setReg r (setReg r (addr s) st.regs r + BitVec.ofInt 32 n) (setReg r (addr s) st.regs) =
          setReg r (addr s + BitVec.ofInt 32 n) st.regs := by
        funext q
        simp only [setReg_apply]
        by_cases h : r ≠ 0 ∧ q = r
        · rw [if_pos h, if_pos h, if_pos (And.intro h.1 trivial)]
        · rw [if_neg h, if_neg h, if_neg h]
      simp [exec, Instruction.form, registerOperand, hd, Hart.set, Hart.get, hr, hlow, hhigh, hset, execBody]

/-- What the pass makes of the element in front, as far as its execution goes. -/
structure Answers (anchors : Anchors) (strTable : StrTable) (isa : Isa) (t : Track) (node : Node)
    (out : List Node) : Prop where
  answers : ∀ addr, Placed anchors strTable addr → ∀ st st' st₁, Related addr t st st' →
    execBody isa .gas addr [node] st = some st₁ →
      ∃ st₂, execBody isa .jim addr out st' = some st₂ ∧ Related addr (t.step isa node) st₁ st₂

theorem execBody_singleton (d : Dialect) (addr : Text → Word) (i : Instruction) (st : Hart) :
    execBody isa d addr [.instruction i] st = exec isa d addr i st := by
  rw [execBody]
  exact Option.bind_fun_some _

/-- **A `lui`** becomes the load of the address. -/
theorem collapse_lui {d s : Text} (hform : i.form = .lui d s) (hmapped : MapsLast mapped t)
    (hcollapsible : Collapsible anchors strTable isa t (.instruction i :: rest)) :
    ∃ out mapped', MapsLast mapped' (t.step isa (.instruction i)) ∧
      collapse anchors strTable mapped (.instruction i :: rest) =
        (collapse anchors strTable mapped' rest).map (out ++ ·) ∧
      Answers anchors strTable isa t (.instruction i) out := by
  obtain ⟨hnode, hrest⟩ := hcollapsible
  rw [Node.Collapsible] at hnode
  simp only [hform] at hnode
  obtain ⟨hne, hknown, hother⟩ := hnode
  obtain ⟨next, rest, rfl⟩ := List.exists_cons_of_ne_nil hne
  obtain ⟨hop, x, y, hops, hx, hy, hsymbol⟩ := form_lui hform
  obtain ⟨n, hupper, hlow, hhigh, haddr⟩ := upperOf_known hknown hy hsymbol
  have hdest : i.dest = some x := by rw [Instruction.dest, hops]; rfl
  have hsrc : i.src 1 = some y := by rw [Instruction.src, hops]; rfl
  have hstep : t.step isa (.instruction i) =
      ⟨(regNumber d).elim t.pending fun r => setReg r (some s) t.pending,
        Function.update t.last s (some d)⟩ := by
    rw [Track.step]
    simp only [hform]
  have hmapped' : MapsLast (dictSet (some s) x mapped) (t.step isa (.instruction i)) := by
    intro u e hu
    replace hu : Function.update t.last s (some d) u = some e := by rwa [hstep] at hu
    rw [lookup_dictSet]
    by_cases hus : u = s
    · subst hus
      rw [Function.update_self] at hu
      exact ⟨x, if_pos rfl, hx.trans hu⟩
    · rw [Function.update_of_ne hus] at hu
      rw [if_neg (by simpa using hus)]
      exact hmapped u e hu
  have hstr : Operand.str { y with symbol := some (replacement anchors strTable s) } =
      some (replacement anchors strTable s) := by
    simp [Operand.str, hy, formatted]
  obtain ⟨b, hb, hskip⟩ := collapse_lower hx hmapped' hrest.1 hstr (hother next rfl)
  refine ⟨loadAddress x ⟨true, some (replacement anchors strTable s), n⟩, dictSet (some s) x mapped, hmapped', ?_,
    ⟨fun addr hplaced st st' st₁ h hexec => ?_⟩⟩
  · rw [collapse, if_pos hop, hdest, hsrc]
    simp only [Option.bind_eq_bind, Option.bind_some, hupper, if_true, hsymbol, hb]
    cases b with
    | false => exact Option.map_eq_bind.symm
    | true =>
      obtain ⟨hnext, hnot⟩ := hskip rfl
      rw [collapse_cons_of_ne hnot hnext]
      simp [Option.map_eq_bind]
  · rw [execBody_singleton, exec] at hexec
    simp only [hform] at hexec
    rw [exec_loadAddress hx hlow hhigh (haddr addr hplaced), hstep]
    exact h.write hexec (by simp) (by simp)

/-- **An element that is not a `lui`** stays, or is left out or moved if it adds a lower part. -/
theorem collapse_other (hnode : ∀ i d s, node = .instruction i → i.form ≠ .lui d s) (hmapped : MapsLast mapped t)
    (hpaired : node.Paired t) (hcollapsible : node.Collapsible anchors strTable isa t rest) :
    ∃ out, MapsLast mapped (t.step isa node) ∧
      collapse anchors strTable mapped (node :: rest) = (collapse anchors strTable mapped rest).map (out ++ ·) ∧
      Answers anchors strTable isa t node out := by
  cases node with
  | label l =>
    exact ⟨[.label l], hmapped, collapse_cons_of_ne (by simp) rfl,
      ⟨fun addr _ st st' st₁ h hexec => ⟨st', rfl, Option.some.inj hexec ▸ h⟩⟩⟩
  | directive l =>
    exact ⟨[.directive l], hmapped, collapse_cons_of_ne (by simp) rfl,
      ⟨fun addr _ st st' st₁ h hexec => ⟨st', rfl, Option.some.inj hexec ▸ h⟩⟩⟩
  | instruction i =>
    have hlast : (t.step isa (.instruction i)).last = t.last := by
      rw [Track.step]
      cases hform : i.form with
      | lui d s => exact absurd hform (hnode i d s rfl)
      | _ => rfl
    have hmapped' : MapsLast mapped (t.step isa (.instruction i)) := by
      rw [MapsLast, hlast]
      exact hmapped
    by_cases hlower : ∃ d r s, i.form = .addiLo d r s
    · obtain ⟨d, r, s, hform⟩ := hlower
      have hop := (form_addiLo hform).1
      rw [Node.Paired] at hpaired
      rw [Node.Collapsible] at hcollapsible
      simp only [hform] at hpaired hcollapsible
      obtain ⟨o, hlookup, hreg⟩ := hmapped s r hcollapsible
      refine ⟨_, hmapped', collapse_cons_of_ne ?_ (collapseAddi_lower hform hlookup hreg),
        ⟨fun addr _ st st' st₁ h hexec => ?_⟩⟩
      · rintro j hj
        obtain rfl := Node.instruction.inj hj
        simp [hop]
      · -- the register has all of the address already
        obtain ⟨hst, hst'⟩ := h.get_upper hpaired
        rw [execBody_singleton, exec] at hexec
        simp only [hform, hst, Option.bind_eq_bind, Option.bind_some, hiPart_add_loPart] at hexec
        have hstep : t.step isa (.instruction i) = t.clear d := by
          rw [Track.step]
          simp only [hform]
        rw [hstep]
        obtain ⟨st₂, hst₂, hrelated⟩ := h.set hexec
        refine ⟨st₂, ?_, hrelated⟩
        by_cases hrd : r = d
        · rw [if_pos hrd, execBody, ← hst₂, ← hrd, Hart.set_get hst']
        · rw [if_neg hrd, execBody_singleton]
          simp [exec, Instruction.form, registerOperand, hst', hst₂]
    · -- the instruction stays
      have hstays : i.op ≠ "lui".toList ∧ collapseNode mapped (.instruction i) = some [.instruction i] := by
        have hthird {o : Operand} (ho : i.src 2 = some o) (hkind : o.kind = .register ∨ o.kind = .immediate) :
            collapseNode mapped (.instruction i) = some [.instruction i] := by
          rw [collapseNode, collapseAddi, ho]
          split_ifs
          · simp [hkind]
          · rfl
        rw [Node.Collapsible] at hcollapsible
        cases hform : i.form with
        | lui d s => exact absurd hform (hnode i d s rfl)
        | addiLo d r s => exact absurd ⟨d, r, s, hform⟩ hlower
        | addi d r n =>
          obtain ⟨hop, o, ho, hkind⟩ := form_addi hform
          exact ⟨by simp [hop], hthird ho (.inr hkind)⟩
        | mv d r => simp [collapseNode, form_mv hform]
        | la d s => simp [collapseNode, form_la hform]
        | other =>
          simp only [hform] at hcollapsible
          refine ⟨hcollapsible.1, ?_⟩
          by_cases hop : i.op = "addi".toList
          · obtain ⟨o, ho, hkind⟩ := (Option.any_eq_true _ _).1 (hcollapsible.2.1 hop)
            exact hthird ho (of_decide_eq_true hkind)
          · rw [collapseNode, if_neg hop]
      refine ⟨[.instruction i], hmapped', collapse_cons_of_ne ?_ hstays.2, ⟨fun addr _ st st' st₁ h hexec => ?_⟩⟩
      · rintro j hj
        exact Node.instruction.inj hj ▸ hstays.1
      · rw [execBody_singleton] at hexec ⊢
        exact h.exec hpaired hcollapsible (fun d s => hnode i d s rfl)
          (fun d r s hform => hlower ⟨d, r, s, hform⟩) hexec

end Pass

/-! ## A whole body -/

/-- **Collapsing addresses preserves what a body does**, from any element on. -/
theorem collapse_body {body : List Node} {mapped : LaMapped} {t : Track} (hmapped : MapsLast mapped t)
    (hpaired : Paired isa t body) (hcollapsible : Collapsible anchors strTable isa t body) :
    ∃ out, collapse anchors strTable mapped body = some out ∧
      ∀ addr, Placed anchors strTable addr → ∀ st st' st₁, Related addr t st st' →
        execBody isa .gas addr body st = some st₁ →
          ∃ st₂, execBody isa .jim addr out st' = some st₂ ∧
            Related addr (body.foldl (Track.step isa) t) st₁ st₂ := by
  induction body generalizing mapped t with
  | nil => exact ⟨[], rfl, fun addr _ st st' st₁ h hexec => ⟨st', rfl, Option.some.inj hexec ▸ h⟩⟩
  | cons node rest ih =>
    have hnode : ∃ out mapped', MapsLast mapped' (t.step isa node) ∧
        collapse anchors strTable mapped (node :: rest) =
          (collapse anchors strTable mapped' rest).map (out ++ ·) ∧
        Answers anchors strTable isa t node out := by
      by_cases hlui : ∃ i d s, node = .instruction i ∧ i.form = .lui d s
      · obtain ⟨i, d, s, rfl, hform⟩ := hlui
        exact collapse_lui hform hmapped hcollapsible
      · obtain ⟨out, h⟩ := collapse_other (fun i d s hi hform => hlui ⟨i, d, s, hi, hform⟩) hmapped
          hpaired.1 hcollapsible.1
        exact ⟨out, mapped, h⟩
    obtain ⟨out, mapped', hmapped', hout, hanswers⟩ := hnode
    obtain ⟨outs, houts, hrest⟩ := ih hmapped' hpaired.2 hcollapsible.2
    refine ⟨out ++ outs, by rw [hout, houts, Option.map_some], fun addr hplaced st st' st₁ h hexec => ?_⟩
    rw [← List.singleton_append, execBody_append] at hexec
    obtain ⟨s₁, hs₁, hexec⟩ := Option.bind_eq_some_iff.1 hexec
    obtain ⟨s₂, hs₂, hrelated⟩ := hanswers.answers addr hplaced st st' s₁ h hs₁
    obtain ⟨st₂, hst₂, hfinal⟩ := hrest addr hplaced s₁ s₂ st₁ hrelated hexec
    exact ⟨st₂, by rw [execBody_append, hs₂, Option.bind_some, hst₂], hfinal⟩

/-- The value a register has once the lower part has been added, where it has only the upper one. -/
def completed (addr : Text → Word) (t : Track) (st : Hart) (r : Reg) : Word :=
  (t.pending r).elim (st.regs r) fun s => st.regs r + loPart (addr s)

/-- **Meaning is preserved**: the pass goes through, and for all addresses of the symbols the new body
accesses the same memory and leaves in every register what the old one leaves after the lower part has
been added. -/
def PreservesMeaning (anchors : Anchors) (strTable : StrTable) (isa : Isa) (body : List Node) : Prop :=
  ∃ out, collapse anchors strTable [] body = some out ∧
    ∀ addr, Placed anchors strTable addr → ∀ st st₁, execBody isa .gas addr body st = some st₁ →
      ∃ st₂, execBody isa .jim addr out st = some st₂ ∧ st₂.log = st₁.log ∧ st₂.mem = st₁.mem ∧
        ∀ r, st₂.regs r = completed addr (body.foldl (Track.step isa) {}) st₁ r

/-- **Collapsing addresses preserves meaning** for the bodies that can be collapsed. -/
theorem collapse_preserves {body : List Node} (hpaired : Paired isa {} body)
    (hcollapsible : Collapsible anchors strTable isa {} body) :
    PreservesMeaning anchors strTable isa body := by
  have hempty : MapsLast [] {} := by
    rintro s d hd
    contradiction
  obtain ⟨out, hout, hbody⟩ := collapse_body hempty hpaired hcollapsible
  refine ⟨out, hout, fun addr hplaced st st₁ hexec => ?_⟩
  have hrelated : Related addr {} st st := ⟨rfl, rfl, fun _ _ => rfl, fun _ _ h => by contradiction⟩
  obtain ⟨st₂, hst₂, hfinal⟩ := hbody addr hplaced st st st₁ hrelated hexec
  refine ⟨st₂, hst₂, hfinal.log, hfinal.mem, fun r => ?_⟩
  rw [completed]
  cases hr : (body.foldl (Track.step isa) {}).pending r with
  | none => exact hfinal.whole r hr
  | some s =>
    obtain ⟨hold, hnew⟩ := hfinal.upper r s hr
    rw [Option.elim_some, hnew, hold, hiPart_add_loPart]

/-! ## Two bodies -/

/-- Loads of a word, as far as the first register is written and the address accessed. -/
def loadIsa : Isa where
  reads _ _ := []
  writes op rs := if op = "lw".toList then rs.head?.join.toList else []
  run op args _ mem :=
    match args with
    | [.reg _, .mem a] => if op = "lw".toList then (fun _ => load32 mem a, mem, [a]) else (fun _ => 0, mem, [])
    | _ => (fun _ => 0, mem, [])
  congr _ _ _ _ _ _ := rfl

/-- A variable is read through the upper part, and its address is taken. -/
def readSource : Text := "\t.text\nf:\n\tlui a5,%hi(v)\n\tlw a0,%lo(v)(a5)\n\taddi a1,a5,%lo(v)\n".toList

/-- A second register gets the upper part before the first one is completed. -/
def twiceSource : Text := "\t.text\nf:\n\tlui a4,%hi(v)\n\tlui a5,%hi(v)\n\taddi a4,a4,%lo(v)\n".toList

/-- The body of the first function of a source. -/
def bodyOf (source : Text) : List Node :=
  ((parse source).bind fun m => m.functions.head?).elim [] AsmFunction.body

/-- The body that reads a variable keeps its meaning. -/
theorem collapse_preserves_read : PreservesMeaning (fun _ => none) [] loadIsa (bodyOf readSource) :=
  collapse_preserves (by decide +kernel) (by decide +kernel)

/-- A register after a run from cleared registers and memory, every symbol being at `a`. -/
def registerAfter (d : Dialect) (a : Word) (body : List Node) (r : Reg) : Option Word :=
  (execBody loadIsa d (fun _ => a) body ⟨fun _ => 0, fun _ => 0, []⟩).map fun st => st.regs r

/-- **The lower part is added to the whole address** when another register has got the upper part of the
same symbol in between. -/
theorem collapse_adds_twice :
    Paired loadIsa {} (bodyOf twiceSource) ∧
      ¬PreservesMeaning (fun _ => none) [] loadIsa (bodyOf twiceSource) := by
  refine ⟨by decide +kernel, ?_⟩
  rintro ⟨out, hout, h⟩
  -- the fourteenth register is a4
  have hold : registerAfter .gas 0x1004 (bodyOf twiceSource) 14 = some 0x1004 := by decide +kernel
  have hnew : (collapse (fun _ => none) [] [] (bodyOf twiceSource)).bind
      (fun out => registerAfter .jim 0x1004 out 14) = some 0x2008 := by decide +kernel
  have hpending : ((bodyOf twiceSource).foldl (Track.step loadIsa) {}).pending 14 = none := by decide +kernel
  rw [hout, Option.bind_some] at hnew
  obtain ⟨st₁, hst₁, ha4⟩ := Option.map_eq_some_iff.1 hold
  obtain ⟨st₂, hst₂, -, -, hregs⟩ := h (fun _ => 0x1004) ⟨by simp, by simp⟩ _ st₁ hst₁
  obtain ⟨st₃, hst₃, ha4'⟩ := Option.map_eq_some_iff.1 hnew
  obtain rfl := Option.some.inj (hst₂.symm.trans hst₃)
  have heq := hregs 14
  rw [completed, hpending, Option.elim_none, ha4, ha4'] at heq
  exact absurd heq (by decide)

end RiscyOS.GasToJim
