import RiscyOS.GasToJim.Anchors
import RiscyOS.GasToJim.LocalLabels
import RiscyOS.GasToJim.Strings

/-!
# String constants, and what refers to them

A label of a `.string` is gone from the output; what is defined there has a made-up name.  `pass_collapse_la`
puts that name where a `lui` has the label, if the label begins with a dot and is in `str_table`, and gets
rid of the `addi` that adds the lower half, if it adds to the register of the last `lui` of the label.
`collapseEach` says what the pass makes of each element of a body.

With `RiscyOS.GasToJim.Strings` for the definitions, this settles which string constants survive
(`strings_kept_iff`).
-/

set_option autoImplicit false

namespace RiscyOS.GasToJim

variable {anchors : Anchors} {strTable : StrTable} {mapped : LaMapped}

/-! ## Element by element -/

/-- `collapse`, with what becomes of each element kept apart. -/
def collapseEach (anchors : Anchors) (strTable : StrTable) : LaMapped → List Node → Option (List (List Node))
  | _, [] => some []
  | mapped, [node] => (collapseNode mapped node).map ([·])
  | mapped, node :: next :: rest =>
    match node with
    | .instruction i =>
      if i.op = "lui".toList then do
        let d1 ← i.dest
        let hi ← i.src 1
        let u ← upperOf anchors strTable hi
        let mapped := if u.mapped then dictSet hi.symbol d1 mapped else mapped
        if ← isLowerOf next d1 { hi with symbol := u.symbol } then
          return loadAddress d1 u :: [] :: (← collapseEach anchors strTable mapped rest)
        return loadAddress d1 u :: (← collapseEach anchors strTable mapped (next :: rest))
      else do
        return (← collapseNode mapped (.instruction i)) :: (← collapseEach anchors strTable mapped (next :: rest))
    | node => do
      return (← collapseNode mapped node) :: (← collapseEach anchors strTable mapped (next :: rest))

/-- **Together they are what the pass returns.** -/
theorem collapse_eq_flatten : ∀ (mapped : LaMapped) (body : List Node), collapse anchors strTable mapped body =
    (collapseEach anchors strTable mapped body).map List.flatten
  | _, [] => rfl
  | mapped, [node] => by
    rw [collapse, collapseEach]
    cases collapseNode mapped node <;> simp
  | mapped, node :: next :: rest => by
    have htail := collapse_eq_flatten mapped (next :: rest)
    cases node with
    | instruction i =>
      rw [collapse, collapseEach]
      by_cases hop : i.op = "lui".toList
      · rw [if_pos hop, if_pos hop]
        simp only [Option.bind_eq_bind, Option.map_bind, Function.comp_def]
        refine Option.bind_congr fun d1 _ => Option.bind_congr fun hi _ => Option.bind_congr fun u _ =>
          Option.bind_congr fun b _ => ?_
        cases b with
        | true =>
          rw [if_pos rfl, if_pos rfl, collapse_eq_flatten _ rest]
          cases collapseEach anchors strTable _ rest <;> rfl
        | false =>
          rw [if_neg Bool.false_ne_true, if_neg Bool.false_ne_true, collapse_eq_flatten _ (next :: rest)]
          cases collapseEach anchors strTable _ (next :: rest) <;> rfl
      · rw [if_neg hop, if_neg hop, htail]
        cases collapseNode mapped (.instruction i) <;>
          cases collapseEach anchors strTable mapped (next :: rest) <;> rfl
    | label l =>
      have hstep : collapse anchors strTable mapped (.label l :: next :: rest) =
          (collapse anchors strTable mapped (next :: rest)).map ([.label l] ++ ·) := Option.map_eq_bind.symm
      have heach : collapseEach anchors strTable mapped (.label l :: next :: rest) =
          (collapseEach anchors strTable mapped (next :: rest)).map ([.label l] :: ·) := Option.map_eq_bind.symm
      rw [hstep, heach, htail]
      cases collapseEach anchors strTable mapped (next :: rest) <;> rfl
    | directive d =>
      have hstep : collapse anchors strTable mapped (.directive d :: next :: rest) =
          (collapse anchors strTable mapped (next :: rest)).map ([.directive d] ++ ·) := Option.map_eq_bind.symm
      have heach : collapseEach anchors strTable mapped (.directive d :: next :: rest) =
          (collapseEach anchors strTable mapped (next :: rest)).map ([.directive d] :: ·) := Option.map_eq_bind.symm
      rw [hstep, heach, htail]
      cases collapseEach anchors strTable mapped (next :: rest) <;> rfl

/-- What the pass does at a `lui`. -/
structure UpperStep (anchors : Anchors) (strTable : StrTable) (mapped : LaMapped) (i : Instruction) (next : Node)
    (d1 hi : Operand) (u : Upper) (mapped' : LaMapped) (b : Bool) : Prop where
  op : i.op = "lui".toList
  dest : i.dest = some d1
  src : i.src 1 = some hi
  upper : upperOf anchors strTable hi = some u
  mapped : mapped' = if u.mapped then dictSet hi.symbol d1 mapped else mapped
  lower : isLowerOf next d1 { hi with symbol := u.symbol } = some b

/-- **One step of the pass**: at a `lui` that is not the last element, and elsewhere. -/
theorem collapseEach_cons {node : Node} {rest : List Node} {chunks : List (List Node)}
    (h : collapseEach anchors strTable mapped (node :: rest) = some chunks) :
    (∃ i next rest' d1 hi u mapped' b, node = .instruction i ∧ rest = next :: rest' ∧
      UpperStep anchors strTable mapped i next d1 hi u mapped' b ∧
        ((b = false ∧ ∃ tail, chunks = loadAddress d1 u :: tail ∧
          collapseEach anchors strTable mapped' rest = some tail) ∨
        (b = true ∧ ∃ tail, chunks = loadAddress d1 u :: [] :: tail ∧
          collapseEach anchors strTable mapped' rest' = some tail))) ∨
    ((∀ i, node = .instruction i → i.op = "lui".toList → rest = []) ∧
      ∃ out tail, chunks = out :: tail ∧ collapseNode mapped node = some out ∧
        collapseEach anchors strTable mapped rest = some tail) := by
  cases rest with
  | nil =>
    obtain ⟨out, hout, rfl⟩ := Option.map_eq_some_iff.1 h
    exact Or.inr ⟨fun _ _ _ => rfl, out, [], rfl, hout, rfl⟩
  | cons next rest =>
    cases node with
    | instruction i =>
      rw [collapseEach] at h
      by_cases hop : i.op = "lui".toList
      · rw [if_pos hop] at h
        simp only [Option.bind_eq_bind, Option.bind_eq_some_iff] at h
        obtain ⟨d1, hd, hi, hhi, u, hu, b, hb, h⟩ := h
        refine Or.inl ⟨i, next, rest, d1, hi, u, _, b, rfl, rfl, ⟨hop, hd, hhi, hu, rfl, hb⟩, ?_⟩
        cases b with
        | false =>
          obtain ⟨tail, htail, h⟩ := Option.bind_eq_some_iff.1 h
          exact Or.inl ⟨rfl, tail, (Option.some.inj h).symm, htail⟩
        | true =>
          obtain ⟨tail, htail, h⟩ := Option.bind_eq_some_iff.1 h
          exact Or.inr ⟨rfl, tail, (Option.some.inj h).symm, htail⟩
      · rw [if_neg hop] at h
        obtain ⟨out, hout, h⟩ := Option.bind_eq_some_iff.1 h
        obtain ⟨tail, htail, h⟩ := Option.bind_eq_some_iff.1 h
        exact Or.inr ⟨fun j hj hop' => absurd (Node.instruction.inj hj ▸ hop') hop, out, tail,
          (Option.some.inj h).symm, hout, htail⟩
    | label | directive =>
      obtain ⟨tail, htail, h⟩ := Option.bind_eq_some_iff.1 h
      exact Or.inr ⟨fun _ hj => (nomatch hj), _, tail, (Option.some.inj h).symm, rfl, htail⟩

/-- What is skipped behind a `lui` is an `addi`. -/
theorem isLowerOf_addi {next : Node} {d1 hi : Operand} (h : isLowerOf next d1 hi = some true) :
    ∃ i, next = .instruction i ∧ i.op = "addi".toList ∧
      (i.src 2).elim (some "None".toList) Operand.str = hi.str := by
  cases next with
  | instruction i =>
    rw [isLowerOf] at h
    split at h
    · rename_i hcond
      obtain ⟨t, ht, h⟩ := Option.bind_eq_some_iff.1 h
      obtain ⟨t', ht', h⟩ := Option.bind_eq_some_iff.1 h
      obtain rfl := of_decide_eq_true (Option.some.inj h)
      exact ⟨i, rfl, hcond.1, ht.trans ht'.symm⟩
    · exact absurd (Option.some.inj h) Bool.false_ne_true
  | label | directive => exact absurd (Option.some.inj h) Bool.false_ne_true

/-- **A `lui`** becomes a load. -/
theorem chunk_upper {body : List Node} {chunks : List (List Node)}
    (h : collapseEach anchors strTable mapped body = some chunks) {n : Nat} {i : Instruction}
    (hi : body[n]? = some (.instruction i)) (hop : i.op = "lui".toList) (hn : n + 1 < body.length) :
    ∃ d1 hi u, i.dest = some d1 ∧ i.src 1 = some hi ∧ upperOf anchors strTable hi = some u ∧
      chunks[n]? = some (loadAddress d1 u) := by
  induction hlen : body.length using Nat.strong_induction_on generalizing mapped body chunks n with
  | _ len ih =>
    subst hlen
    cases body with
    | nil => exact absurd hi nofun
    | cons node rest =>
      rcases collapseEach_cons h with ⟨i', next, rest', d1, hi', u, mapped', b, rfl, rfl, hstep, hb⟩ |
        ⟨hlast, out, tail, rfl, -, htail⟩
      · cases n with
        | zero =>
          obtain rfl := Node.instruction.inj (Option.some.inj hi)
          refine ⟨d1, hi', u, hstep.dest, hstep.src, hstep.upper, ?_⟩
          rcases hb with ⟨-, tail, rfl, -⟩ | ⟨-, tail, rfl, -⟩ <;> rfl
        | succ n =>
          rcases hb with ⟨-, tail, rfl, htail⟩ | ⟨rfl, tail, rfl, htail⟩
          · exact ih _ (by simp) htail hi (by simpa using hn) rfl
          · cases n with
            | zero =>
              obtain ⟨j, rfl, hj, -⟩ := isLowerOf_addi hstep.lower
              obtain rfl := Node.instruction.inj (Option.some.inj hi)
              rw [hop] at hj
              exact absurd hj (by decide)
            | succ n => exact ih _ (by rw [List.length_cons, List.length_cons]; omega) htail hi (by simpa using hn) rfl
      · cases n with
        | zero =>
          obtain rfl := Option.some.inj hi
          rw [hlast i rfl hop] at hn
          exact absurd hn (by simp)
        | succ n => exact ih _ (by simp) htail hi (by simpa using hn) rfl

/-! ## The register of a label -/

/-- The register of the last `lui` of a label. -/
def lastUpper (l : Text) : Option Text → List Node → Option Text
  | r, [] => r
  | r, .instruction i :: rest =>
    lastUpper l (if i.op = "lui".toList ∧ (i.src 1).bind Operand.symbol = some l then i.dest.bind Operand.reg else r)
      rest
  | r, _ :: rest => lastUpper l r rest

/-- The register that `LA_MAPPED` has for a label. -/
def mappedRegister (mapped : LaMapped) (l : Text) : Option Text := (mapped.lookup (some l)).bind Operand.reg

/-- What `parse_operand` promises whoever prints an operand: a register is the name of one, and a number has
been read. -/
def Operand.Read (o : Operand) : Prop :=
  match o.kind with
  | .register => ∃ r, o.reg = some r ∧ isRegister r = true
  | .immediate => o.imm.isSome
  | .resolvedMem => False
  | .memory | .symbol | .hi | .lo | .loMem => True

/-- The operands of an element have been read. -/
def Node.Read : Node → Prop
  | .instruction i => ∀ o ∈ i.operands, o.Read
  | .label _ | .directive _ => True

/-- A label that the pass replaces, and that nothing is replaced by. -/
structure Replaced (anchors : Anchors) (strTable : StrTable) (l : Text) : Prop where
  dot : ".".toList <+: l
  notAnchor : ¬ ".LANCHOR".toList <+: l
  entry : ∃ c cs, strTable.lookup (some l) = some (c :: cs)
  names : ∀ k t, strTable.lookup k = some t → t ≠ l
  vars : ∀ s v n, anchors s = some (v, n) → v ≠ l

theorem parseOperand_read {t : Text} {o : Operand} (h : parseOperand t = some o) : o.Read := by
  -- behind the two that are made of a symbol
  have hrest : ∀ {o : Operand} (t : Text), ((matchMemory t).elim (do
      if isNumber t then
        let n ← if occursIn "0x".toList t then some (parseHex t) else parseInt t
        return { kind := .immediate, raw := t, imm := n }
      if isRegister t then
        return { kind := .register, raw := t, reg := t }
      return { kind := .symbol, raw := t, symbol := t }) fun m => do
        let n ← if "0x".toList <+: m.1 then some (parseHex m.1) else parseInt m.1
        return { kind := .memory, raw := t, reg := m.2, imm := n }) = some o → o.Read := by
    intro o t h
    cases hm : matchMemory t <;> rw [hm] at h <;> dsimp only [Option.elim] at h
    rotate_left
    · split at h
      all_goals
        obtain ⟨n, -, h⟩ := Option.bind_eq_some_iff.1 h
        obtain rfl := Option.some.inj h
        trivial
    · split at h
      · split at h
        all_goals
          obtain ⟨n, -, h⟩ := Option.bind_eq_some_iff.1 h
          obtain rfl := Option.some.inj h
          exact rfl
      · split at h
        · rename_i hregister
          obtain rfl := Option.some.inj h
          exact ⟨t, rfl, hregister⟩
        · obtain rfl := Option.some.inj h
          trivial
  rw [parseOperand] at h
  dsimp only at h
  split at h
  · obtain rfl := Option.some.inj h
    trivial
  · split at h
    · split at h
      · obtain rfl := Option.some.inj h
        trivial
      · split at h
        · obtain rfl := Option.some.inj h
          trivial
        · refine hrest (strip t) (Eq.trans ?_ h)
          rcases matchMemory (strip t) with _ | ⟨offset, r⟩ <;> rfl
    · refine hrest (strip t) (Eq.trans ?_ h)
      rcases matchMemory (strip t) with _ | ⟨offset, r⟩ <;> rfl

/-- **What the parser has read**, local labels resolved. -/
theorem parse_read {source : Text} {m : AsmModule} (h : parse source = some m) {f : AsmFunction}
    (hf : f ∈ (passResolveLocalLabels m).functions) : ∀ n ∈ f.body, n.Read := by
  obtain ⟨s, hrun, rfl⟩ := parse_eq h
  have hall : s.All Node.Read := by
    refine ParserState.All.run (fun _ _ => trivial) (fun _ => trivial) (fun op args o ho => ?_)
      (s := {}) (by simp [ParserState.All, ParserState.functions]) hrun
    obtain ⟨a, -, ha⟩ := List.mem_filterMap.1 ho
    exact parseOperand_read ha
  obtain ⟨g, hg, rfl⟩ := List.mem_map.1 hf
  obtain ⟨e, he, rfl⟩ := List.mem_map.1 hg
  intro n hn
  obtain ⟨n', hn', rfl⟩ := List.mem_map.1 hn
  have hread := hall e he n' hn'
  cases n' with
  | label | directive => trivial
  | instruction i =>
    intro o ho
    obtain ⟨o', ho', rfl⟩ := List.mem_map.1 ho
    have hread' := hread o' ho'
    rw [Operand.resolve]
    split
    · split
      · rename_i hkind _ _
        rw [Operand.Read, hkind]
        trivial
      · exact hread'
    · exact hread'

/-- A number does not begin with a dot. -/
theorem strInt_no_dot (n : Int) (t : Text) : ¬ ".".toList <+: strInt n ++ t := by
  have hdigits : ∀ (m : Nat), ¬ ['.'] <+: Nat.toDigits 10 m ++ t := by
    intro m h
    obtain ⟨c, ds, hcons⟩ := List.exists_cons_of_ne_nil (Nat.toDigits_ne_nil (n := m) (b := 10))
    have hdigit : c.isDigit = true := Nat.isDigit_of_mem_toDigits (by decide) (by decide) (hcons ▸ List.mem_cons_self)
    rw [hcons, List.cons_append, List.cons_prefix_cons] at h
    rw [← h.1] at hdigit
    exact absurd hdigit (by decide)
  cases n with
  | ofNat m => exact strInt_natCast m ▸ hdigits m
  | negSucc m =>
    have hneg : strInt (Int.negSucc m) = '-' :: Nat.toDigits 10 (m + 1) := by
      show ("-" ++ Nat.repr (m + 1)).toList = _
      rw [String.toList_append, Nat.toList_repr]
      rfl
    rw [hneg, List.cons_append]
    exact fun h => absurd (List.cons_prefix_cons.1 h).1 (by decide)

/-- Nor does a register. -/
theorem isRegister_no_dot {t : Text} (h : isRegister t = true) : ¬ ".".toList <+: t := by
  intro hdot
  obtain ⟨t, rfl⟩ := hdot
  match t with
  | [] | [_] | [_, _] | _ :: _ :: _ :: _ => simp [isRegister] at h

section Lower

variable {l : Text}

/-- A `lui` of the label is remembered. -/
theorem Replaced.remembers {hi : Operand} {u : Upper} (h : Replaced anchors strTable l)
    (hu : upperOf anchors strTable hi = some u) (hl : hi.symbol = some l) : u.mapped = true := by
  obtain ⟨c, cs, hentry⟩ := h.entry
  obtain ⟨t, -, hu⟩ := Option.bind_eq_some_iff.1 hu
  split_ifs at hu with hanchor hdot
  · obtain ⟨entry, -, hu⟩ := Option.bind_eq_some_iff.1 hu
    exact Option.some.inj hu ▸ rfl
  · rw [hl, hentry] at hu
    exact Option.some.inj hu ▸ rfl
  · exact Option.some.inj hu ▸ rfl

/-- What the operand of a `lui` has become is not printed as the label. -/
theorem Replaced.str_ne {hi : Operand} {u : Upper} (h : Replaced anchors strTable l) (hread : hi.Read)
    (hu : upperOf anchors strTable hi = some u) : Operand.str { hi with symbol := u.symbol } ≠ some l := by
  have hnotDot : ∀ {t : Text}, ¬ ".".toList <+: t → some t ≠ some l :=
    fun ht heq => ht (Option.some.inj heq ▸ h.dot)
  -- if the symbol is printed, it is that of a variable, a made-up one, or one without a dot
  have hsymbol : hi.str = hi.symbol ∨ hi.str = some (formatted hi.symbol) →
      u.symbol ≠ some l ∧ (hi.str = some (formatted hi.symbol) → formatted u.symbol ≠ l) := by
    intro hprinted
    obtain ⟨t, ht, hu⟩ := Option.bind_eq_some_iff.1 hu
    have hboth : ∀ {v : Text}, v ≠ l → some v ≠ some l ∧ (hi.str = some (formatted hi.symbol) → v ≠ l) :=
      fun hv => ⟨fun heq => hv (Option.some.inj heq), fun _ => hv⟩
    split_ifs at hu with hanchor hdot
    · obtain ⟨entry, hentry, hu⟩ := Option.bind_eq_some_iff.1 hu
      obtain ⟨s, -, hentry⟩ := Option.bind_eq_some_iff.1 hentry
      obtain rfl := Option.some.inj hu
      exact hboth (h.vars s entry.1 entry.2 hentry)
    · split at hu
      · rename_i c cs hlookup
        obtain rfl := Option.some.inj hu
        exact hboth (h.names _ _ hlookup)
      · obtain rfl := Option.some.inj hu
        exact hboth fun heq => hnotDot (t := "UNKNOWN".toList) (by decide) (congrArg some heq)
    · obtain rfl := Option.some.inj hu
      refine ⟨fun heq => ?_, fun hformatted heq => ?_⟩
      · have hsymbol : hi.symbol = some l := heq
        have hstr : hi.str = some l := hprinted.elim (·.trans hsymbol) fun h => h.trans (by rw [hsymbol]; rfl)
        exact hnotDot hdot (ht.symm.trans hstr)
      · exact hnotDot hdot (ht.symm.trans (hformatted.trans (congrArg some heq)))
  cases hkind : hi.kind with
  | register =>
    rw [Operand.Read, hkind] at hread
    obtain ⟨r, hr, hname⟩ := hread
    exact fun heq => hnotDot (isRegister_no_dot hname) (hr.symm.trans heq)
  | immediate =>
    rw [Operand.Read, hkind] at hread
    obtain ⟨n, hn⟩ := Option.isSome_iff_exists.1 hread
    rw [Operand.str]
    dsimp only
    rw [hn, Option.elim_some, ← List.append_nil (strInt n)]
    exact hnotDot (strInt_no_dot n [])
  | memory =>
    rw [Operand.str]
    dsimp only
    rw [List.append_assoc, List.append_assoc]
    exact hnotDot (strInt_no_dot _ _)
  | symbol => exact (hsymbol (Or.inl (by rw [Operand.str, hkind]))).1
  | hi | lo =>
    have hstr : hi.str = some (formatted hi.symbol) := by rw [Operand.str, hkind]
    exact fun heq => (hsymbol (Or.inr hstr)).2 hstr (Option.some.inj heq)
  | loMem => exact hnotDot fun hdot => absurd (List.cons_prefix_cons.1 hdot).1 (by decide)
  | resolvedMem =>
    rw [Operand.Read, hkind] at hread
    exact hread.elim

theorem UpperStep.mappedRegister {i : Instruction} {next : Node} {d1 hi : Operand} {u : Upper}
    {mapped' : LaMapped} {b : Bool} (hstep : UpperStep anchors strTable mapped i next d1 hi u mapped' b)
    (h : Replaced anchors strTable l) : GasToJim.mappedRegister mapped' l =
      if i.op = "lui".toList ∧ (i.src 1).bind Operand.symbol = some l then i.dest.bind Operand.reg
      else GasToJim.mappedRegister mapped l := by
  have hsymbol : (i.src 1).bind Operand.symbol = hi.symbol := by rw [hstep.src]; rfl
  rw [hstep.mapped, hsymbol, hstep.dest]
  by_cases hl : hi.symbol = some l
  · rw [if_pos (h.remembers hstep.upper hl), if_pos ⟨hstep.op, hl⟩, GasToJim.mappedRegister, hl,
      lookup_dictSet, if_pos rfl]
  · have hnot : ¬ (i.op = "lui".toList ∧ hi.symbol = some l) := fun hc => hl hc.2
    rw [if_neg hnot]
    split
    · rw [GasToJim.mappedRegister, lookup_dictSet, if_neg (Ne.symm hl), GasToJim.mappedRegister]
    · rfl

/-- An `addi` of the label stays if another register is remembered, or none. -/
theorem collapseNode_kept {i : Instruction} {d r : Text} (hform : i.form = .addiLo d r l)
    (hr : mappedRegister mapped l ≠ some r) : collapseNode mapped (.instruction i) = some [.instruction i] := by
  obtain ⟨hop, x, y, z, hops, hx, hy, hz, hsymbol⟩ := form_addiLo hform
  have hdest : i.dest = some x := by rw [Instruction.dest, hops]; rfl
  have hsrc : i.src 1 = some y := by rw [Instruction.src, hops]; rfl
  have hthird : i.src 2 = some z := by rw [Instruction.src, hops]; rfl
  rw [collapseNode, if_pos hop, collapseAddi, hthird]
  simp only [Option.bind_eq_bind, Option.bind_some, hz, reduceCtorEq, or_self, if_false, hsymbol]
  cases hlookup : mapped.lookup (some l) with
  | none => rfl
  | some o =>
    have hne : o.reg ≠ y.reg := fun h => hr (by rw [mappedRegister, hlookup, Option.bind_some, h, hy])
    simp only [hdest, hsrc, Option.bind_some, hne, and_false, if_false]
    rfl

theorem lastUpper_cons_of_ne {r : Option Text} {node : Node} {rest : List Node}
    (hnode : ∀ i, node = .instruction i → i.op ≠ "lui".toList) :
    lastUpper l r (node :: rest) = lastUpper l r rest := by
  cases node with
  | instruction i => rw [lastUpper, if_neg fun h => hnode i rfl h.1]
  | label | directive => rfl

/-- **An `addi` of the label** goes if it adds to the register of its last `lui`. -/
theorem chunk_lower {body : List Node} {chunks : List (List Node)} (hl : Replaced anchors strTable l)
    (hread : ∀ n ∈ body, n.Read) (h : collapseEach anchors strTable mapped body = some chunks) {n : Nat}
    {i : Instruction} {d r : Text} (hi : body[n]? = some (.instruction i)) (hform : i.form = .addiLo d r l) :
    chunks[n]? = some (if lastUpper l (GasToJim.mappedRegister mapped l) (body.take n) = some r then
      (if r = d then [] else [.instruction ⟨"mv".toList, [registerOperand (some d), registerOperand (some r)]⟩])
      else [.instruction i]) := by
  induction hlen : body.length using Nat.strong_induction_on generalizing mapped body chunks n with
  | _ len ih =>
    subst hlen
    have hadd := (form_addiLo hform).1
    have hne : i.op ≠ "lui".toList := by simp [hadd]
    cases body with
    | nil => exact absurd hi (by simp)
    | cons node rest =>
      have htailRead : ∀ n ∈ rest, n.Read := (List.forall_mem_cons.1 hread).2
      rcases collapseEach_cons h with ⟨i', next, rest', d1, hi', u, mapped', b, rfl, rfl, hstep, hb⟩ |
        ⟨hlast, out, tail, rfl, hout, htail⟩
      · have hregister := hstep.mappedRegister hl
        cases n with
        | zero =>
          obtain rfl := Node.instruction.inj (Option.some.inj hi)
          exact absurd hstep.op hne
        | succ n =>
          rw [List.take_succ_cons, lastUpper, ← hregister]
          rcases hb with ⟨-, tail, rfl, htail⟩ | ⟨rfl, tail, rfl, htail⟩
          · exact ih _ (by simp) htailRead htail hi rfl
          · obtain ⟨j, rfl, hj, hstr⟩ := isLowerOf_addi hstep.lower
            cases n with
            | zero =>
              -- the `addi` of a `lui` of something else
              obtain rfl := Node.instruction.inj (Option.some.inj hi)
              obtain ⟨-, x, y, z, hops, -, -, hz, hsymbol⟩ := form_addiLo hform
              have hthird : j.src 2 = some z := by rw [Instruction.src, hops]; rfl
              have hzstr : z.str = some l := by rw [Operand.str, hz, hsymbol]; rfl
              have hhi := (List.forall_mem_cons.1 hread).1 hi' (List.mem_of_getElem? hstep.src)
              rw [hthird, Option.elim_some, hzstr] at hstr
              exact absurd hstr.symm (hl.str_ne hhi hstep.upper)
            | succ n =>
              have hjne : ∀ k, Node.instruction j = .instruction k → k.op ≠ "lui".toList := by
                intro k hk
                obtain rfl := Node.instruction.inj hk
                simp [hj]
              rw [List.take_succ_cons, lastUpper_cons_of_ne hjne]
              exact ih _ (by rw [List.length_cons, List.length_cons]; omega)
                (fun k hk => htailRead k (List.mem_cons_of_mem _ hk)) htail hi rfl
      · cases n with
        | zero =>
          obtain rfl := Option.some.inj hi
          rw [List.take_zero, lastUpper]
          split
          · rename_i hr
            obtain ⟨o, hlookup, hreg⟩ := Option.bind_eq_some_iff.1 hr
            exact (hout.symm.trans (collapseAddi_lower hform hlookup hreg))
          · rename_i hr
            exact (hout.symm.trans (collapseNode_kept hform hr))
        | succ n =>
          have hnode : ∀ k, node = .instruction k → k.op ≠ "lui".toList := by
            intro k hk hop
            rw [hlast k hk hop] at hi
            exact absurd hi (by simp)
          rw [List.take_succ_cons, lastUpper_cons_of_ne hnode]
          exact ih _ (by simp) htailRead htail hi rfl

end Lower

/-! ## References -/

/-- The two halves of the address of `l` in a body: a `lui`, and further down an `addi` to its register. -/
structure Reference (body : List Node) (l : Text) where
  upper : Nat
  lower : Nat
  lui : Instruction
  addi : Instruction
  d : Text
  d' : Text
  at_upper : body[upper]? = some (.instruction lui)
  at_lower : body[lower]? = some (.instruction addi)
  form_upper : lui.form = .lui d l
  form_lower : addi.form = .addiLo d' d l
  before : upper < lower

/-- **A reference is redirected** to a name: in place of the `lui` its address is loaded, and in place of the
`addi` there is nothing, or a move if that is to another register. -/
structure Reference.Redirected {body : List Node} {l : Text} (r : Reference body l) (chunks : List (List Node))
    (name : Text) : Prop where
  upper : chunks[r.upper]? = some [.instruction ⟨"la".toList,
    [registerOperand (some r.d), { kind := .symbol, raw := name, symbol := some name }]⟩]
  lower : chunks[r.lower]? = some (if r.d = r.d' then []
    else [.instruction ⟨"mv".toList, [registerOperand (some r.d'), registerOperand (some r.d)]⟩])

/-- What a `lui` of a label loads. -/
def loadedName (strTable : StrTable) (l : Text) : Text :=
  if ".".toList <+: l then
    match strTable.lookup (some l) with
    | some (c :: cs) => c :: cs
    | _ => "UNKNOWN".toList
  else l

section Reference

variable {body : List Node} {l : Text} {chunks : List (List Node)} {name : Text}

theorem upperOf_label {hi : Operand} (hkind : hi.kind = .hi) (hsymbol : hi.symbol = some l)
    (hanchor : ¬ ".LANCHOR".toList <+: l) :
    ∃ b, upperOf anchors strTable hi = some ⟨b, some (loadedName strTable l), 0⟩ := by
  have hstr : hi.str = some l := by rw [Operand.str, hkind, formatted, hsymbol]; rfl
  rw [upperOf, hstr, loadedName]
  simp only [Option.bind_eq_bind, Option.bind_some, if_neg hanchor, hsymbol]
  split
  · rcases strTable.lookup (some l) with _ | _ | ⟨c, cs⟩
    · exact ⟨false, rfl⟩
    · exact ⟨false, rfl⟩
    · exact ⟨true, rfl⟩
  · exact ⟨true, rfl⟩

theorem Reference.chunk_upper (r : Reference body l) (hanchor : ¬ ".LANCHOR".toList <+: l)
    (h : collapseEach anchors strTable mapped body = some chunks) :
    chunks[r.upper]? = some [.instruction ⟨"la".toList, [registerOperand (some r.d),
      { kind := .symbol, raw := loadedName strTable l, symbol := some (loadedName strTable l) }]⟩] := by
  have hlength : r.lower < body.length := (List.getElem?_eq_some_iff.1 r.at_lower).1
  have hbefore := r.before
  obtain ⟨hop, x, y, hops, hx, hy, hsymbol⟩ := form_lui r.form_upper
  obtain ⟨d1, hi, u, hd1, hhi, hu, hchunk⟩ := GasToJim.chunk_upper h r.at_upper hop (by omega)
  rw [Instruction.dest, hops] at hd1
  rw [Instruction.src, hops] at hhi
  obtain rfl := Option.some.inj hd1
  obtain rfl := Option.some.inj hhi
  obtain ⟨b, hb⟩ : ∃ b, upperOf anchors strTable y = some ⟨b, some (loadedName strTable l), 0⟩ :=
    upperOf_label hy hsymbol hanchor
  obtain rfl := Option.some.inj (hu.symm.trans hb)
  rw [hchunk, loadAddress, hx, if_neg (by simp)]
  rfl

/-- **Which references are redirected**: those of a label that the pass replaces, if the register is that of
the last `lui`. -/
theorem Reference.redirected_iff (r : Reference body l) (hl : Replaced anchors strTable l)
    (hread : ∀ n ∈ body, n.Read) (h : collapseEach anchors strTable [] body = some chunks) :
    r.Redirected chunks (loadedName strTable l) ↔ lastUpper l none (body.take r.lower) = some r.d := by
  have hlower := chunk_lower hl hread h r.at_lower r.form_lower
  have hmapped : mappedRegister [] l = none := rfl
  rw [hmapped] at hlower
  constructor
  · intro hredirected
    by_contra hlast
    rw [if_neg hlast] at hlower
    have heq := Option.some.inj (hlower.symm.trans hredirected.lower)
    split at heq
    · cases heq
    · have haddi := (form_addiLo r.form_lower).1
      have hmv : "mv".toList ≠ "addi".toList := by decide
      rw [Node.instruction.inj (List.cons.inj heq).1] at haddi
      exact absurd haddi hmv
  · intro hlast
    rw [if_pos hlast] at hlower
    exact ⟨r.chunk_upper hl.notAnchor h, hlower⟩

end Reference

section Pass

variable {m out : AsmModule}

theorem getElem?_mapM {α β : Type} {g : α → Option β} {xs : List α} {ys : List β} (h : xs.mapM g = some ys)
    {n : Nat} {x : α} (hx : xs[n]? = some x) : ∃ y, g x = some y ∧ ys[n]? = some y := by
  induction xs generalizing ys n with
  | nil => cases hx
  | cons z xs ih =>
    simp only [List.mapM_cons, Option.bind_eq_bind, Option.bind_eq_some_iff] at h
    obtain ⟨y, hy, zs, hzs, h⟩ := h
    obtain rfl := Option.some.inj h
    cases n with
    | zero => exact ⟨y, Option.some.inj hx ▸ hy, rfl⟩
    | succ n => exact ih hzs hx

/-- **The pass**, function by function. -/
theorem passCollapseLa_each (h : passCollapseLa anchors m = some out) {n : Nat} {f : AsmFunction}
    (hf : m.functions[n]? = some f) : ∃ chunks, collapseEach anchors m.strTable [] f.body = some chunks ∧
      out.functions[n]? = some { f with body := chunks.flatten } := by
  obtain ⟨functions, hfunctions, h⟩ := Option.bind_eq_some_iff.1 h
  obtain rfl := Option.some.inj h
  obtain ⟨g, hg, hout⟩ := getElem?_mapM hfunctions hf
  obtain ⟨body, hbody, hg⟩ := Option.bind_eq_some_iff.1 hg
  obtain rfl := Option.some.inj hg
  rw [collapse_eq_flatten] at hbody
  obtain ⟨chunks, hchunks, rfl⟩ := Option.map_eq_some_iff.1 hbody
  exact ⟨chunks, hchunks, hout⟩

/-- Definitions stay. -/
theorem stringDefs_passCollapseLa (h : passCollapseLa anchors m = some out) : out.stringDefs = m.stringDefs := by
  obtain ⟨functions, -, h⟩ := Option.bind_eq_some_iff.1 h
  obtain rfl := Option.some.inj h
  rfl

end Pass

/-! ## What survives -/

/-- A source whose labels are different, and not among the names that are made up. -/
structure GasInput (lines : List GasLine) : Prop where
  valid : ∀ l ∈ lines, l.Valid
  labels : (lines.flatMap GasLine.labels).Nodup
  fresh : ∀ text ∈ textsOf lines, ∀ n, stringName text n ∉ lines.flatMap GasLine.labels

/-- `transform`, short of printing: what has been parsed, and what is printed. -/
structure Transforms (source : Text) (m out : AsmModule) : Prop where
  parsed : parse source = some m
  collapsed : passCollapseLa (passFillLanchorMap source) (passResolveLocalLabels m) = some out

/-- **String constants survive**: each is defined, in order and with a NUL behind it; the names are
different; and a reference to a label of a directive is redirected to the name of its definition. -/
structure StringsKept (lines : List GasLine) (m out : AsmModule) : Prop where
  bytes : out.stringDefs.map DataDefinition.bytes = (textsOf lines).map (· ++ ['\x00'])
  names : (out.stringDefs.map DataDefinition.name).Nodup
  references : ∀ before labels text after, lines = before ++ .string labels text :: after → ∀ l ∈ labels,
    ∀ d, out.stringDefs[(textsOf before).length]? = some d →
    ∀ (n : Nat) f, (passResolveLocalLabels m).functions[n]? = some f → ∀ r : Reference f.body l, ∃ chunks,
      collapseEach (passFillLanchorMap (gasSource lines)) m.strTable [] f.body = some chunks ∧
      out.functions[n]? = some { f with body := chunks.flatten } ∧ r.Redirected chunks d.name

/-- **What it takes**: no text is empty or means anything to the tokeniser; equal texts have different numbers
of labels before them; and a label that is referred to begins with a dot, is the one in wait at its
directive, and has its last `lui` to the register that is added to. -/
structure StringsSafe (lines : List GasLine) (m : AsmModule) : Prop where
  plain : ∀ t ∈ textsOf lines, Plain t
  counts : ((textsOf lines).zip (filedCounts [] (filedUnder {} lines))).Nodup
  references : ∀ before labels text after, lines = before ++ .string labels text :: after → ∀ l ∈ labels,
    ∀ f ∈ (passResolveLocalLabels m).functions, ∀ r : Reference f.body l,
      ".".toList <+: l ∧ waitingAt before labels = some l ∧ lastUpper l none (f.body.take r.lower) = some r.d

section Kept

variable {lines before after : List GasLine} {labels : List Text} {text l : Text} {m out : AsmModule}

/-- The name of a definition is not that of a label, and not `UNKNOWN`. -/
theorem nameAt_fresh (hinput : GasInput lines) (hlines : lines = before ++ .string labels text :: after) :
    nameAt before text ∉ lines.flatMap GasLine.labels ∧ nameAt before text ≠ "UNKNOWN".toList ∧
      nameAt before text ≠ [] := by
  have htext : text ∈ textsOf lines := List.mem_filterMap.2 ⟨.string labels text, hlines ▸ by simp, rfl⟩
  have hmem : '_' ∈ nameAt before text := by simp [nameAt, stringName]
  refine ⟨hinput.fresh text htext _, fun h => ?_, fun h => ?_⟩
  · exact absurd (h ▸ hmem) (by decide)
  · exact absurd (h ▸ hmem) List.not_mem_nil

theorem mem_labels_string (hlines : lines = before ++ .string labels text :: after) (hl : l ∈ labels) :
    l ∈ lines.flatMap GasLine.labels := by
  refine List.mem_flatMap.2 ⟨.string labels text, hlines ▸ by simp, ?_⟩
  rw [GasLine.labels, GasLine.lines, List.filterMap_append, List.mem_append]
  exact Or.inl (List.mem_filterMap.2 ⟨_, List.mem_map_of_mem hl, rfl⟩)

/-- The pass has the label of a directive. -/
theorem replaced_label (hinput : GasInput lines) (hparse : parse (gasSource lines) = some m)
    (hplain : ∀ t ∈ textsOf lines, Plain t) (hlines : lines = before ++ .string labels text :: after)
    (hl : l ∈ labels) (hdot : ".".toList <+: l) (hwaiting : waitingAt before labels = some l) :
    Replaced (passFillLanchorMap (gasSource lines)) m.strTable l := by
  obtain ⟨htable, -⟩ := parse_strings hinput.valid hplain hparse
  have hlookup := lookup_label (hlines ▸ hinput.labels) hl
  have hvalid := hinput.valid (.string labels text) (hlines ▸ by simp)
  have hmem := mem_labels_string hlines hl
  rw [if_pos hwaiting, ← hlines] at hlookup
  refine ⟨hdot, (hvalid.2 l hl).2.2.2, ?_, fun k t hk => ?_, fun x v n hv => ?_⟩
  · obtain ⟨c, cs, hcons⟩ := List.exists_cons_of_ne_nil (nameAt_fresh hinput hlines).2.2
    exact ⟨c, cs, htable ▸ hcons ▸ hlookup⟩
  · rintro rfl
    obtain ⟨l₁, l₂, hsplit, -⟩ := List.lookup_eq_some_iff.1 hk
    have hname := table_names (σ := {}) lines (fun _ he => absurd he List.not_mem_nil) (k, t)
      (htable ▸ hsplit ▸ by simp)
    rw [defs_source] at hname
    obtain ⟨e, he, rfl⟩ := List.mem_map.1 hname
    obtain ⟨d, hd, rfl⟩ := List.mem_map.1 he
    exact hinput.fresh d.1 (List.of_mem_zip hd).1 _ hmem
  · rintro rfl
    obtain ⟨t, rfl⟩ := hdot
    exact absurd (passFillLanchorMap_word hv '.' (by simp)) (by decide)

/-- **What a `lui` of the label of a directive loads** is the name of its definition if the label begins with
a dot and is the one in wait. -/
theorem loadedName_iff (hinput : GasInput lines) (hparse : parse (gasSource lines) = some m)
    (hplain : ∀ t ∈ textsOf lines, Plain t) (hlines : lines = before ++ .string labels text :: after)
    (hl : l ∈ labels) : loadedName m.strTable l = nameAt before text ↔
      ".".toList <+: l ∧ waitingAt before labels = some l := by
  obtain ⟨htable, -⟩ := parse_strings hinput.valid hplain hparse
  have hlookup := lookup_label (hlines ▸ hinput.labels) hl
  obtain ⟨hlabel, hunknown, hne⟩ := nameAt_fresh hinput hlines
  rw [← hlines, ← htable] at hlookup
  rw [loadedName]
  by_cases hdot : ".".toList <+: l
  · rw [if_pos hdot, hlookup]
    by_cases hwaiting : waitingAt before labels = some l
    · obtain ⟨c, cs, hcons⟩ := List.exists_cons_of_ne_nil hne
      rw [if_pos hwaiting, hcons]
      exact ⟨fun _ => ⟨hdot, hwaiting⟩, fun _ => rfl⟩
    · rw [if_neg hwaiting]
      exact ⟨fun h => absurd h.symm hunknown, fun h => absurd h.2 hwaiting⟩
  · rw [if_neg hdot]
    exact ⟨fun h => absurd (h ▸ mem_labels_string hlines hl) hlabel, fun h => absurd h.1 hdot⟩

/-- **String constants survive** if and only if their texts are plain, their names come out different, and
their labels are those that are entered. -/
theorem strings_kept_iff (hinput : GasInput lines) (h : Transforms (gasSource lines) m out) :
    StringsKept lines m out ↔ StringsSafe lines m := by
  have hdefs : out.stringDefs = m.stringDefs := (stringDefs_passCollapseLa h.collapsed).trans rfl
  -- what is known once the texts are plain
  have hat : (∀ t ∈ textsOf lines, Plain t) → ∀ {before labels text after},
      lines = before ++ .string labels text :: after →
      ∃ d, out.stringDefs[(textsOf before).length]? = some d ∧ d.name = nameAt before text := by
    intro hplain before labels text after hlines
    have hrun := (parse_strings hinput.valid hplain h.parsed).2
    have hplace := defs_at before after labels text
    rw [← hlines] at hplace
    have hget := congrArg (·[(textsOf before).length]?) hrun
    simp only [List.getElem?_map, hplace, Option.map_some] at hget
    obtain ⟨d, hd, hname⟩ := Option.map_eq_some_iff.1 hget
    exact ⟨d, hdefs ▸ hd, congrArg Prod.fst hname⟩
  have hnames : (∀ t ∈ textsOf lines, Plain t) → out.stringDefs.map DataDefinition.name =
      ((textsOf lines).zip (filedCounts [] (filedUnder {} lines))).map fun d => stringName d.1 d.2 := by
    intro hplain
    have hrun := congrArg (List.map Prod.fst) (parse_strings hinput.valid hplain h.parsed).2
    rw [defs_source] at hrun
    rw [hdefs]
    simpa [Function.comp_def] using hrun
  have hinjective : Function.Injective fun d : Text × Nat => stringName d.1 d.2 :=
    fun d d' heq => Prod.ext (stringName_inj heq).1 (stringName_inj heq).2
  constructor
  · intro hkept
    have hplain : ∀ t ∈ textsOf lines, Plain t := by
      intro t ht
      have hmem := hkept.bytes ▸ List.mem_map_of_mem (f := (· ++ ['\x00'])) ht
      obtain ⟨d, hd, hbytes⟩ := List.mem_map.1 hmem
      exact parse_free h.parsed (hdefs ▸ hd) hbytes
    refine ⟨hplain, ?_, ?_⟩
    · have hnodup := hkept.names
      rw [hnames hplain] at hnodup
      exact List.Nodup.of_map _ hnodup
    · intro before labels text after hlines l hl f hf r
      obtain ⟨n, hn, hget⟩ := List.mem_iff_getElem.1 hf
      obtain ⟨d, hd, hname⟩ := hat hplain hlines
      obtain ⟨chunks, hchunks, -, hredirected⟩ := hkept.references before labels text after hlines l hl d hd n f
        (List.getElem?_eq_some_iff.2 ⟨hn, hget⟩) r
      have hvalid := hinput.valid (.string labels text) (hlines ▸ by simp)
      have hupper := (r.chunk_upper (hvalid.2 l hl).2.2.2 hchunks).symm.trans hredirected.upper
      have hloaded : loadedName m.strTable l = d.name := by
        simpa using hupper
      obtain ⟨hdot, hwaiting⟩ := (loadedName_iff hinput h.parsed hplain hlines hl).1 (hloaded.trans hname)
      have hreplaced := replaced_label hinput h.parsed hplain hlines hl hdot hwaiting
      exact ⟨hdot, hwaiting, (r.redirected_iff hreplaced (parse_read h.parsed hf) hchunks).1
        (hloaded ▸ hredirected)⟩
  · intro hsafe
    refine ⟨?_, ?_, ?_⟩
    · have hrun := congrArg (List.map Prod.snd) (parse_strings hinput.valid hsafe.plain h.parsed).2
      have htexts := defs_texts (σ := {}) lines
      rw [hdefs]
      refine map_bytes ?_ fun t ht => (hsafe.plain t ht).1
      rw [← List.nil_append (textsOf lines), ← List.map_nil (f := Prod.snd), ← htexts, List.map_map]
      simpa [Function.comp_def] using hrun
    · rw [hnames hsafe.plain]
      exact hsafe.counts.map hinjective
    · intro before labels text after hlines l hl d hd n f hf r
      obtain ⟨hdot, hwaiting, hlast⟩ := hsafe.references before labels text after hlines l hl f
        (List.mem_of_getElem? hf) r
      obtain ⟨d', hd', hname⟩ := hat hsafe.plain hlines
      obtain rfl := Option.some.inj (hd.symm.trans hd')
      have hloaded := (loadedName_iff hinput h.parsed hsafe.plain hlines hl).2 ⟨hdot, hwaiting⟩
      have hreplaced := replaced_label hinput h.parsed hsafe.plain hlines hl hdot hwaiting
      obtain ⟨chunks, hchunks, hout⟩ := passCollapseLa_each h.collapsed hf
      refine ⟨chunks, hchunks, hout, ?_⟩
      rw [hname, ← hloaded]
      exact (r.redirected_iff hreplaced (parse_read h.parsed (List.mem_of_getElem? hf)) hchunks).2 hlast

end Kept

/-- A function that has the address of a string, and the string. -/
def greeting (text : Text) : List GasLine :=
  [.other "\t.text".toList, .other "main:".toList, .other "\tlui\ta0,%hi(.LC0)".toList,
    .other "\taddi\ta0,a0,%lo(.LC0)".toList, .other "\t.section\t.rodata".toList, .string [".LC0".toList] text]

/-- What is parsed of it, and printed. -/
def transformed (lines : List GasLine) : AsmModule :=
  (passCollapseLa (passFillLanchorMap (gasSource lines)) (passResolveLocalLabels (parsed (gasSource lines)))).getD {}

instance decidableNotString : (line : Line) → Decidable (∀ args, line ≠ .directive .string args)
  | .directive kind args => decidable_of_iff (kind ≠ .string)
      ⟨fun h _ heq => h (Line.directive.inj heq).1, fun h heq => h args (by rw [heq])⟩
  | .blank | .label _ | .instruction _ _ => isTrue fun _ h => nomatch h

instance : DecidablePred GasLine.Valid
  | .string labels text => inferInstanceAs (Decidable ((∀ c ∈ text, c ≠ '"' ∧ c ≠ '\\') ∧
      ∀ l ∈ labels, l ≠ [] ∧ l.head? ≠ some '#' ∧ (∀ c ∈ l, isSpace c = false) ∧ ¬ ".LANCHOR".toList <+: l))
  | .other line => inferInstanceAs (Decidable ((∀ c ∈ line, isLineBreak c = false) ∧
      ∀ args, (tokenise line).line ≠ .directive .string args))

theorem greeting_input {text : Text} (hvalid : ∀ l ∈ greeting text, l.Valid)
    (hhead : text.head? ≠ none ∧ text.head? ≠ some 'm' ∧ text.head? ≠ some '.')
    (hlabels : (greeting text).flatMap GasLine.labels = ["main".toList, ".LC0".toList]) :
    GasInput (greeting text) := by
  refine ⟨hvalid, hlabels ▸ by decide, fun t ht n hmem => ?_⟩
  obtain rfl := List.mem_singleton.1 (ht : t ∈ [text])
  obtain ⟨c, hc⟩ := Option.ne_none_iff_exists'.1 hhead.1
  have hname : (stringName t n).head? = t.head? := by
    rw [stringName, List.append_assoc, List.append_assoc, List.head?_append, hc]
    rfl
  rw [hlabels] at hmem
  rcases List.mem_cons.1 hmem with h | hmem
  · exact hhead.2.1 (hname.symm.trans (congrArg List.head? h))
  · exact hhead.2.2 (hname.symm.trans (congrArg List.head? (List.mem_singleton.1 hmem)))

/-- Its `lui`. -/
def greetingUpper : Instruction :=
  ⟨"lui".toList, ["a0".toList, "%hi(.LC0)".toList].filterMap parseOperand⟩

/-- A reference in it is to the register of the `lui`. -/
theorem greeting_reference {f : AsmFunction}
    (hf : f ∈ (passResolveLocalLabels (parsed (gasSource (greeting "hello".toList)))).functions)
    (r : Reference f.body ".LC0".toList) : lastUpper ".LC0".toList none (f.body.take r.lower) = some r.d := by
  have hbody : ∀ f ∈ (passResolveLocalLabels (parsed (gasSource (greeting "hello".toList)))).functions,
      f.body.length = 2 ∧ f.body.take 1 = [.instruction greetingUpper] := by decide +kernel
  obtain ⟨hlength, hfirst⟩ := hbody f hf
  have hlower : r.lower < 2 := hlength ▸ (List.getElem?_eq_some_iff.1 r.at_lower).1
  have hbefore := r.before
  have hone : r.lower = 1 := by omega
  have hzero : r.upper = 0 := by omega
  have hat : (f.body.take 1)[r.upper]? = some (.instruction r.lui) := by
    rw [List.getElem?_take, if_pos (by omega), r.at_upper]
  rw [hfirst, hzero] at hat
  have hform := r.form_upper
  rw [← Node.instruction.inj (Option.some.inj hat)] at hform
  have hgreeting : greetingUpper.form = .lui "a0".toList ".LC0".toList := by decide
  rw [hone, hfirst, ← (Form.lui.inj (hgreeting.symm.trans hform)).1]
  decide

/-- One that survives. -/
theorem strings_kept_greeting : StringsKept (greeting "hello".toList)
    (parsed (gasSource (greeting "hello".toList))) (transformed (greeting "hello".toList)) := by
  refine (strings_kept_iff (greeting_input (by decide +kernel) (by decide) (by decide +kernel))
    ⟨by decide +kernel, by decide +kernel⟩).2 ⟨by decide, by decide +kernel, ?_⟩
  intro before labels text after hlines l hl f hf r
  have hstring : (greeting "hello".toList)[before.length]? = some (.string labels text) := by
    rw [hlines, List.getElem?_append_right (Nat.le_refl _), Nat.sub_self]
    rfl
  have hlast : before.length = 5 := by
    have hlength : before.length < 6 := (List.getElem?_eq_some_iff.1 hstring).1
    have hother : ∀ n < 5, (greeting "hello".toList)[n]?.bind GasLine.text? = none := by decide
    by_contra hne
    have hnone := hother before.length (by omega)
    rw [hstring] at hnone
    cases hnone
  have hbefore : before = (greeting "hello".toList).take 5 := by rw [hlines, ← hlast, List.take_left]
  rw [hlast] at hstring
  have hfive : (greeting "hello".toList)[5]? = some (GasLine.string [".LC0".toList] "hello".toList) := rfl
  obtain ⟨rfl, rfl⟩ := GasLine.string.inj (Option.some.inj (hfive.symm.trans hstring))
  obtain rfl := List.mem_singleton.1 hl
  exact ⟨by decide, hbefore ▸ by decide +kernel, greeting_reference hf r⟩

/-- A comma in it is taken for the end of an argument. -/
theorem string_cut_at_comma : ¬ ∀ lines m out, GasInput lines → Transforms (gasSource lines) m out →
    StringsKept lines m out := by
  intro h
  have hbytes := (h (greeting "a,b".toList) (parsed (gasSource (greeting "a,b".toList)))
    (transformed (greeting "a,b".toList))
    (greeting_input (by decide +kernel) (by decide) (by decide +kernel))
    ⟨by decide +kernel, by decide +kernel⟩).bytes
  exact absurd hbytes (by decide +kernel)

end RiscyOS.GasToJim
