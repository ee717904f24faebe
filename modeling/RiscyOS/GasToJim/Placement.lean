import RiscyOS.GasToJim.Parse

/-!
# Where the parser files the code

`parse` finds out where a function begins from a label that is still pending when an instruction comes.
What the lines say is simpler: in a text section a label that is not local begins a function, and the
local labels and instructions after it are its code, up to the next such label.  `codeOf` reads the code
off the lines in this way, and this module compares the two.

The comparison is between two sequences of marks, the entries, labels and instructions one after
another, and both only ever grow at the end.  So the first line at which the parser does something else
decides: what comes later cannot make up for it (`parse_marks`).  The lines at which it does something
else are found without running it, from the section, the part of a function that has been reached, and
whether a label of a data section is still waiting for its data (`Line.InPlace`).
-/

set_option autoImplicit false

namespace RiscyOS.GasToJim

/-! ## The code in a source -/

/-- A line of the source. -/
inductive Line
  | blank
  | label (name : Text)
  | directive (kind : DirectiveKind) (args : List Text)
  | instruction (op : Text) (args : List Text)
  deriving DecidableEq, Repr

/-- What kind of line a tokenised line is. -/
def RawLine.line (rl : RawLine) : Line :=
  match rl.label, rl.op with
  | some (c :: name), none => .label (c :: name)
  | _, some op =>
    if op.head? = some '.' then .directive (directiveKind op) rl.args else .instruction op rl.args
  | _, none => .blank

/-- The lines of a source. -/
def sourceLines (source : Text) : List Line := (rawLines source).map RawLine.line

/-- An element of a function's code. -/
inductive Item
  | label (name : Text)
  | instruction (i : Instruction)
  deriving DecidableEq, Repr

/-- A function and its code. -/
structure Code where
  name : Text
  items : List Item
  deriving DecidableEq, Repr

/-- A section for code. -/
def isTextSection (name : Text) : Bool := name = ".text".toList ∨ ".text.".toList <+: name

/-- Whether what comes after a line stands in a section for code. -/
def Line.inText (text : Bool) : Line → Bool
  | .directive .text _ => true
  | .directive .bss _ => false
  | .directive .data _ => false
  | .directive .section args => isTextSection (args.head?.getD [])
  | _ => text

/-- **The functions of a source and their code**, and before them the code that stands in no function.
`text` says whether the first line stands in a section for code. -/
def codeOf (text : Bool) : List Line → List Item × List Code
  | [] => ([], [])
  | line :: lines =>
    let rest := codeOf (line.inText text) lines
    match text, line with
    | true, .label name =>
      if isLocalName name then (.label name :: rest.1, rest.2) else ([], ⟨name, rest.1⟩ :: rest.2)
    | true, .instruction op args => (.instruction ⟨op, args.filterMap parseOperand⟩ :: rest.1, rest.2)
    | _, _ => rest

/-- What is emitted for an element of a body, alignments and unknown directives left out. -/
def Node.item : Node → Option Item
  | .instruction i => some (.instruction i)
  | .label l => some (.label l.resolvedName)
  | .directive _ => none

/-- A function of a module, with its code as it is emitted. -/
def AsmFunction.code (f : AsmFunction) : Code := ⟨f.name, f.body.filterMap Node.item⟩

/-! ## Following the lines -/

/-- The part of a function that has been reached. -/
inductive Stage
  /-- No function has begun. -/
  | outside
  /-- The label of a function has been read, and no instruction of it. -/
  | entry
  /-- An instruction of the function has been read. -/
  | code
  deriving DecidableEq, Repr

/-- What is known in front of a line. -/
structure Scan where
  /-- The line stands in a section for code. -/
  text : Bool := false
  /-- `parse` takes the section for code. -/
  taken : Bool := false
  stage : Stage := .outside
  /-- The last label of a data section has not had its data yet. -/
  waiting : Bool := false
  deriving DecidableEq, Repr

/-- Whether `parse` takes what comes after a line for code. -/
def Line.takenForText (taken : Bool) : Line → Bool
  | .directive .text _ => true
  | .directive .bss _ => false
  | .directive .data _ => false
  | .directive .section args =>
    if occursIn ".text".toList (args.head?.getD []) then true
    else if occursIn ".rodata".toList (args.head?.getD []) then false
    else taken
  | _ => taken

/-- The directives that define data. -/
def dataDirectives : List DirectiveKind := [.comm, .zero, .string]

/-- What is known behind a line. -/
def Scan.step (σ : Scan) (line : Line) : Scan where
  text := line.inText σ.text
  taken := line.takenForText σ.taken
  stage :=
    match line with
    | .label name => if σ.text ∧ !isLocalName name then .entry else σ.stage
    | .instruction _ _ => .code
    | _ => σ.stage
  waiting :=
    match line with
    | .label name => if σ.text then isLocalName name ∧ σ.waiting else true
    | .directive kind _ => kind ∉ dataDirectives ∧ σ.waiting
    | _ => σ.waiting

/-- `P` holds of every line, with what is known in front of it. -/
def Along (P : Scan → Line → Prop) : Scan → List Line → Prop
  | _, [] => True
  | σ, line :: lines => P σ line ∧ Along P (σ.step line) lines

instance {P : Scan → Line → Prop} [∀ σ l, Decidable (P σ l)] :
    ∀ σ lines, Decidable (Along P σ lines)
  | _, [] => .isTrue trivial
  | σ, line :: lines =>
    have := instDecidableAlong (P := P) (σ.step line) lines
    inferInstanceAs (Decidable (P σ line ∧ Along P (σ.step line) lines))

/-- `.L` and digits, as GCC names a local label. -/
def isNumbered (name : Text) : Bool := isLocalName name ∧ (name.drop 2).all Char.isDigit

/-- The directives that define data or go to another section. -/
def leavingDirectives : List DirectiveKind := dataDirectives ++ [.text, .bss, .data, .section]

/-- What a line of assembly from GCC is like.  Instructions and local labels belong to functions, the
label of a function is followed by its code, and a label is alone on its line. -/
def Line.Regular (σ : Scan) : Line → Prop
  | .blank => True
  | .label name =>
    σ.text → if isLocalName name then σ.stage ≠ .outside ∧ isNumbered name else σ.stage ≠ .entry
  | .directive kind _ => σ.stage = .entry → kind ∉ leavingDirectives
  | .instruction op _ => σ.text ∧ σ.stage ≠ .outside ∧ op.getLast? ≠ some ':'

instance (σ : Scan) : ∀ l : Line, Decidable (l.Regular σ)
  | .blank => .isTrue trivial
  | .label name => inferInstanceAs (Decidable (σ.text →
      if isLocalName name then σ.stage ≠ .outside ∧ isNumbered name else σ.stage ≠ .entry))
  | .directive kind _ => inferInstanceAs (Decidable (σ.stage = .entry → kind ∉ leavingDirectives))
  | .instruction op _ =>
    inferInstanceAs (Decidable (σ.text ∧ σ.stage ≠ .outside ∧ op.getLast? ≠ some ':'))

/-- The local labels of the lines. -/
def localLabels (lines : List Line) : List Text :=
  lines.filterMap fun
    | .label name => if isLocalName name then some name else none
    | _ => none

/-- **A module of functions**: regular lines, a last function that is complete, and local labels that
are defined once. -/
structure IsModule (lines : List Line) : Prop where
  regular : Along (fun σ l => l.Regular σ) {} lines
  complete : (lines.foldl Scan.step {}).stage ≠ .entry
  nodup : (localLabels lines).Nodup

/-- **The line is filed where it stands**: a local label of a function comes after an instruction of it,
one of another section is not taken for code while a function is being filled, and no label of a data
section is still waiting for its data when a function goes on. -/
def Line.InPlace (σ : Scan) : Line → Prop
  | .label name =>
    isLocalName name →
      if σ.text then σ.stage ≠ .entry else ¬(σ.taken ∧ σ.stage = .code)
  | .instruction _ _ => σ.stage = .code → σ.waiting = false
  | _ => True

/-! ## Marks -/

/-- The entry of a function, or an element of its code. -/
inductive Mark
  | entry (name : Text)
  | item (i : Item)

/-- A function, as marks. -/
def Code.marks (c : Code) : List Mark := .entry c.name :: c.items.map .item

/-- Code that stands in no function and functions, as marks. -/
def marksOf (code : List Item × List Code) : List Mark := code.1.map .item ++ code.2.flatMap Code.marks

/-- A mark up to what the instruction is. -/
def Mark.shape : Mark → Mark
  | .item (.instruction _) => .item (.instruction ⟨[], []⟩)
  | m => m

/-- The functions that the parser has so far, as marks. -/
def ParserState.marks (s : ParserState) : List Mark := (s.functions.map AsmFunction.code).flatMap Code.marks

/-- `P` holds of everything in the bodies of the functions. -/
def ParserState.All (P : Node → Prop) (s : ParserState) : Prop := ∀ f ∈ s.functions, ∀ n ∈ f.body, P n

theorem ParserState.All.append {P : Node → Prop} {s : ParserState} (h : s.All P) {node : Node} (hnode : P node) :
    (s.append node).All P := by
  intro f hf n hn
  cases hc : s.currentFunction with
  | none =>
    rw [ParserState.functions, ParserState.append, hc] at hf
    exact h f (by rwa [ParserState.functions, hc]) n hn
  | some g =>
    simp only [ParserState.functions, ParserState.append, hc, Option.map_some, Option.toList_some,
      List.mem_append, List.mem_singleton] at hf
    rcases hf with hf | rfl
    · exact h f (by rw [ParserState.functions]; exact List.mem_append_left _ hf) n hn
    · rcases List.mem_append.1 hn with hn | hn
      · exact h g (by simp [ParserState.functions, hc]) n hn
      · rwa [List.mem_singleton.1 hn]

theorem ParserState.All.congr {P : Node → Prop} {s s' : ParserState} (h : s.All P)
    (hfunctions : s'.module.functions = s.module.functions)
    (hcurrent : s'.currentFunction = s.currentFunction) : s'.All P := by
  rw [ParserState.All, ParserState.functions, hfunctions, hcurrent]
  exact h

theorem marks_of_none {s : ParserState} (hfunctions : s.module.functions = [])
    (hnone : s.currentFunction = none) : s.marks = [] := by
  simp [ParserState.marks, ParserState.functions, hfunctions, hnone]

@[simp] theorem marks_append_of_none {s : ParserState} (hnone : s.currentFunction = none) (node : Node) :
    s.append node = s := by
  cases s
  simp_all [ParserState.append]

theorem marks_append {s : ParserState} (hsome : s.currentFunction.isSome) (node : Node) :
    (s.append node).marks = s.marks ++ node.item.toList.map .item := by
  obtain ⟨f, hf⟩ := Option.isSome_iff_exists.1 hsome
  have hcode : (AsmFunction.code { f with body := f.body ++ [node] }).marks
      = f.code.marks ++ node.item.toList.map .item := by
    rw [AsmFunction.code, AsmFunction.code, Code.marks, Code.marks, List.filterMap_append, List.map_append,
      List.cons_append]
    cases h : node.item <;> simp [h]
  simp only [ParserState.marks, ParserState.functions, ParserState.append, hf, Option.map_some,
    Option.toList_some, List.map_append, List.map_cons, List.map_nil, List.flatMap_append,
    List.flatMap_cons, List.flatMap_nil, List.append_nil, hcode, List.append_assoc]

theorem marks_openFunction (s : ParserState) (name : Text) :
    (s.openFunction name).marks = s.marks ++ [.entry name] := by
  simp [ParserState.marks, ParserState.functions, ParserState.openFunction, AsmFunction.code, Code.marks]

theorem marks_congr {s s' : ParserState} (hfunctions : s'.module.functions = s.module.functions)
    (hcurrent : s'.currentFunction = s.currentFunction) : s'.marks = s.marks := by
  rw [ParserState.marks, ParserState.marks, ParserState.functions, ParserState.functions, hfunctions,
    hcurrent]

/-! ## One line -/

/-- `parseLine` on a line. -/
def parseStep (s : ParserState) : Line → Option ParserState
  | .blank => some s
  | .label name => some (parseLabel s name)
  | .directive kind args => parseDirective s kind args
  | .instruction op args => parseInstruction s op args

theorem parseLine_eq (s : ParserState) (rl : RawLine) : parseLine s rl = parseStep s rl.line := by
  obtain ⟨label, op, args⟩ := rl
  rcases label with _ | _ | ⟨c, name⟩ <;> rcases op with _ | op <;> simp only [parseLine, RawLine.line, parseStep]
  all_goals split <;> rfl

/-- What `parse` returns, from its loop. -/
theorem parse_eq {source : Text} {m : AsmModule} (h : parse source = some m) :
    ∃ s, (sourceLines source).foldlM parseStep {} = some s ∧ m = { s.module with
      functions := s.functions.map fun f => { f with exported := f.name ∈ s.module.globalSyms } } := by
  obtain ⟨s, hrun, hm⟩ := Option.bind_eq_some_iff.1 h
  refine ⟨s, ?_, (Option.some.inj hm).symm⟩
  rw [sourceLines, List.foldlM_map, ← hrun]
  exact congrArg (fun g => List.foldlM g _ _) (funext fun t => funext fun rl => (parseLine_eq t rl).symm)

/-- What a directive does not touch, and where it leaves the section and the pending label. -/
structure DirectiveStep (s : ParserState) (kind : DirectiveKind) (args : List Text) (s' : ParserState) : Prop where
  functions : s'.module.functions = s.module.functions
  open_iff : s'.currentFunction.isSome = s.currentFunction.isSome
  marks : s'.marks = s.marks
  all : ∀ P : Node → Prop, (∀ d, P (.directive d)) → s.All P → s'.All P
  taken : decide (s'.currentSection = .text) =
    (Line.directive kind args).takenForText (decide (s.currentSection = .text))
  pending : s'.pendingLabel = if kind ∈ dataDirectives then none else s.pendingLabel

theorem DirectiveStep.of_append {s : ParserState} {kind : DirectiveKind} {args : List Text} {d : Directive}
    (htaken : ∀ b, (Line.directive kind args).takenForText b = b) (hdata : kind ∉ dataDirectives) :
    DirectiveStep s kind args (s.append (.directive d)) := by
  refine ⟨rfl, by simp [ParserState.append], ?_, fun P hP h => h.append (hP d), (htaken _).symm,
    by rw [if_neg hdata]; rfl⟩
  cases h : s.currentFunction with
  | none => rw [marks_append_of_none h]
  | some f => simp [marks_append (s := s) (by rw [h]; rfl), Node.item]

theorem DirectiveStep.of_define {s s' : ParserState} {kind : DirectiveKind} {args : List Text}
    (htaken : ∀ b, (Line.directive kind args).takenForText b = b) (hdata : kind ∈ dataDirectives)
    (hfunctions : s'.module.functions = s.module.functions) (hcurrent : s'.currentFunction = s.currentFunction)
    (hsection : s'.currentSection = s.currentSection) (hpending : s'.pendingLabel = none) :
    DirectiveStep s kind args s' :=
  ⟨hfunctions, by rw [hcurrent], marks_congr hfunctions hcurrent,
    fun _ _ h => h.congr hfunctions hcurrent, by simp [htaken, hsection],
    by rw [if_pos hdata, hpending]⟩

theorem DirectiveStep.of_section {s s' : ParserState} {kind : DirectiveKind} {args : List Text}
    (hdata : kind ∉ dataDirectives)
    (hfunctions : s'.module.functions = s.module.functions) (hcurrent : s'.currentFunction = s.currentFunction)
    (hpending : s'.pendingLabel = s.pendingLabel)
    (hsection : decide (s'.currentSection = .text) =
      (Line.directive kind args).takenForText (decide (s.currentSection = .text))) :
    DirectiveStep s kind args s' :=
  ⟨hfunctions, by rw [hcurrent], marks_congr hfunctions hcurrent,
    fun _ _ h => h.congr hfunctions hcurrent, hsection,
    by rw [if_neg hdata, hpending]⟩

/-- **Directives** open no function and file no code. -/
theorem parseDirective_step {s s' : ParserState} {kind : DirectiveKind} {args : List Text}
    (h : parseDirective s kind args = some s') : DirectiveStep s kind args s' := by
  cases kind with
  | text | bss | data =>
    obtain rfl := Option.some.inj h
    exact .of_section (by decide) rfl rfl rfl (by simp [Line.takenForText])
  | set | «local» | globl | size | type | ident | file | option | «attribute» =>
    obtain rfl := Option.some.inj h
    exact .of_section (by decide) rfl rfl rfl rfl
  | align | unknown =>
    obtain rfl := Option.some.inj h
    exact .of_append (fun _ => rfl) (by decide)
  | «section» =>
    obtain ⟨name, hname, h⟩ := Option.bind_eq_some_iff.1 h
    have hhead : args.head?.getD [] = name := by rw [List.head?_eq_getElem?, hname, Option.getD_some]
    have htaken (b : Bool) : (Line.directive .section args).takenForText b =
        if occursIn ".text".toList name then true
        else if occursIn ".rodata".toList name then false else b := by
      rw [Line.takenForText, hhead]
    split_ifs at h with htext hrodata
    · obtain rfl := Option.some.inj h
      exact .of_section (by decide) rfl rfl rfl (by rw [htaken, if_pos htext]; rfl)
    · obtain rfl := Option.some.inj h
      exact .of_section (by decide) rfl rfl rfl (by rw [htaken, if_neg htext, if_pos hrodata]; rfl)
    · obtain rfl := Option.some.inj h
      exact .of_section (by decide) rfl rfl rfl (by rw [htaken, if_neg htext, if_neg hrodata])
  | comm =>
    simp only [parseDirective, Option.bind_eq_bind, Option.bind_eq_some_iff] at h
    obtain ⟨name, -, a, -, size, -, b, -, alignment, -, h⟩ := h
    obtain rfl := Option.some.inj h
    exact .of_define (fun _ => rfl) (by decide) rfl rfl rfl rfl
  | zero =>
    rw [parseDirective] at h
    cases hp : s.pendingLabel with
    | none =>
      rw [hp] at h
      obtain rfl := Option.some.inj h
      exact ⟨rfl, by simp [parseUnknown, ParserState.append], by
        cases hf : s.currentFunction with
        | none => rw [parseUnknown, marks_append_of_none hf]
        | some f => simp [parseUnknown, marks_append (s := s) (by rw [hf]; rfl), Node.item],
        fun P hP h => h.append (hP _), rfl, by rw [if_pos (by decide)]; exact hp⟩
    | some name =>
      simp only [hp, Option.bind_eq_bind, Option.bind_eq_some_iff] at h
      obtain ⟨a, -, size, -, h⟩ := h
      obtain rfl := Option.some.inj h
      exact .of_define (fun _ => rfl) (by decide) rfl rfl rfl rfl
  | string =>
    obtain ⟨string, -, h⟩ := Option.bind_eq_some_iff.1 h
    obtain rfl := Option.some.inj h
    exact .of_define (fun _ => rfl) (by decide) rfl rfl rfl rfl

theorem filterMap_of_mapM {args : List Text} {operands : List Operand}
    (h : args.mapM parseOperand = some operands) : args.filterMap parseOperand = operands := by
  induction args generalizing operands with
  | nil => exact Option.some.inj h
  | cons a args ih =>
    simp only [List.mapM_cons, Option.bind_eq_bind, Option.bind_eq_some_iff] at h
    obtain ⟨o, ho, os, hos, h⟩ := h
    rw [List.filterMap_cons_some ho, ih hos]
    exact Option.some.inj h

/-- **Instructions** go to the function that is then being filled. -/
theorem parseInstruction_eq {s s' : ParserState} {op : Text} {args : List Text}
    (h : parseInstruction s op args = some s') :
    s' = (enterFunction s).append (.instruction ⟨op, args.filterMap parseOperand⟩) := by
  obtain ⟨operands, hoperands, h⟩ := Option.bind_eq_some_iff.1 h
  rw [filterMap_of_mapM hoperands]
  exact (Option.some.inj h).symm

theorem parseLabel_filed {s : ParserState} {name : Text} (hsome : s.currentFunction.isSome)
    (hlocal : isLocalName name = true) (hsection : s.currentSection = .text) :
    parseLabel s name = s.append (.label (.new name true)) := by
  rw [parseLabel]
  simp only [hlocal]
  exact if_pos ⟨hsome, trivial, hsection⟩

theorem parseLabel_pending {s : ParserState} {name : Text}
    (h : ¬(s.currentFunction.isSome ∧ isLocalName name ∧ s.currentSection = .text)) :
    parseLabel s name = { s with pendingLabel := some name } := if_neg h

/-- **What the parser puts into the bodies**: local labels, directives, and instructions of operands that it
has read. -/
theorem ParserState.All.run {P : Node → Prop} {s s' : ParserState} {lines : List Line}
    (hlabel : ∀ name, isLocalName name = true → P (.label (.new name true)))
    (hdirective : ∀ d, P (.directive d))
    (hinstruction : ∀ op (args : List Text), P (.instruction ⟨op, args.filterMap parseOperand⟩)) (h : s.All P)
    (hrun : lines.foldlM parseStep s = some s') : s'.All P := by
  induction lines generalizing s with
  | nil =>
    obtain rfl := Option.some.inj hrun
    exact h
  | cons line lines ih =>
    obtain ⟨t, ht, hrest⟩ := Option.bind_eq_some_iff.1 hrun
    refine ih ?_ hrest
    cases line with
    | blank =>
      obtain rfl := Option.some.inj ht
      exact h
    | label name =>
      obtain rfl := Option.some.inj ht
      by_cases hfiled : s.currentFunction.isSome ∧ isLocalName name ∧ s.currentSection = .text
      · rw [parseLabel_filed hfiled.1 hfiled.2.1 hfiled.2.2]
        exact h.append (hlabel name hfiled.2.1)
      · rw [parseLabel_pending hfiled]
        exact h.congr rfl rfl
    | directive kind args => exact (parseDirective_step ht).all _ hdirective h
    | instruction op args =>
      obtain rfl := parseInstruction_eq ht
      refine ParserState.All.append ?_ (hinstruction op args)
      rw [enterFunction]
      split
      · split
        · intro f hf
          simp only [ParserState.functions, ParserState.openFunction, Option.toList_some,
            List.mem_append, List.mem_singleton] at hf
          rcases hf with hf | rfl
          · exact h f (by rw [ParserState.functions]; exact List.mem_append.2 hf)
          · intro n hn
            exact absurd hn List.not_mem_nil
        · exact h
      · exact h

/-- **What the parser has filed it never changes.** -/
theorem marks_prefix_step {s s' : ParserState} {line : Line} (h : parseStep s line = some s') :
    s.marks <+: s'.marks := by
  have happend (t : ParserState) (node : Node) : t.marks <+: (t.append node).marks := by
    cases hf : t.currentFunction with
    | none => rw [marks_append_of_none hf]
    | some f =>
      rw [marks_append (by rw [hf]; rfl)]
      exact List.prefix_append _ _
  cases line with
  | blank =>
    obtain rfl := Option.some.inj h
    exact List.prefix_rfl
  | label name =>
    obtain rfl := Option.some.inj h
    rw [parseLabel]
    split
    · exact happend s _
    · exact List.prefix_rfl
  | directive kind args =>
    rw [(parseDirective_step h).marks]
  | instruction op args =>
    obtain rfl := parseInstruction_eq h
    refine List.IsPrefix.trans ?_ (happend _ _)
    rw [enterFunction]
    split
    · split
      · rw [marks_openFunction]
        exact List.prefix_append _ _
      · exact List.prefix_rfl
    · exact List.prefix_rfl

theorem marks_prefix {s s' : ParserState} {lines : List Line} (h : lines.foldlM parseStep s = some s') :
    s.marks <+: s'.marks := by
  induction lines generalizing s with
  | nil =>
    obtain rfl := Option.some.inj h
    exact List.prefix_rfl
  | cons line lines ih =>
    obtain ⟨t, ht, h⟩ := Option.bind_eq_some_iff.1 h
    exact (marks_prefix_step ht).trans (ih h)

/-! ## The parser along the lines -/

/-- The mark a line stands for. -/
def Line.mark (text : Bool) : Line → List Mark
  | .label name =>
    if text then if isLocalName name then [.item (.label name)] else [.entry name] else []
  | .instruction op args => if text then [.item (.instruction ⟨op, args.filterMap parseOperand⟩)] else []
  | _ => []

theorem marksOf_cons (text : Bool) (line : Line) (lines : List Line) :
    marksOf (codeOf text (line :: lines)) = line.mark text ++ marksOf (codeOf (line.inText text) lines) := by
  cases line with
  | blank | directive => cases text <;> rfl
  | instruction op args => cases text <;> rfl
  | label name =>
    cases text with
    | false => rfl
    | true =>
      rw [codeOf, Line.mark]
      by_cases hlocal : isLocalName name = true
      · simp [hlocal, marksOf]
      · simp [hlocal, marksOf, Code.marks]

/-- What the parser knows is what the lines say. -/
structure Agrees (s : ParserState) (σ : Scan) : Prop where
  taken : decide (s.currentSection = .text) = σ.taken
  text : σ.text → σ.taken
  outside : σ.stage = .outside → s.currentFunction = none
  code : σ.stage = .code → s.currentFunction.isSome
  first : s.currentFunction = none → s.module.functions = []
  entry : σ.stage = .entry →
    σ.text ∧ σ.waiting = false ∧ ∃ f, s.pendingLabel = some f ∧ isLocalName f = false
  waiting : σ.stage ≠ .entry → s.pendingLabel.isSome = σ.waiting

/-- The function whose label has been read, while none of its instructions has. -/
def entryMark (s : ParserState) (σ : Scan) : List Mark :=
  if σ.stage = .entry then s.pendingLabel.toList.map .entry else []

theorem occursIn_of_isTextSection {name : Text} (h : isTextSection name = true) :
    occursIn ".text".toList name = true := by
  refine decide_eq_true ?_
  rcases of_decide_eq_true h with rfl | hext
  · exact List.infix_rfl
  · exact ((List.prefix_append ".text".toList ".".toList).trans hext).isInfix

theorem takenForText_of_inText {line : Line} {text taken : Bool} (h : text = true → taken = true)
    (htext : line.inText text = true) : line.takenForText taken = true := by
  cases line with
  | blank | label | instruction => exact h htext
  | directive kind args =>
    cases kind with
    | «section» => exact if_pos (occursIn_of_isTextSection htext)
    | text => rfl
    | bss | data => exact absurd htext Bool.false_ne_true
    | _ => exact h htext

variable {s s' : ParserState} {σ : Scan} {line : Line} {lines : List Line}

/-- A directive keeps the agreement. -/
theorem Agrees.directive {kind : DirectiveKind} {args : List Text} (h : Agrees s σ)
    (hregular : (Line.directive kind args).Regular σ) (hd : DirectiveStep s kind args s') :
    Agrees s' (σ.step (.directive kind args)) ∧
      entryMark s' (σ.step (.directive kind args)) = entryMark s σ := by
  have hnone : s'.currentFunction = none ↔ s.currentFunction = none := by
    rw [← Option.isNone_iff_eq_none, ← Option.isNone_iff_eq_none, ← Option.not_isSome, ← Option.not_isSome,
      hd.open_iff]
  have hentry (hstage : σ.stage = .entry) :
      s'.pendingLabel = s.pendingLabel ∧ (Line.directive kind args).inText σ.text = σ.text := by
    have hkind := hregular hstage
    refine ⟨by rw [hd.pending, if_neg fun hdata => hkind (List.mem_append_left _ hdata)], ?_⟩
    cases kind with
    | text | bss | data | «section» => exact absurd (by decide) hkind
    | _ => rfl
  refine ⟨⟨?_, takenForText_of_inText h.text, fun hstage => hnone.2 (h.outside hstage),
    fun hstage => hd.open_iff.trans (h.code hstage), fun hf => hd.functions.trans (h.first (hnone.1 hf)),
    fun hstage => ?_, fun hstage => ?_⟩, ?_⟩
  · rw [hd.taken, h.taken]
    rfl
  · obtain ⟨htext, hwaiting, f, hf, hlocal⟩ := h.entry hstage
    exact ⟨(hentry hstage).2.trans htext, by simp [Scan.step, hwaiting], f, (hentry hstage).1.trans hf, hlocal⟩
  · rw [hd.pending]
    by_cases hdata : kind ∈ dataDirectives
    · simp [Scan.step, hdata]
    · rw [if_neg hdata, h.waiting hstage]
      simp [Scan.step, hdata]
  · have hstep : (σ.step (.directive kind args)).stage = σ.stage := rfl
    rw [entryMark, entryMark, hstep]
    by_cases hstage : σ.stage = .entry
    · rw [if_pos hstage, if_pos hstage, (hentry hstage).1]
    · rw [if_neg hstage, if_neg hstage]

/-- A local label that is filed where it stands keeps the agreement. -/
theorem Agrees.localLabel {name : Text} (h : Agrees s σ) (htext : σ.text = true)
    (hlocal : isLocalName name = true) (hstage : σ.stage = .code) :
    Agrees (parseLabel s name) (σ.step (.label name)) ∧
      (parseLabel s name).marks = s.marks ++ [.item (.label name)] := by
  have hsome := h.code hstage
  have hsection : s.currentSection = .text := of_decide_eq_true (h.taken.trans (h.text htext))
  have hstep : (σ.step (.label name)).stage = .code := by simp [Scan.step, hlocal, hstage]
  rw [parseLabel_filed hsome hlocal hsection, marks_append hsome]
  refine ⟨⟨h.taken, h.text, fun ho => ?_, fun _ => ?_, fun hf => ?_, fun he => ?_, fun _ => ?_⟩, rfl⟩
  · rw [hstep] at ho
    contradiction
  · simpa [ParserState.append] using hsome
  · exact absurd hf (by simpa [ParserState.append, Option.isSome_iff_ne_none] using hsome)
  · rw [hstep] at he
    contradiction
  · rw [show (σ.step (.label name)).waiting = σ.waiting by simp [Scan.step, htext, hlocal]]
    exact h.waiting (by simp [hstage])

/-- The label of a function keeps the agreement, and so does one in another section. -/
theorem Agrees.pendingLabel {name : Text} (h : Agrees s σ)
    (hfunction : σ.text = true → isLocalName name = false)
    (hdata : σ.text = false → σ.stage ≠ .entry) :
    Agrees { s with pendingLabel := some name } (σ.step (.label name)) := by
  cases htext : σ.text with
  | true =>
    have hlocal := hfunction htext
    have hstep : (σ.step (.label name)).stage = .entry := by simp [Scan.step, htext, hlocal]
    refine ⟨h.taken, h.text, fun ho => ?_, fun hc => ?_, h.first,
      fun _ => ⟨htext, by simp [Scan.step, htext, hlocal], name, rfl, hlocal⟩,
      fun he => absurd hstep he⟩
    · rw [hstep] at ho
      contradiction
    · rw [hstep] at hc
      contradiction
  | false =>
    have hstep : (σ.step (.label name)).stage = σ.stage := by simp [Scan.step, htext]
    refine ⟨h.taken, h.text, fun ho => h.outside (hstep.symm.trans ho),
      fun hc => h.code (hstep.symm.trans hc), h.first,
      fun he => absurd (hstep.symm.trans he) (hdata htext), fun _ => ?_⟩
    simp [Scan.step, htext]

/-- An instruction of the function that is being filled keeps the agreement, and so does the first one
of a function. -/
theorem Agrees.instruction (h : Agrees s σ) (htext : σ.text = true) (hinside : σ.stage ≠ .outside)
    (hplace : σ.stage = .code → σ.waiting = false) (op : Text) (args : List Text) (i : Instruction) :
    Agrees ((enterFunction s).append (.instruction i)) (σ.step (.instruction op args)) ∧
      ((enterFunction s).append (.instruction i)).marks =
        s.marks ++ entryMark s σ ++ [.item (.instruction i)] := by
  have hsection : s.currentSection = .text := of_decide_eq_true (h.taken.trans (h.text htext))
  -- once the entry has been dealt with, a function is being filled and no label is pending
  have hagrees {t : ParserState} (ht : t.currentFunction.isSome) (htaken : t.currentSection = s.currentSection)
      (hpending : t.pendingLabel = none) (hwaiting : σ.waiting = false) :
      Agrees (t.append (.instruction i)) (σ.step (.instruction op args)) := by
    have hstep : (σ.step (.instruction op args)).stage = .code := rfl
    refine ⟨?_, h.text, fun ho => ?_, fun _ => ?_, fun hf => ?_, fun he => ?_, fun _ => ?_⟩
    · exact (congrArg (fun x => decide (x = Section.text)) htaken).trans h.taken
    · rw [hstep] at ho
      contradiction
    · simpa [ParserState.append] using ht
    · exact absurd hf (by simpa [ParserState.append, Option.isSome_iff_ne_none] using ht)
    · rw [hstep] at he
      contradiction
    · exact (congrArg Option.isSome hpending).trans hwaiting.symm
  cases hstage : σ.stage with
  | outside => exact absurd hstage hinside
  | entry =>
    obtain ⟨-, hwaiting, f, hf, -⟩ := h.entry hstage
    have henter : enterFunction s = s.openFunction f := by rw [enterFunction, hf]; exact if_pos hsection
    rw [henter]
    refine ⟨hagrees rfl rfl rfl hwaiting, ?_⟩
    rw [marks_append rfl, marks_openFunction, entryMark, if_pos hstage, hf]
    rfl
  | code =>
    have hpending : s.pendingLabel = none := by
      rw [← Option.isNone_iff_eq_none, ← Option.not_isSome, h.waiting (by simp [hstage]), hplace hstage]
      rfl
    have henter : enterFunction s = s := by rw [enterFunction, hpending]
    rw [henter]
    refine ⟨hagrees (h.code hstage) rfl hpending (hplace hstage), ?_⟩
    rw [marks_append (h.code hstage), entryMark, if_neg (by simp [hstage]), List.append_nil]
    rfl

/-- **One line that is filed where it stands.** -/
theorem Agrees.step (h : Agrees s σ) (hregular : line.Regular σ) (hplace : line.InPlace σ)
    (hstep : parseStep s line = some s') :
    Agrees s' (σ.step line) ∧
      s'.marks ++ entryMark s' (σ.step line) = s.marks ++ entryMark s σ ++ line.mark σ.text := by
  cases line with
  | blank =>
    obtain rfl := Option.some.inj hstep
    exact ⟨⟨h.taken, h.text, h.outside, h.code, h.first, h.entry, h.waiting⟩, (List.append_nil _).symm⟩
  | directive kind args =>
    have hd := parseDirective_step hstep
    obtain ⟨hagrees, hentry⟩ := h.directive hregular hd
    exact ⟨hagrees, by rw [hentry, hd.marks]; exact (List.append_nil _).symm⟩
  | label name =>
    obtain rfl := Option.some.inj hstep
    cases htext : σ.text with
    | true =>
      cases hlocal : isLocalName name with
      | true =>
        have hstage : σ.stage = .code := by
          have hne := hplace hlocal
          have hout := hregular htext
          rw [if_pos htext] at hne
          rw [if_pos hlocal] at hout
          cases hs : σ.stage with
          | outside => exact absurd hs hout.1
          | entry => exact absurd hs hne
          | code => rfl
        obtain ⟨hagrees, hmarks⟩ := h.localLabel htext hlocal hstage
        refine ⟨hagrees, ?_⟩
        simp [hmarks, entryMark, Scan.step, hlocal, hstage, Line.mark]
      | false =>
        have hstage := hregular htext
        rw [if_neg (by simp [hlocal])] at hstage
        rw [parseLabel_pending (by simp [hlocal])]
        refine ⟨h.pendingLabel (fun _ => hlocal) (by simp [htext]), ?_⟩
        simp [entryMark, Scan.step, hlocal, hstage, htext, Line.mark, ParserState.marks,
          ParserState.functions]
    | false =>
      have hstage : σ.stage ≠ .entry := fun he => absurd (h.entry he).1 (by simp [htext])
      rw [parseLabel_pending]
      · refine ⟨h.pendingLabel (by simp [htext]) fun _ => hstage, ?_⟩
        simp [entryMark, Scan.step, hstage, htext, Line.mark, ParserState.marks, ParserState.functions]
      · rintro ⟨hsome, hlocal, hsection⟩
        have hne := hplace hlocal
        rw [if_neg (by simp [htext])] at hne
        refine hne ⟨h.taken.symm.trans (decide_eq_true hsection), ?_⟩
        cases hs : σ.stage with
        | outside => simp [h.outside hs] at hsome
        | entry => exact absurd hs hstage
        | code => rfl
  | instruction op args =>
    obtain rfl := parseInstruction_eq hstep
    obtain ⟨hagrees, hmarks⟩ := h.instruction hregular.1 hregular.2.1 hplace op args
      ⟨op, args.filterMap parseOperand⟩
    refine ⟨hagrees, ?_⟩
    rw [hmarks, Line.mark, if_pos hregular.1]
    exact List.append_nil _

/-! ## Lines that are not filed where they stand -/

theorem head?_of_extends {α : Type} {x : α} {l l' : List α} (h : x :: l <+: l') : l'.head? = some x := by
  obtain ⟨t, rfl⟩ := h
  rfl

/-- **A local label at the entry of the first function** takes the place of the function's own. -/
theorem head_of_local_pending {p f : Text} (hregular : Along (fun σ l => l.Regular σ) σ lines)
    (hrun : lines.foldlM parseStep s = some s') (hnone : s.currentFunction = none)
    (hfunctions : s.module.functions = []) (hsection : s.currentSection = .text)
    (hpending : s.pendingLabel = some p) (hp : isLocalName p = true) (hstage : σ.stage = .entry)
    (htext : σ.text = true) (hf : isLocalName f = false) :
    s'.marks.head? ≠ some (.entry f) := by
  induction lines generalizing s σ p with
  | nil =>
    obtain rfl := Option.some.inj hrun
    simp [marks_of_none hfunctions hnone]
  | cons line lines ih =>
    obtain ⟨hline, hregular⟩ := hregular
    obtain ⟨t, ht, hrest⟩ := Option.bind_eq_some_iff.1 hrun
    cases line with
    | blank =>
      obtain rfl := Option.some.inj ht
      exact ih hregular hrest hnone hfunctions hsection hpending hp hstage htext
    | label name =>
      obtain rfl := Option.some.inj ht
      cases hlocal : isLocalName name with
      | true =>
        rw [parseLabel_pending (by simp [hnone])] at hrest
        exact ih hregular hrest hnone hfunctions hsection rfl hlocal (by simp [Scan.step, hlocal, hstage]) htext
      | false =>
        have hne := hline htext
        rw [if_neg (by simp [hlocal])] at hne
        exact absurd hstage hne
    | directive kind args =>
      have hkind := hline hstage
      have hd := parseDirective_step ht
      have hplain (b : Bool) :
          (Line.directive kind args).inText b = b ∧ (Line.directive kind args).takenForText b = b := by
        cases kind with
        | text | bss | data | «section» => exact absurd (by decide) hkind
        | _ => exact ⟨rfl, rfl⟩
      refine ih (p := p) hregular hrest ?_ (hd.functions.trans hfunctions) ?_ ?_ hp hstage
        ((hplain _).1.trans htext)
      · rw [← Option.isNone_iff_eq_none, ← Option.not_isSome, hd.open_iff, hnone]
        rfl
      · exact of_decide_eq_true (hd.taken.trans ((hplain _).2.trans (decide_eq_true hsection)))
      · rw [hd.pending, if_neg fun hdata => hkind (List.mem_append_left _ hdata), hpending]
    | instruction op args =>
      obtain rfl := parseInstruction_eq ht
      have henter : enterFunction s = s.openFunction p := by
        rw [enterFunction, hpending]
        exact if_pos hsection
      have hmarks := marks_prefix hrest
      rw [henter, marks_append rfl, marks_openFunction, marks_of_none hfunctions hnone] at hmarks
      rw [head?_of_extends hmarks]
      rintro heq
      obtain rfl := Mark.entry.inj (Option.some.inj heq)
      simp [hp] at hf

/-- The local labels in the code of the lines are among theirs. -/
theorem mem_localLabels_of_mem_marks {text : Bool} {name : Text}
    (h : .item (.label name) ∈ marksOf (codeOf text lines)) : name ∈ localLabels lines := by
  induction lines generalizing text with
  | nil => simp [codeOf, marksOf] at h
  | cons line lines ih =>
    rw [marksOf_cons, List.mem_append] at h
    rcases h with h | h
    · cases line with
      | label l =>
        rw [Line.mark] at h
        split at h
        · split at h
          · rename_i hlocal
            simp only [List.mem_singleton, Mark.item.injEq, Item.label.injEq] at h
            subst h
            simp [localLabels, hlocal]
          · simp at h
        · simp at h
      | instruction op args =>
        rw [Line.mark] at h
        split at h <;> simp at h
      | _ => simp [Line.mark] at h
    · have hmem := ih h
      rw [localLabels, List.filterMap_cons]
      split
      · exact hmem
      · exact List.mem_cons_of_mem _ hmem

theorem eq_of_shape_label {m : Mark} {name : Text} (h : m.shape = .item (.label name)) :
    m = .item (.label name) := by
  rcases m with n | _ | _
  · exact h
  · exact h
  · simp [Mark.shape] at h

/-- Where two sequences part, one of them continues with the next mark of the other. -/
theorem head?_of_shape {a b m : List Mark} {x : Mark} (hext : a ++ [x] <+: m)
    (heq : m.map Mark.shape = (a ++ b).map Mark.shape) : (b.map Mark.shape).head? = some x.shape := by
  obtain ⟨t, rfl⟩ := hext
  rw [List.append_assoc, List.map_append, List.map_append, List.map_append, List.append_cancel_left_eq] at heq
  rw [← heq]
  rfl

/-- **A line that is not filed where it stands** cannot be made up for. -/
theorem Agrees.misplaced (h : Agrees s σ)
    (hregular : Along (fun σ l => l.Regular σ) σ (line :: lines)) (hnodup : (localLabels (line :: lines)).Nodup)
    (hplace : ¬line.InPlace σ) (hrun : (line :: lines).foldlM parseStep s = some s') :
    s'.marks.map Mark.shape ≠
      (s.marks ++ entryMark s σ ++ marksOf (codeOf σ.text (line :: lines))).map Mark.shape := by
  obtain ⟨hline, hregular⟩ := hregular
  obtain ⟨t, ht, hrest⟩ := Option.bind_eq_some_iff.1 hrun
  have hext := marks_prefix hrest
  intro heq
  cases line with
  | blank | directive => exact hplace trivial
  | label name =>
    obtain rfl := Option.some.inj ht
    obtain ⟨hlocal, hplace⟩ := Classical.not_imp.1 hplace
    cases htext : σ.text with
    | true =>
      -- the entry of a function is due, and the label is filed or held instead
      rw [if_pos htext, not_not] at hplace
      obtain ⟨-, -, f, hf, hnot⟩ := h.entry hplace
      have hsection : s.currentSection = .text := of_decide_eq_true (h.taken.trans (h.text htext))
      rw [entryMark, if_pos hplace, hf, List.append_assoc] at heq
      cases hfun : s.currentFunction with
      | none =>
        rw [parseLabel_pending (by simp [hfun])] at hrest
        have hstage : (σ.step (.label name)).stage = .entry := by simp [Scan.step, hlocal, hplace]
        refine head_of_local_pending hregular hrest hfun (h.first hfun) hsection rfl hlocal hstage htext hnot ?_
        rw [marks_of_none (h.first hfun) hfun] at heq
        rcases hm : s'.marks with _ | ⟨m, ms⟩
        · rw [hm] at heq
          contradiction
        · rw [hm] at heq
          have hm : m.shape = .entry f := (List.cons.inj heq).1
          rcases m with n | _ | _
          · rw [List.head?_cons, ← hm]
            rfl
          · simp [Mark.shape] at hm
          · simp [Mark.shape] at hm
      | some g =>
        rw [parseLabel_filed (by simp [hfun]) hlocal hsection, marks_append (by simp [hfun])] at hext
        simpa [Mark.shape] using head?_of_shape hext heq
    | false =>
      -- the label is filed, and no code of the module has it
      rw [if_neg (by simp [htext]), not_not] at hplace
      have hsome := h.code hplace.2
      have hsection : s.currentSection = .text := of_decide_eq_true (h.taken.trans hplace.1)
      rw [parseLabel_filed hsome hlocal hsection, marks_append hsome] at hext
      rw [entryMark, if_neg (by simp [hplace.2]), List.append_nil, htext, marksOf_cons] at heq
      have hhead := head?_of_shape hext heq
      rw [List.head?_map, Option.map_eq_some_iff] at hhead
      obtain ⟨m, hm, hshape⟩ := hhead
      have hmem := mem_localLabels_of_mem_marks (eq_of_shape_label hshape ▸ List.mem_of_head? hm)
      have hcons : localLabels (.label name :: lines) = name :: localLabels lines := by simp [localLabels, hlocal]
      rw [hcons, List.nodup_cons] at hnodup
      exact hnodup.1 hmem
  | instruction op args =>
    -- another function is opened
    obtain ⟨hstage, hwaiting⟩ := Classical.not_imp.1 hplace
    obtain ⟨d, hd⟩ : ∃ d, s.pendingLabel = some d := by
      rw [← Option.isSome_iff_exists, h.waiting (by simp [hstage])]
      simpa using hwaiting
    have hsection : s.currentSection = .text := of_decide_eq_true (h.taken.trans (h.text hline.1))
    obtain rfl := parseInstruction_eq ht
    have henter : enterFunction s = s.openFunction d := by rw [enterFunction, hd]; exact if_pos hsection
    rw [henter, marks_append rfl, marks_openFunction] at hext
    rw [entryMark, if_neg (by simp [hstage]), List.append_nil, marksOf_cons, Line.mark, if_pos hline.1] at heq
    simpa [Mark.shape] using head?_of_shape ((List.prefix_append _ _).trans hext) heq

/-- **What the parser files is the code of the source**, as long as every line is filed where it stands;
and otherwise it is not, however the source goes on. -/
theorem parse_marks (h : Agrees s σ) (hregular : Along (fun σ l => l.Regular σ) σ lines)
    (hcomplete : (lines.foldl Scan.step σ).stage ≠ .entry) (hnodup : (localLabels lines).Nodup)
    (hrun : lines.foldlM parseStep s = some s') :
    (Along (fun σ l => l.InPlace σ) σ lines ∧
        s'.marks = s.marks ++ entryMark s σ ++ marksOf (codeOf σ.text lines)) ∨
      (¬Along (fun σ l => l.InPlace σ) σ lines ∧
        s'.marks.map Mark.shape ≠ (s.marks ++ entryMark s σ ++ marksOf (codeOf σ.text lines)).map Mark.shape) := by
  induction lines generalizing s σ with
  | nil =>
    obtain rfl := Option.some.inj hrun
    refine .inl ⟨trivial, ?_⟩
    rw [entryMark, if_neg (show σ.stage ≠ .entry from hcomplete)]
    simp [codeOf, marksOf]
  | cons line lines ih =>
    by_cases hplace : line.InPlace σ
    · obtain ⟨t, ht, hrest⟩ := Option.bind_eq_some_iff.1 hrun
      obtain ⟨hagrees, hmarks⟩ := h.step hregular.1 hplace ht
      have hnodup' : (localLabels lines).Nodup := by
        rw [localLabels, List.filterMap_cons] at hnodup
        split at hnodup
        · exact hnodup
        · exact (List.nodup_cons.1 hnodup).2
      rcases ih hagrees hregular.2 hcomplete hnodup' hrest with ⟨halong, heq⟩ | ⟨halong, hne⟩
      · refine .inl ⟨⟨hplace, halong⟩, ?_⟩
        rw [heq, hmarks, marksOf_cons, List.append_assoc _ _ (marksOf _)]
        rfl
      · refine .inr ⟨fun hall => halong hall.2, ?_⟩
        rw [marksOf_cons, ← List.append_assoc _ (Line.mark _ _), ← hmarks]
        exact hne
    · exact .inr ⟨fun hall => hplace hall.1, h.misplaced hregular hnodup hplace hrun⟩

end RiscyOS.GasToJim
