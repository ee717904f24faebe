import Mathlib.Data.Finset.Card
import Mathlib.Data.Finset.Dedup
import Mathlib.Data.List.TakeWhile
import RiscyOS.GasToJim.CollapseSpec
import RiscyOS.GasToJim.Lines
import RiscyOS.GasToJim.Placement

/-!
# String constants, up to the parser

A `.string` goes through the tokeniser first, which knows nothing of quotes: it ends lines where
`splitlines` does, cuts them at a `#`, splits them at commas and takes tabs for spaces.  What is left is
defined under a name that is made up from the text and from how many labels have been entered in
`str_table`, and entered under the label that is then in wait.

Which label that is depends on the lines before, but not on much of them: `Filing` is what there is to
know.  With it, `parse_strings` says what the parser makes of a source whose texts are plain, and
`parse_free` that of a text that is not plain nothing comes out whole.
-/

set_option autoImplicit false

namespace RiscyOS.GasToJim

/-! ## What is defined -/

/-- The name that is made up for a text. -/
def stringName (text : Text) (n : Nat) : Text := text ++ "_".toList ++ "str_".toList ++ strInt n

/-- The bytes of a definition, as it is printed: `defb "...\0"` for a string that is not empty, and else
`defs`. -/
def DataDefinition.bytes (d : DataDefinition) : Text :=
  match d.string with
  | some (c :: t) => (c :: t) ++ ['\x00']
  | _ => List.replicate d.size.toNat '\x00'

/-- The definitions that come from a `.string`. -/
def AsmModule.stringDefs (m : AsmModule) : List DataDefinition := m.dataDefs.filter (·.string.isSome)

/-! ## The source -/

/-- The label, if the line is one. -/
def Line.label? : Line → Option Text
  | .label name => some name
  | .blank | .directive _ _ | .instruction _ _ => none

/-- A `.string` with the labels on it, or any other line. -/
inductive GasLine
  | string (labels : List Text) (text : Text)
  | other (line : Text)
  deriving DecidableEq

namespace GasLine

/-- `.string "text"`. -/
def directive (text : Text) : Text := '\t' :: (".string".toList ++ '\t' :: '"' :: (text ++ ['"']))

/-- How it is written. -/
def texts : GasLine → List Text
  | .string labels text => labels.map (· ++ [':']) ++ [directive text]
  | .other line => [line]

/-- What the tokeniser is to make of it. -/
def lines : GasLine → List Line
  | .string labels text => labels.map Line.label ++ [.directive .string ['"' :: (text ++ ['"'])]]
  | .other line => [(tokenise line).line]

/-- The labels it defines. -/
def labels (l : GasLine) : List Text := l.lines.filterMap Line.label?

/-- Its text, if it is a `.string`. -/
def text? : GasLine → Option Text
  | .string _ text => some text
  | .other _ => none

/-- There is no escape in a text, labels have no spaces, and another line is one line and no
`.string`. -/
def Valid : GasLine → Prop
  | .string labels text => (∀ c ∈ text, c ≠ '"' ∧ c ≠ '\\') ∧
      ∀ l ∈ labels, l ≠ [] ∧ l.head? ≠ some '#' ∧ (∀ c ∈ l, isSpace c = false) ∧ ¬ ".LANCHOR".toList <+: l
  | .other line => (∀ c ∈ line, isLineBreak c = false) ∧ ∀ args, (tokenise line).line ≠ .directive .string args

end GasLine

/-- The source as a text. -/
def gasSource (lines : List GasLine) : Text := unlines (lines.flatMap GasLine.texts)

/-- The texts of its `.string` directives. -/
def textsOf (lines : List GasLine) : List Text := lines.filterMap GasLine.text?

/-- **A text that comes through**: it is not empty, and nothing in it means anything to the tokeniser. -/
def Plain (text : Text) : Prop :=
  text ≠ [] ∧ ∀ c ∈ text, c ≠ '#' ∧ c ≠ ',' ∧ c ≠ '\t' ∧ isLineBreak c = false

instance (text : Text) : Decidable (Plain text) := inferInstanceAs (Decidable (_ ∧ _))

/-! ## What the parser believes -/

/-- Whether `parse` believes itself in code, whether it is filling a function, and the label in wait. -/
structure Filing where
  taken : Bool := false
  inFunction : Bool := false
  waiting : Option Text := none
  deriving DecidableEq

/-- A line later. -/
def Filing.step (φ : Filing) : Line → Filing
  | .blank => φ
  | .label name => if φ.inFunction ∧ isLocalName name ∧ φ.taken then φ else { φ with waiting := some name }
  | .directive kind args =>
    { φ with
      taken := (Line.directive kind args).takenForText φ.taken
      waiting := if kind ∈ dataDirectives then none else φ.waiting }
  | .instruction _ _ => if φ.waiting.isSome ∧ φ.taken then { φ with inFunction := true, waiting := none } else φ

/-- Lines later. -/
def Filing.steps (φ : Filing) (lines : List Line) : Filing := lines.foldl Filing.step φ

/-- The labels that the directives are entered under. -/
def filedUnder : Filing → List GasLine → List (Option Text)
  | _, [] => []
  | φ, .string labels text :: rest =>
    (φ.steps (labels.map Line.label)).waiting :: filedUnder (φ.steps (GasLine.string labels text).lines) rest
  | φ, .other line :: rest => filedUnder (φ.steps (GasLine.other line).lines) rest

/-- The label that a directive is entered under, after the lines before it and the labels on it. -/
def waitingAt (before : List GasLine) (labels : List Text) : Option Text :=
  (({} : Filing).steps (before.flatMap GasLine.lines ++ labels.map Line.label)).waiting

/-- How many different labels there have been before each of them. -/
def filedCounts : List (Option Text) → List (Option Text) → List Nat
  | _, [] => []
  | before, key :: keys => before.dedup.length :: filedCounts (before ++ [key]) keys

/-- What `parse` has made of the strings so far: what it believes, `str_table`, and each definition's
name and text. -/
structure Strings where
  filing : Filing := {}
  table : List (Option Text × Text) := []
  defs : List (Text × Text) := []

/-- A line later. -/
def Strings.step (σ : Strings) : GasLine → Strings
  | .string labels text =>
    let name := stringName text σ.table.length
    { filing := σ.filing.steps (GasLine.string labels text).lines
      table := dictSet (σ.filing.steps (labels.map Line.label)).waiting name σ.table
      defs := σ.defs ++ [(name, text)] }
  | .other line => { σ with filing := σ.filing.steps (GasLine.other line).lines }

/-! ## The tokeniser -/

section Tokenise

variable {text line t : Text} {x : Char}

theorem isSpace_of_isLineBreak {c : Char} (h : isLineBreak c = true) : isSpace c = true := by
  simp only [isLineBreak, isSpace, decide_eq_true_eq, List.mem_cons, List.not_mem_nil, or_false] at h ⊢
  omega

theorem split_single (h : ∀ c ∈ t, c ≠ x) : split x t = [t] := by
  induction t with
  | nil => rfl
  | cons c t ih =>
    obtain ⟨hc, ht⟩ := List.forall_mem_cons.1 h
    rw [split, if_neg hc, ih ht]

/-- A quoted text is as it is. -/
theorem strip_quoted (text : Text) : strip ('"' :: (text ++ ['"'])) = '"' :: (text ++ ['"']) := by
  have hlast : ('"' :: (text ++ ['"'])).getLast? = some '"' := by
    rw [← List.cons_append, List.getLast?_append_of_ne_nil _ (List.cons_ne_nil _ _)]
    rfl
  refine strip_append (a := []) nofun (fun c hc => ?_) (fun c hc => ?_)
  · obtain rfl := Option.some.inj (hc : some '"' = some c)
    decide
  · obtain rfl := Option.some.inj (hlast.symm.trans hc)
    decide

/-- **A plain text** comes through the tokeniser. -/
theorem tokenise_directive (h : Plain text) :
    (tokenise (GasLine.directive text)).line = .directive .string ['"' :: (text ++ ['"'])] := by
  obtain ⟨-, hchars⟩ := h
  have hquoted : ∀ {P : Char → Prop}, P '"' → (∀ c ∈ text, P c) → ∀ c ∈ '"' :: (text ++ ['"']), P c :=
    fun hquote htext => List.forall_mem_cons.2
      ⟨hquote, List.forall_mem_append.2 ⟨htext, List.forall_mem_singleton.2 hquote⟩⟩
  have hmap : (GasLine.directive text).map (fun c => if c = '\t' then ' ' else c) =
      [' '] ++ (".string".toList ++ ' ' :: '"' :: (text ++ ['"'])) := by
    have htext : text.map (fun c => if c = '\t' then ' ' else c) = text :=
      (List.map_congr_left fun c hc => if_neg (hchars c hc).2.2.1).trans (List.map_id text)
    simp only [GasLine.directive, List.map_cons, List.map_append, htext]
    rfl
  have hlast : (".string".toList ++ ' ' :: '"' :: (text ++ ['"'])).getLast? = some '"' := by
    rw [List.getLast?_append_of_ne_nil _ (List.cons_ne_nil _ _), ← List.cons_append, ← List.cons_append,
      List.getLast?_append_of_ne_nil _ (List.cons_ne_nil _ _)]
    rfl
  have hstrip : strip ([' '] ++ (".string".toList ++ ' ' :: '"' :: (text ++ ['"']))) =
      ".string".toList ++ ' ' :: '"' :: (text ++ ['"']) := by
    refine strip_append (by decide) (fun c hc => ?_) (fun c hc => ?_)
    · obtain rfl := Option.some.inj (hc : some '.' = some c)
      decide
    · obtain rfl := Option.some.inj (hlast.symm.trans hc)
      decide
  have htake : (".string".toList ++ ' ' :: '"' :: (text ++ ['"'])).takeWhile (· ≠ '#') =
      ".string".toList ++ ' ' :: '"' :: (text ++ ['"']) := by
    refine List.takeWhile_eq_self_iff.2 fun c hc => decide_eq_true ?_
    rcases List.mem_append.1 hc with hc | hc
    · rintro rfl
      exact absurd hc (by decide)
    · rcases List.mem_cons.1 hc with rfl | hc
      · decide
      · exact hquoted (by decide) (fun c hc => (hchars c hc).1) c hc
  have hop : (".string".toList ++ ' ' :: '"' :: (text ++ ['"'])).takeWhile (fun c => !isSpace c) =
      ".string".toList := takeWhile_run (by decide) (by simp; decide)
  have hrest : (".string".toList ++ ' ' :: '"' :: (text ++ ['"'])).dropWhile (fun c => !isSpace c) =
      ' ' :: '"' :: (text ++ ['"']) := dropWhile_run (by decide) (by simp; decide)
  have hargs : (' ' :: '"' :: (text ++ ['"'])).dropWhile isSpace = '"' :: (text ++ ['"']) :=
    dropWhile_run (w := [' ']) (by decide) (by simp; decide)
  have hsplit : split ',' ('"' :: (text ++ ['"'])) = ['"' :: (text ++ ['"'])] :=
    split_single (hquoted (by decide) fun c hc => (hchars c hc).2.1)
  have hcolon : (some '"' : Option Char) ≠ some ':' := by decide
  rw [tokenise, hmap, hstrip]
  dsimp only
  rw [if_neg (by simp), if_neg (by simp), hlast, if_neg hcolon, htake, hop, hrest, hargs, hsplit,
    List.map_singleton, strip_quoted, if_neg (List.cons_ne_nil _ _)]
  rfl

/-- `strip` only takes away. -/
theorem mem_of_mem_strip {c : Char} (h : c ∈ strip t) : c ∈ t := by
  rw [strip, List.mem_reverse] at h
  have h := List.mem_reverse.1 ((List.dropWhile_sublist _).mem h)
  exact (List.dropWhile_sublist _).mem h

theorem mem_of_mem_split {a : Text} {c : Char} (ha : a ∈ split x t) (hc : c ∈ a) : c ∈ t ∧ c ≠ x := by
  induction t generalizing a with
  | nil =>
    obtain rfl := List.mem_singleton.1 ha
    exact absurd hc List.not_mem_nil
  | cons y t ih =>
    rw [split] at ha
    split at ha
    · rcases List.mem_cons.1 ha with rfl | ha
      · exact absurd hc List.not_mem_nil
      · exact (ih ha hc).imp_left (List.mem_cons_of_mem _)
    · rename_i hy
      have hcons : ∀ {w : Text}, w ∈ split x t ∨ w = [] → c ∈ y :: w → c ∈ y :: t ∧ c ≠ x := by
        intro w hw hc
        rcases List.mem_cons.1 hc with rfl | hc
        · exact ⟨List.mem_cons_self, hy⟩
        · rcases hw with hw | rfl
          · exact (ih hw hc).imp_left (List.mem_cons_of_mem _)
          · exact absurd hc List.not_mem_nil
      split at ha
      · obtain rfl := List.mem_singleton.1 ha
        exact hcons (Or.inr rfl) hc
      · rename_i w ws hsplit
        rcases List.mem_cons.1 ha with rfl | ha
        · exact hcons (Or.inl (hsplit ▸ List.mem_cons_self)) hc
        · exact (ih (hsplit ▸ List.mem_cons_of_mem _ ha) hc).imp_left (List.mem_cons_of_mem _)

theorem splitlines_no_break : ∀ l ∈ splitlines t, ∀ c ∈ l, isLineBreak c = false := by
  fun_induction splitlines t with
  | case1 => nofun
  | case2 t ih => exact List.forall_mem_cons.2 ⟨nofun, ih⟩
  | case3 c t _ hc ih => exact List.forall_mem_cons.2 ⟨nofun, ih⟩
  | case4 c t _ hc hsplit ih =>
    exact List.forall_mem_singleton.2 (List.forall_mem_singleton.2 (by simpa using hc))
  | case5 c t _ hc l ls hsplit ih =>
    rw [hsplit] at ih
    obtain ⟨hl, hls⟩ := List.forall_mem_cons.1 ih
    exact List.forall_mem_cons.2 ⟨List.forall_mem_cons.2 ⟨by simpa using hc, hl⟩, hls⟩

/-- **Arguments are free** of what means something to the tokeniser. -/
theorem tokenise_args (h : ∀ c ∈ line, isLineBreak c = false) {a : Text} (ha : a ∈ (tokenise line).args) :
    ∀ c ∈ a, c ≠ '#' ∧ c ≠ ',' ∧ c ≠ '\t' ∧ isLineBreak c = false := by
  intro c hc
  rw [tokenise] at ha
  dsimp only at ha
  split_ifs at ha
  all_goals try exact absurd ha List.not_mem_nil
  obtain ⟨b, hb, rfl⟩ := List.mem_map.1 ha
  obtain ⟨hmem, hcomma⟩ := mem_of_mem_split hb (mem_of_mem_strip hc)
  have hcut := (List.dropWhile_sublist _).mem ((List.dropWhile_sublist _).mem hmem)
  have hhash : c ≠ '#' := by simpa using List.mem_takeWhile_imp hcut
  have hline := mem_of_mem_strip ((List.takeWhile_sublist _).mem hcut)
  obtain ⟨d, hd, rfl⟩ := List.mem_map.1 hline
  refine ⟨hhash, hcomma, ?_⟩
  split
  · decide
  · rename_i htab
    exact ⟨htab, h d hd⟩

/-- A label comes through. -/
theorem tokenise_label (hne : t ≠ []) (hhash : t.head? ≠ some '#') (hspace : ∀ c ∈ t, isSpace c = false) :
    (tokenise (t ++ [':'])).line = .label t := by
  have hall : ∀ c ∈ t ++ [':'], isSpace c = false :=
    List.forall_mem_append.2 ⟨hspace, List.forall_mem_singleton.2 (by decide)⟩
  have hmap : (t ++ [':']).map (fun c => if c = '\t' then ' ' else c) = t ++ [':'] := by
    refine (List.map_congr_left fun c hc => if_neg ?_).trans (List.map_id _)
    rintro rfl
    exact absurd (hall _ hc) (by decide)
  have hstrip : strip (t ++ [':']) = t ++ [':'] :=
    strip_append (a := []) nofun (fun c hc => hall c (List.mem_of_mem_head? hc))
      fun c hc => hall c (List.mem_of_mem_getLast? hc)
  obtain ⟨c, name, rfl⟩ := List.exists_cons_of_ne_nil hne
  have hlast : (c :: name ++ [':']).getLast? = some ':' := by
    rw [List.getLast?_append_of_ne_nil _ (List.cons_ne_nil _ _)]
    rfl
  rw [tokenise, hmap, hstrip]
  dsimp only
  rw [if_neg (by simp), if_neg (by simpa using hhash), if_pos hlast, List.dropLast_concat]
  rfl

/-- **The lines of a source** whose texts are plain. -/
theorem sourceLines_gasSource {lines : List GasLine} (hvalid : ∀ l ∈ lines, l.Valid)
    (hplain : ∀ t ∈ textsOf lines, Plain t) : sourceLines (gasSource lines) = lines.flatMap GasLine.lines := by
  have hbreak : ∀ t ∈ lines.flatMap GasLine.texts, ∀ c ∈ t, isLineBreak c = false := by
    intro t ht
    obtain ⟨l, hl, ht⟩ := List.mem_flatMap.1 ht
    cases l with
    | string labels text =>
      obtain ⟨-, hlabels⟩ := hvalid _ hl
      have htext := hplain text (List.mem_filterMap.2 ⟨_, hl, rfl⟩)
      rcases List.mem_append.1 ht with ht | ht
      · obtain ⟨name, hname, rfl⟩ := List.mem_map.1 ht
        refine List.forall_mem_append.2 ⟨fun c hc => ?_, by decide⟩
        exact Bool.eq_false_iff.2 fun h =>
          Bool.eq_false_iff.1 ((hlabels name hname).2.2.1 c hc) (isSpace_of_isLineBreak h)
      · obtain rfl := List.mem_singleton.1 ht
        exact List.forall_mem_cons.2 ⟨by decide, List.forall_mem_append.2 ⟨by decide, List.forall_mem_cons.2
          ⟨by decide, List.forall_mem_cons.2 ⟨by decide, List.forall_mem_append.2
            ⟨fun c hc => (htext.2 c hc).2.2.2, by decide⟩⟩⟩⟩⟩
    | other line =>
      obtain rfl := List.mem_singleton.1 ht
      exact (hvalid _ hl).1
  rw [sourceLines, rawLines, gasSource, splitlines_unlines hbreak, List.map_map, List.map_flatMap]
  refine List.flatMap_congr fun l hl => ?_
  cases l with
  | string labels text =>
    obtain ⟨-, hlabels⟩ := hvalid _ hl
    have htext := hplain text (List.mem_filterMap.2 ⟨_, hl, rfl⟩)
    rw [GasLine.texts, List.map_append, List.map_map, List.map_singleton, Function.comp_apply,
      tokenise_directive htext]
    refine congrArg (· ++ _) (List.map_congr_left fun t ht => ?_)
    obtain ⟨hne, hhash, hspace, -⟩ := hlabels t ht
    exact tokenise_label hne hhash hspace
  | other line => rfl

end Tokenise

/-! ## The parser -/

section Parser

variable {s s' : ParserState} {line : Line}

/-- What a state of the parser believes. -/
def ParserState.filing (s : ParserState) : Filing :=
  ⟨decide (s.currentSection = .text), s.currentFunction.isSome, s.pendingLabel⟩

theorem filing_parseStep (h : parseStep s line = some s') : s'.filing = s.filing.step line := by
  cases line with
  | blank =>
    obtain rfl := Option.some.inj h
    rfl
  | label name =>
    obtain rfl := Option.some.inj h
    by_cases hfiled : s.currentFunction.isSome ∧ isLocalName name ∧ s.currentSection = .text
    · rw [parseLabel_filed hfiled.1 hfiled.2.1 hfiled.2.2, Filing.step,
        if_pos ⟨hfiled.1, hfiled.2.1, decide_eq_true hfiled.2.2⟩]
      simp [ParserState.filing, ParserState.append, hfiled.2.2]
    · have hnot : ¬ (s.filing.inFunction ∧ isLocalName name ∧ s.filing.taken) :=
        fun h => hfiled ⟨h.1, h.2.1, of_decide_eq_true h.2.2⟩
      rw [parseLabel_pending hfiled, Filing.step, if_neg hnot]
      rfl
  | directive kind args =>
    have hstep := parseDirective_step h
    rw [ParserState.filing, hstep.taken, hstep.open_iff, hstep.pending]
    rfl
  | instruction op args =>
    obtain rfl := parseInstruction_eq h
    rw [enterFunction, Filing.step]
    cases hp : s.pendingLabel with
    | none => simp [ParserState.filing, ParserState.append, hp]
    | some name =>
      by_cases hsection : s.currentSection = .text
      · simp [ParserState.filing, ParserState.append, ParserState.openFunction, hp, hsection]
      · simp [ParserState.filing, ParserState.append, hp, hsection]

theorem filing_run {lines : List Line} (h : lines.foldlM parseStep s = some s') :
    s'.filing = s.filing.steps lines := by
  induction lines generalizing s with
  | nil =>
    obtain rfl := Option.some.inj h
    rfl
  | cons line lines ih =>
    obtain ⟨t, ht, h⟩ := Option.bind_eq_some_iff.1 h
    rw [ih h, filing_parseStep ht]
    rfl

/-- The strings of a state. -/
def ParserState.sameStrings (s s' : ParserState) : Prop :=
  s'.module.strTable = s.module.strTable ∧ s'.module.stringDefs = s.module.stringDefs

/-- Only a `.string` defines a string. -/
theorem sameStrings_parseStep (hline : ∀ args, line ≠ .directive .string args) (h : parseStep s line = some s') :
    s.sameStrings s' := by
  cases line with
  | blank =>
    obtain rfl := Option.some.inj h
    exact ⟨rfl, rfl⟩
  | label name =>
    obtain rfl := Option.some.inj h
    rw [parseLabel]
    split <;> exact ⟨rfl, rfl⟩
  | directive kind args =>
    cases kind with
    | string => exact absurd rfl (hline args)
    | text | bss | data | globl | «local» | align | set | size | type | ident | file | option
    | «attribute» | unknown =>
      obtain rfl := Option.some.inj h
      exact ⟨rfl, rfl⟩
    | «section» =>
      obtain ⟨name, -, h⟩ := Option.bind_eq_some_iff.1 h
      split_ifs at h
      all_goals
        obtain rfl := Option.some.inj h
        exact ⟨rfl, rfl⟩
    | comm =>
      simp only [parseStep, parseDirective, Option.bind_eq_bind, Option.bind_eq_some_iff] at h
      obtain ⟨name, -, a, -, size, -, b, -, alignment, -, h⟩ := h
      obtain rfl := Option.some.inj h
      exact ⟨rfl, by simp [ParserState.define, AsmModule.stringDefs]⟩
    | zero =>
      rw [parseStep, parseDirective] at h
      cases hp : s.pendingLabel with
      | none =>
        rw [hp] at h
        obtain rfl := Option.some.inj h
        exact ⟨rfl, rfl⟩
      | some name =>
        simp only [hp, Option.bind_eq_bind, Option.bind_eq_some_iff] at h
        obtain ⟨a, -, size, -, h⟩ := h
        obtain rfl := Option.some.inj h
        exact ⟨rfl, by simp [ParserState.define, AsmModule.stringDefs]⟩
  | instruction op args =>
    obtain rfl := parseInstruction_eq h
    rw [enterFunction]
    split
    · split <;> exact ⟨rfl, rfl⟩
    · exact ⟨rfl, rfl⟩

theorem parseStep_string {args : List Text} (h : parseStep s (.directive .string args) = some s') :
    ∃ arg exported, arg ∈ args ∧
      s'.module.strTable = dictSet s.pendingLabel
        (stringName (arg.filter (· ≠ '"')) s.module.strTable.length) s.module.strTable ∧
      s'.module.stringDefs = s.module.stringDefs ++
        [⟨stringName (arg.filter (· ≠ '"')) s.module.strTable.length, 0, 4, exported,
          some (arg.filter (· ≠ '"'))⟩] := by
  obtain ⟨arg, harg, h⟩ := Option.bind_eq_some_iff.1 h
  obtain rfl := Option.some.inj h
  refine ⟨arg, s.pendingLabel.elim false fun x => decide (x ∈ s.module.globalSyms), List.mem_of_getElem? harg,
    rfl, ?_⟩
  simp [ParserState.define, AsmModule.stringDefs, stringName]

/-- Definitions of texts that are not empty. -/
theorem map_bytes {ds : List DataDefinition} {ts : List Text} (h : ds.map DataDefinition.string = ts.map some)
    (hne : ∀ t ∈ ts, t ≠ []) : ds.map DataDefinition.bytes = ts.map (· ++ ['\x00']) := by
  induction ds generalizing ts with
  | nil =>
    obtain rfl := List.map_eq_nil_iff.1 h.symm
    rfl
  | cons d ds ih =>
    cases ts with
    | nil => cases h
    | cons t ts =>
      obtain ⟨hd, hds⟩ := List.cons.inj h
      obtain ⟨ht, hts⟩ := List.forall_mem_cons.1 hne
      obtain ⟨c, cs, rfl⟩ := List.exists_cons_of_ne_nil ht
      rw [List.map_cons, List.map_cons, ih hds hts, DataDefinition.bytes, hd]

/-! ### A text that is not plain -/

/-- A definition that comes from an argument. -/
def DataDefinition.FromArg (d : DataDefinition) : Prop :=
  d.size = 0 ∧ ∃ t, d.string = some t ∧ ∀ c ∈ t, c ≠ '#' ∧ c ≠ ',' ∧ c ≠ '\t' ∧ isLineBreak c = false

theorem fromArg_parseStep (hs : ∀ d ∈ s.module.stringDefs, d.FromArg)
    (hargs : ∀ args, line = .directive .string args → ∀ a ∈ args, ∀ c ∈ a,
      c ≠ '#' ∧ c ≠ ',' ∧ c ≠ '\t' ∧ isLineBreak c = false)
    (h : parseStep s line = some s') : ∀ d ∈ s'.module.stringDefs, d.FromArg := by
  by_cases hline : ∃ args, line = .directive .string args
  · obtain ⟨args, rfl⟩ := hline
    obtain ⟨arg, exported, harg, -, hdefs⟩ := parseStep_string h
    rw [hdefs]
    refine List.forall_mem_append.2 ⟨hs, List.forall_mem_singleton.2 ⟨rfl, _, rfl, fun c hc => ?_⟩⟩
    exact hargs args rfl arg harg c (List.mem_filter.1 hc).1
  · rw [(sameStrings_parseStep (fun args hargs => hline ⟨args, hargs⟩) h).2]
    exact hs

theorem fromArg_run {lines : List Line} (hs : ∀ d ∈ s.module.stringDefs, d.FromArg)
    (hargs : ∀ line ∈ lines, ∀ args, line = .directive .string args → ∀ a ∈ args, ∀ c ∈ a,
      c ≠ '#' ∧ c ≠ ',' ∧ c ≠ '\t' ∧ isLineBreak c = false)
    (h : lines.foldlM parseStep s = some s') : ∀ d ∈ s'.module.stringDefs, d.FromArg := by
  induction lines generalizing s with
  | nil =>
    obtain rfl := Option.some.inj h
    exact hs
  | cons line lines ih =>
    obtain ⟨hline, hlines⟩ := List.forall_mem_cons.1 hargs
    obtain ⟨t, ht, h⟩ := Option.bind_eq_some_iff.1 h
    exact ih (fromArg_parseStep hs hline ht) hlines h

theorem args_of_line {rl : RawLine} {kind : DirectiveKind} {args : List Text}
    (h : rl.line = .directive kind args) : args = rl.args := by
  rw [RawLine.line] at h
  split at h
  · cases h
  · split at h
    · exact (Line.directive.inj h).2.symm
    · cases h
  · cases h

/-- **Nothing comes out whole that is not plain**, from any source. -/
theorem parse_free {source : Text} {m : AsmModule} (h : parse source = some m) {d : DataDefinition}
    (hd : d ∈ m.stringDefs) {text : Text} (hbytes : d.bytes = text ++ ['\x00']) : Plain text := by
  obtain ⟨s, hrun, rfl⟩ := parse_eq h
  have hargs : ∀ line ∈ sourceLines source, ∀ args, line = .directive .string args → ∀ a ∈ args, ∀ c ∈ a,
      c ≠ '#' ∧ c ≠ ',' ∧ c ≠ '\t' ∧ isLineBreak c = false := by
    intro line hline args heq a ha
    obtain ⟨rl, hrl, rfl⟩ := List.mem_map.1 hline
    obtain ⟨raw, hraw, rfl⟩ := List.mem_map.1 hrl
    refine tokenise_args (splitlines_no_break raw hraw) ?_
    rwa [← args_of_line heq]
  obtain ⟨hsize, t, ht, hfree⟩ := fromArg_run (fun _ hd => absurd hd List.not_mem_nil) hargs hrun d hd
  rw [DataDefinition.bytes, ht, hsize] at hbytes
  cases t with
  | nil => exact absurd hbytes (by simp)
  | cons c t =>
    obtain rfl := (List.append_left_inj _).1 hbytes
    exact ⟨List.cons_ne_nil c t, hfree⟩

/-! ### A text that is -/

/-- The state, as far as strings go. -/
def ParserState.Has (s : ParserState) (σ : Strings) : Prop :=
  s.filing = σ.filing ∧ s.module.strTable = σ.table ∧
    s.module.stringDefs.map (fun d => (d.name, d.string)) = σ.defs.map fun d => (d.1, some d.2)

theorem sameStrings_labels {labels : List Text} (h : (labels.map Line.label).foldlM parseStep s = some s') :
    s.sameStrings s' := by
  induction labels generalizing s with
  | nil =>
    obtain rfl := Option.some.inj h
    exact ⟨rfl, rfl⟩
  | cons l labels ih =>
    rw [List.map_cons, List.foldlM_cons, Option.bind_eq_bind, Option.bind_eq_some_iff] at h
    obtain ⟨t, ht, h⟩ := h
    have hfirst : s.sameStrings t := by
      refine sameStrings_parseStep (fun args hargs => ?_) ht
      cases hargs
    have hrest := ih h
    exact ⟨hrest.1.trans hfirst.1, hrest.2.trans hfirst.2⟩

/-- **One line of the source.** -/
theorem has_step {l : GasLine} {σ : Strings} (hl : l.Valid) (hs : s.Has σ)
    (h : l.lines.foldlM parseStep s = some s') : s'.Has (σ.step l) := by
  obtain ⟨hfiling, htable, hdefs⟩ := hs
  have hrun := filing_run h
  cases l with
  | other line =>
    simp only [GasLine.lines, List.foldlM_cons, List.foldlM_nil, Option.bind_eq_bind,
      Option.bind_eq_some_iff] at h
    obtain ⟨t, ht, h⟩ := h
    obtain rfl := Option.some.inj h
    have hsame := sameStrings_parseStep hl.2 ht
    exact ⟨hrun.trans (by rw [hfiling]; rfl), hsame.1.trans htable, (congrArg _ hsame.2).trans hdefs⟩
  | string labels text =>
    rw [GasLine.lines, List.foldlM_append, Option.bind_eq_bind, Option.bind_eq_some_iff] at h
    obtain ⟨t, ht, hu⟩ := h
    rw [List.foldlM_cons, Option.bind_eq_bind, Option.bind_eq_some_iff] at hu
    obtain ⟨u, hu, hend⟩ := hu
    obtain rfl := Option.some.inj hend
    have hsame := sameStrings_labels ht
    have hpending : t.pendingLabel = (s.filing.steps (labels.map Line.label)).waiting :=
      congrArg Filing.waiting (filing_run ht)
    obtain ⟨arg, exported, harg, htable', hdefs'⟩ := parseStep_string hu
    obtain rfl := List.mem_singleton.1 harg
    have hquotes : ('"' :: (text ++ ['"'])).filter (· ≠ '"') = text := by
      have htext : text.filter (· ≠ '"') = text :=
        List.filter_eq_self.2 fun c hc => decide_eq_true (hl.1 c hc).1
      rw [List.filter_cons_of_neg (by decide), List.filter_append, htext]
      simp
    rw [hquotes, hsame.1, htable, hpending] at htable'
    rw [hquotes, hsame.1, hsame.2, htable] at hdefs'
    refine ⟨hrun.trans (by rw [hfiling]; rfl), htable'.trans (by rw [hfiling]; rfl), ?_⟩
    rw [hdefs', List.map_append, hdefs]
    simp [Strings.step]

theorem has_run {lines : List GasLine} {σ : Strings} (hvalid : ∀ l ∈ lines, l.Valid) (hs : s.Has σ)
    (h : (lines.flatMap GasLine.lines).foldlM parseStep s = some s') : s'.Has (lines.foldl Strings.step σ) := by
  induction lines generalizing s σ with
  | nil =>
    obtain rfl := Option.some.inj h
    exact hs
  | cons l lines ih =>
    obtain ⟨hl, hlines⟩ := List.forall_mem_cons.1 hvalid
    rw [List.flatMap_cons, List.foldlM_append, Option.bind_eq_bind, Option.bind_eq_some_iff] at h
    obtain ⟨t, ht, h⟩ := h
    exact ih hlines (has_step hl hs ht) h

/-- **What the parser makes of the strings** of a source whose texts are plain. -/
theorem parse_strings {lines : List GasLine} {m : AsmModule} (hvalid : ∀ l ∈ lines, l.Valid)
    (hplain : ∀ t ∈ textsOf lines, Plain t) (h : parse (gasSource lines) = some m) :
    m.strTable = (lines.foldl Strings.step {}).table ∧
      m.stringDefs.map (fun d => (d.name, d.string)) =
        (lines.foldl Strings.step {}).defs.map fun d => (d.1, some d.2) := by
  obtain ⟨s, hrun, rfl⟩ := parse_eq h
  rw [sourceLines_gasSource hvalid hplain] at hrun
  have hhas := has_run (σ := {}) hvalid ⟨rfl, rfl, rfl⟩ hrun
  exact hhas.2

end Parser

/-! ## Names -/

theorem strInt_natCast (n : Nat) : strInt n = Nat.toDigits 10 n := Nat.toList_repr

/-- Digits are read back. -/
theorem ofDigits_toDigits (n : Nat) : ofDigits 10 (Nat.toDigits 10 n) = n := by
  have hdigit : ∀ d < 10, hexDigit (Nat.digitChar d) = d := by decide
  induction n using Nat.strong_induction_on with
  | _ n ih =>
    rw [Nat.toDigits_eq_if (by decide)]
    split
    · rename_i hlt
      rw [ofDigits, List.foldl_cons, List.foldl_nil, hdigit n hlt, Nat.zero_mul, Nat.zero_add]
    · rename_i hge
      have hrest := ih (n / 10) (by omega)
      rw [ofDigits] at hrest ⊢
      rw [List.foldl_append, hrest, List.foldl_cons, List.foldl_nil, hdigit _ (Nat.mod_lt n (by decide))]
      omega

/-- What is behind the last occurrence of a character. -/
theorem append_cons_inj {a a' d d' : Text} {x : Char} (hd : x ∉ d) (hd' : x ∉ d')
    (h : a ++ x :: d = a' ++ x :: d') : a = a' ∧ d = d' := by
  rcases List.append_eq_append_iff.1 h with ⟨c, rfl, hc⟩ | ⟨c, rfl, hc⟩
  · cases c with
    | nil => exact ⟨(List.append_nil a).symm, (List.cons.inj hc).2⟩
    | cons y c => exact absurd ((List.cons.inj hc).2 ▸ by simp) hd
  · cases c with
    | nil => exact ⟨List.append_nil a', (List.cons.inj hc).2.symm⟩
    | cons y c => exact absurd ((List.cons.inj hc).2 ▸ by simp) hd'

/-- **A made-up name** says what it was made from. -/
theorem stringName_inj {t t' : Text} {n n' : Nat} (h : stringName t n = stringName t' n') : t = t' ∧ n = n' := by
  have hsplit : ∀ (t : Text) (n : Nat), stringName t n = (t ++ "_str".toList) ++ '_' :: Nat.toDigits 10 n := by
    intro t n
    rw [stringName, strInt_natCast, List.append_assoc, List.append_assoc, List.append_assoc]
    rfl
  rw [hsplit, hsplit] at h
  obtain ⟨htext, hdigits⟩ := append_cons_inj Nat.underscore_not_in_toDigits Nat.underscore_not_in_toDigits h
  refine ⟨(List.append_left_inj _).1 htext, ?_⟩
  rw [← ofDigits_toDigits n, hdigits, ofDigits_toDigits]

/-! ## Counting labels -/

section Counts

variable {σ : Strings} {before : List (Option Text)}

/-- The labels of a table are those that there have been. -/
def Counts (table : List (Option Text × Text)) (before : List (Option Text)) : Prop :=
  (table.map Prod.fst).Nodup ∧ ∀ k, k ∈ table.map Prod.fst ↔ k ∈ before

theorem Counts.length {table : List (Option Text × Text)} (h : Counts table before) :
    table.length = before.dedup.length := by
  have hperm : (table.map Prod.fst).Perm before.dedup :=
    (List.perm_ext_iff_of_nodup h.1 (List.nodup_dedup before)).2 fun k =>
      (h.2 k).trans List.mem_dedup.symm
  rw [← List.length_map, hperm.length_eq]

theorem map_fst_dictSet (key : Option Text) (v : Text) (table : List (Option Text × Text)) :
    (dictSet key v table).map Prod.fst =
      if key ∈ table.map Prod.fst then table.map Prod.fst else table.map Prod.fst ++ [key] := by
  induction table with
  | nil => rfl
  | cons e table ih =>
    rw [GasToJim.dictSet]
    by_cases he : e.1 = key
    · rw [if_pos he, List.map_cons, List.map_cons, he, if_pos List.mem_cons_self]
    · rw [if_neg he, List.map_cons, ih, List.map_cons]
      by_cases hmem : key ∈ table.map Prod.fst
      · rw [if_pos hmem, if_pos (List.mem_cons_of_mem _ hmem)]
      · rw [if_neg hmem, if_neg fun h => (List.mem_cons.1 h).elim (fun h => he h.symm) hmem]
        rfl

theorem Counts.dictSet {table : List (Option Text × Text)} (h : Counts table before) (key : Option Text)
    (v : Text) : Counts (dictSet key v table) (before ++ [key]) := by
  rw [Counts, map_fst_dictSet]
  split
  · rename_i hmem
    refine ⟨h.1, fun k => ?_⟩
    rw [h.2, List.mem_append, List.mem_singleton]
    exact ⟨Or.inl, fun hk => hk.elim id fun hk => hk ▸ (h.2 key).1 hmem⟩
  · rename_i hmem
    refine ⟨?_, fun k => ?_⟩
    · exact List.nodup_append.2 ⟨h.1, List.nodup_singleton key,
        fun a ha b hb hab => hmem (List.mem_singleton.1 hb ▸ hab ▸ ha)⟩
    · rw [List.mem_append, List.mem_append, h.2]

/-- **The definitions of a source**: the names are made up from the texts and the counts. -/
theorem defs_run (lines : List GasLine) (h : Counts σ.table before) :
    (lines.foldl Strings.step σ).defs = σ.defs ++
      ((textsOf lines).zip (filedCounts before (filedUnder σ.filing lines))).map
        fun d => (stringName d.1 d.2, d.1) := by
  induction lines generalizing σ before with
  | nil => simp [textsOf, filedUnder]
  | cons l lines ih =>
    cases l with
    | other line => exact ih h
    | string labels text =>
      have htexts : textsOf (GasLine.string labels text :: lines) = text :: textsOf lines := rfl
      rw [List.foldl_cons, ih (h.dictSet _ _), htexts, filedUnder, filedCounts, List.zip_cons_cons,
        List.map_cons, Strings.step, List.append_assoc, h.length]
      rfl

theorem defs_source (lines : List GasLine) : (lines.foldl Strings.step {}).defs =
    ((textsOf lines).zip (filedCounts [] (filedUnder {} lines))).map fun d => (stringName d.1 d.2, d.1) :=
  defs_run (σ := {}) lines ⟨List.nodup_nil, fun _ => Iff.rfl⟩

theorem counts_run (lines : List GasLine) (h : Counts σ.table before) :
    Counts (lines.foldl Strings.step σ).table (before ++ filedUnder σ.filing lines) := by
  induction lines generalizing σ before with
  | nil => rwa [filedUnder, List.append_nil]
  | cons l lines ih =>
    cases l with
    | other line => exact ih h
    | string labels text =>
      have hrest := ih (h.dictSet (σ.filing.steps (labels.map Line.label)).waiting
        (stringName text σ.table.length)) (σ := σ.step (.string labels text))
      rwa [List.append_assoc] at hrest

end Counts

/-! ## Looking up a label -/

section Lookup

variable {σ : Strings} {φ : Filing} {l : Text}

theorem waiting_steps {lines : List Line} (h : (φ.steps lines).waiting = some l) :
    φ.waiting = some l ∨ l ∈ lines.filterMap Line.label? := by
  induction lines generalizing φ with
  | nil => exact Or.inl h
  | cons line lines ih =>
    rcases ih h with hstep | hmem
    · cases line with
      | blank => exact Or.inl hstep
      | label name =>
        rw [Filing.step] at hstep
        split at hstep
        · exact Or.inl hstep
        · exact Or.inr (List.mem_filterMap.2 ⟨_, List.mem_cons_self, hstep⟩)
      | directive kind args =>
        rw [Filing.step] at hstep
        dsimp only at hstep
        split at hstep
        · cases hstep
        · exact Or.inl hstep
      | instruction op args =>
        rw [Filing.step] at hstep
        split at hstep
        · cases hstep
        · exact Or.inl hstep
    · obtain ⟨line', hline', hlabel⟩ := List.mem_filterMap.1 hmem
      exact Or.inr (List.mem_filterMap.2 ⟨line', List.mem_cons_of_mem _ hline', hlabel⟩)

/-- After a `.string` no label is in wait. -/
theorem waiting_string (labels : List Text) (text : Text) :
    (φ.steps (GasLine.string labels text).lines).waiting = none := by
  rw [GasLine.lines, Filing.steps, List.foldl_append]
  rfl

theorem mem_filedUnder {lines : List GasLine} (h : some l ∈ filedUnder φ lines) :
    φ.waiting = some l ∨ l ∈ lines.flatMap GasLine.labels := by
  induction lines generalizing φ with
  | nil => exact absurd h List.not_mem_nil
  | cons line lines ih =>
    rw [List.flatMap_cons, List.mem_append]
    cases line with
    | other line =>
      rcases ih h with hwaiting | hmem
      · exact (waiting_steps hwaiting).imp_right Or.inl
      · exact Or.inr (Or.inr hmem)
    | string labels text =>
      rcases List.mem_cons.1 h with hkey | hmem
      · refine (waiting_steps hkey.symm).imp_right fun hmem => Or.inl ?_
        rw [GasLine.labels, GasLine.lines, List.filterMap_append, List.mem_append]
        exact Or.inl hmem
      · rcases ih hmem with hwaiting | hmem
        · rw [waiting_string] at hwaiting
          cases hwaiting
        · exact Or.inr (Or.inr hmem)

theorem filing_foldl (lines : List GasLine) :
    (lines.foldl Strings.step σ).filing = σ.filing.steps (lines.flatMap GasLine.lines) := by
  induction lines generalizing σ with
  | nil => rfl
  | cons l lines ih =>
    rw [List.foldl_cons, ih, List.flatMap_cons, Filing.steps, Filing.steps, List.foldl_append]
    cases l <;> rfl

theorem lookup_run {lines : List GasLine} (h : some l ∉ filedUnder σ.filing lines) :
    (lines.foldl Strings.step σ).table.lookup (some l) = σ.table.lookup (some l) := by
  induction lines generalizing σ with
  | nil => rfl
  | cons line lines ih =>
    cases line with
    | other line => exact ih h
    | string labels text =>
      rw [filedUnder, List.mem_cons, not_or] at h
      rw [List.foldl_cons, ih (σ := σ.step (.string labels text)) h.2, Strings.step, lookup_dictSet, if_neg h.1]

/-- The name of the directive behind `before`. -/
def nameAt (before : List GasLine) (text : Text) : Text :=
  stringName text (filedUnder {} before).dedup.length

/-- **What is entered for a label of a directive**: its name, if it is the label in wait. -/
theorem lookup_label {before after : List GasLine} {labels : List Text} {text : Text}
    (hnodup : ((before ++ .string labels text :: after).flatMap GasLine.labels).Nodup) (hl : l ∈ labels) :
    ((before ++ .string labels text :: after).foldl Strings.step {}).table.lookup (some l) =
      if waitingAt before labels = some l then some (nameAt before text) else none := by
  have hlabel : l ∈ (GasLine.string labels text).labels := by
    rw [GasLine.labels, GasLine.lines, List.filterMap_append, List.mem_append]
    exact Or.inl (List.mem_filterMap.2 ⟨_, List.mem_map_of_mem hl, rfl⟩)
  rw [List.flatMap_append, List.flatMap_cons] at hnodup
  have hbefore : l ∉ before.flatMap GasLine.labels := fun h =>
    (List.nodup_append.1 hnodup).2.2 l h l (List.mem_append_left _ hlabel) rfl
  have hafter : l ∉ after.flatMap GasLine.labels := fun h =>
    (List.nodup_append.1 (List.nodup_append.1 hnodup).2.1).2.2 l hlabel l h rfl
  have hfirst : ((before.foldl Strings.step {}).table).lookup (some l) = none :=
    lookup_run (σ := {}) fun h => (mem_filedUnder h).elim nofun hbefore
  have hlength : (before.foldl Strings.step {}).table.length = (filedUnder {} before).dedup.length :=
    (counts_run (σ := {}) before ⟨List.nodup_nil, fun _ => Iff.rfl⟩).length
  have hwaiting : ((before.foldl Strings.step {}).filing.steps (labels.map Line.label)).waiting =
      waitingAt before labels := by
    rw [filing_foldl, waitingAt, Filing.steps, Filing.steps, Filing.steps, List.foldl_append]
  rw [List.foldl_append, List.foldl_cons]
  refine (lookup_run fun h => ?_).trans ?_
  · refine (mem_filedUnder h).elim (fun hw => ?_) hafter
    rw [Strings.step, waiting_string] at hw
    cases hw
  · rw [Strings.step, lookup_dictSet, hwaiting, hfirst, hlength]
    exact if_congr eq_comm rfl rfl

/-- The names in the table are names of definitions. -/
theorem table_names (lines : List GasLine) (h : ∀ e ∈ σ.table, e.2 ∈ σ.defs.map Prod.fst) :
    ∀ e ∈ (lines.foldl Strings.step σ).table, e.2 ∈ (lines.foldl Strings.step σ).defs.map Prod.fst := by
  induction lines generalizing σ with
  | nil => exact h
  | cons line lines ih =>
    cases line with
    | other line => exact ih h
    | string labels text =>
      refine ih (σ := σ.step (.string labels text)) fun e he => ?_
      rw [Strings.step] at he ⊢
      rw [List.map_append, List.mem_append]
      rcases mem_dictSet he with he | he
      · exact Or.inl (h e he)
      · exact Or.inr (List.mem_singleton.2 he)

theorem defs_texts (lines : List GasLine) :
    (lines.foldl Strings.step σ).defs.map Prod.snd = σ.defs.map Prod.snd ++ textsOf lines := by
  induction lines generalizing σ with
  | nil => exact (List.append_nil _).symm
  | cons line lines ih =>
    rw [List.foldl_cons, ih]
    cases line with
    | other line => rfl
    | string labels text =>
      have htexts : textsOf (GasLine.string labels text :: lines) = text :: textsOf lines := rfl
      rw [Strings.step, List.map_append, htexts, List.append_assoc]
      rfl

theorem defs_length (lines : List GasLine) :
    (lines.foldl Strings.step σ).defs.length = σ.defs.length + (textsOf lines).length := by
  have h := congrArg List.length (defs_texts (σ := σ) lines)
  rwa [List.length_map, List.length_append, List.length_map] at h

theorem defs_prefix (lines : List GasLine) : σ.defs <+: (lines.foldl Strings.step σ).defs := by
  induction lines generalizing σ with
  | nil => exact List.prefix_rfl
  | cons line lines ih =>
    refine List.IsPrefix.trans ?_ (ih (σ := σ.step line))
    cases line with
    | other line => exact List.prefix_rfl
    | string labels text => exact List.prefix_append _ _

/-- **The definition of a directive** is at its place among the directives. -/
theorem defs_at (before after : List GasLine) (labels : List Text) (text : Text) :
    ((before ++ .string labels text :: after).foldl Strings.step {}).defs[(textsOf before).length]? =
      some (nameAt before text, text) := by
  have hlength := defs_length (σ := {}) before
  have htable := (counts_run (σ := {}) before ⟨List.nodup_nil, fun _ => Iff.rfl⟩).length
  obtain ⟨rest, hrest⟩ := defs_prefix (σ := (before.foldl Strings.step {}).step (.string labels text)) after
  rw [List.foldl_append, List.foldl_cons, ← hrest, Strings.step]
  dsimp only
  rw [List.append_assoc, List.getElem?_append_right (by rw [hlength]; simp), hlength, htable]
  simp [nameAt]

end Lookup

end RiscyOS.GasToJim
