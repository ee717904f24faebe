import Mathlib.Data.List.Nodup
import Mathlib.Data.List.Pairwise
import RiscyOS.GasToJim.Placement

/-!
# Local labels

`resolve_local_labels` gives every local label of a function a name that has the function's in it, and
renames the operands of that function that have it.  What this should do to a module is said once for all
its functions (`Code.renamed`): a label becomes the name for the function it stands in, and so does an
operand, wherever it is, that names the label.

Both sides are compared function by function.  They agree on the labels, and on an operand they agree
unless it names a label of another function, which the pass leaves as it is (`resolve_eq_renamed_iff`).
That the functions of the module are those of the source is a question about the parser alone, and is
answered in the module before this one.
-/

set_option autoImplicit false

namespace RiscyOS.GasToJim

/-! ## Names -/

/-- The labels in a function's code. -/
def Code.labels (c : Code) : List Text :=
  c.items.filterMap fun
    | .label l => some l
    | _ => none

theorem mem_labels {c : Code} {l : Text} : l ∈ c.labels ↔ .label l ∈ c.items := by
  rw [Code.labels, List.mem_filterMap]
  refine ⟨?_, fun h => ⟨_, h, rfl⟩⟩
  rintro ⟨⟨_⟩ | _, hmem, heq⟩
  · obtain rfl := Option.some.inj heq
    exact hmem
  · contradiction

/-- The function in which a local label stands. -/
def standsIn (codes : List Code) (l : Text) : Option Text :=
  (codes.find? fun c => decide (l ∈ c.labels)).map Code.name

/-- An operand, with the name that a local label gets where it stands. -/
def Operand.renamed (codes : List Code) (o : Operand) : Operand :=
  match o.kind, o.symbol with
  | .symbol, some s =>
    match standsIn codes s with
    | some f => { o with symbol := some (localName f s) }
    | none => o
  | _, _ => o

/-- An element of the code of `function`, with its local labels renamed. -/
def Item.renamed (codes : List Code) (function : Text) : Item → Item
  | .label l => .label (localName function l)
  | .instruction i => .instruction { i with operands := i.operands.map (·.renamed codes) }

/-- **A function with its local labels renamed**, those it has and those it names. -/
def Code.renamed (codes : List Code) (c : Code) : Code :=
  { c with items := c.items.map (·.renamed codes c.name) }

/-- The labels that are emitted for a module: the names of the functions and their local labels. -/
def emittedNames (m : AsmModule) : List Text :=
  (m.functions.map AsmFunction.code).flatMap fun c => c.name :: c.labels

/-- The functions of a source. -/
def sourceCode (source : Text) : List Code := (codeOf false (sourceLines source)).2

/-- **Local labels keep their targets**: the functions are those of the source with the local labels
renamed, and the names are distinct if those of the functions are. -/
structure LabelsKept (source : Text) (m : AsmModule) : Prop where
  kept : m.functions.map AsmFunction.code = (sourceCode source).map (Code.renamed (sourceCode source))
  distinct : (m.functions.map AsmFunction.name).Nodup → (emittedNames m).Nodup

/-- A function names a local label only if it stands in it. -/
def Code.NamesOwn (codes : List Code) (c : Code) : Prop :=
  ∀ i, .instruction i ∈ c.items → ∀ o ∈ i.operands, o.kind = .symbol →
    ∀ s, o.symbol = some s → (∃ c' ∈ codes, s ∈ c'.labels) → s ∈ c.labels

/-- No function has the name that a local label gets. -/
def NamesFree (codes : List Code) : Prop :=
  ∀ c ∈ codes, ∀ l ∈ c.labels, ∀ c' ∈ codes, localName c.name l ≠ c'.name

/-- **Where local labels keep their targets**: every line is filed where it stands, a local label is
named in the function in which it stands and nowhere else, and no function has the name that a local
label gets. -/
structure LabelsInPlace (source : Text) : Prop where
  lines : Along (fun σ l => l.InPlace σ) {} (sourceLines source)
  targets : ∀ c ∈ sourceCode source, c.NamesOwn (sourceCode source)
  names : ((sourceCode source).map Code.name).Nodup → NamesFree (sourceCode source)

/-! ## The names of local labels -/

theorem isLocalName_iff {l : Text} : isLocalName l = true ↔ ∃ r, l = '.' :: 'L' :: r := by
  rw [isLocalName, decide_eq_true_iff]
  refine ⟨fun ⟨r, hr⟩ => ⟨r, hr.symm⟩, ?_⟩
  rintro ⟨r, rfl⟩
  exact ⟨r, rfl⟩

theorem localName_eq (f r : Text) : localName f ('.' :: 'L' :: r) = f ++ "__L".toList ++ r := by
  simp [localName, lstripDots]

theorem localName_left_cancel {f l l' : Text} (hl : isLocalName l = true) (hl' : isLocalName l' = true)
    (h : localName f l = localName f l') : l = l' := by
  obtain ⟨r, rfl⟩ := isLocalName_iff.1 hl
  obtain ⟨r', rfl⟩ := isLocalName_iff.1 hl'
  rw [localName_eq, localName_eq, List.append_cancel_left_eq] at h
  rw [h]

/-- A renamed label is longer than the label. -/
theorem localName_ne_self {l : Text} (hl : isLocalName l = true) (f : Text) : localName f l ≠ l := by
  obtain ⟨r, rfl⟩ := isLocalName_iff.1 hl
  intro h
  have hlen := congrArg List.length h
  rw [localName_eq] at hlen
  simp at hlen
  omega

theorem isNumbered_iff {l : Text} :
    isNumbered l = true ↔ ∃ ds, l = '.' :: 'L' :: ds ∧ ds.all Char.isDigit = true := by
  rw [isNumbered, decide_eq_true_iff, isLocalName_iff]
  refine ⟨fun ⟨⟨r, hr⟩, hall⟩ => ⟨r, hr, by rwa [hr] at hall⟩, ?_⟩
  rintro ⟨r, rfl, hall⟩
  exact ⟨⟨r, rfl⟩, hall⟩

/-- **A renamed label tells the function and the label.** -/
theorem localName_inj {f f' l l' : Text} (hl : isNumbered l = true) (hl' : isNumbered l' = true)
    (h : localName f l = localName f' l') : f = f' ∧ l = l' := by
  obtain ⟨ds, rfl, hds⟩ := isNumbered_iff.1 hl
  obtain ⟨ds', rfl, hds'⟩ := isNumbered_iff.1 hl'
  -- the digits are what is at the end behind the letter
  have hdigits (g ds : Text) (hds : ds.all Char.isDigit = true) :
      (g ++ "__L".toList ++ ds).reverse.takeWhile Char.isDigit = ds.reverse := by
    rw [List.reverse_append, List.takeWhile_append_of_pos fun c hc =>
      List.all_eq_true.1 hds c (List.mem_reverse.1 hc), List.reverse_append]
    simp
  rw [localName_eq, localName_eq] at h
  have hrev := congrArg (fun t => t.reverse.takeWhile Char.isDigit) h
  simp only [hdigits _ _ hds, hdigits _ _ hds'] at hrev
  obtain rfl := List.reverse_injective hrev
  rw [List.append_assoc, List.append_assoc, List.append_cancel_right_eq] at h
  exact ⟨h, rfl⟩

/-! ## The labels of a source -/

section Source

variable {σ : Scan} {lines : List Line}

/-- Regular lines have no code before the first function. -/
theorem codeOf_fst (hregular : Along (fun σ l => l.Regular σ) σ lines) (hstage : σ.stage = .outside) :
    (codeOf σ.text lines).1 = [] := by
  induction lines generalizing σ with
  | nil => rfl
  | cons line lines ih =>
    obtain ⟨hline, hregular⟩ := hregular
    cases line with
    | blank | directive => cases htext : σ.text <;> simpa [codeOf, Scan.step, htext] using ih hregular hstage
    | instruction op args => exact absurd hstage hline.2.1
    | label name =>
      cases htext : σ.text with
      | false =>
        have hstep : (σ.step (.label name)).stage = .outside := by simp [Scan.step, htext, hstage]
        simpa [codeOf, Scan.step, Line.inText, htext] using ih hregular hstep
      | true =>
        cases hlocal : isLocalName name with
        | false => simp [codeOf, hlocal]
        | true =>
          have hne := hline htext
          rw [if_pos hlocal] at hne
          exact absurd hstage hne.1

/-- The labels of the functions are local labels of the lines, in the same order. -/
theorem labels_sublist (text : Bool) (lines : List Line) :
    ((Code.mk [] (codeOf text lines).1).labels ++ (codeOf text lines).2.flatMap Code.labels).Sublist
      (localLabels lines) := by
  induction lines generalizing text with
  | nil => exact List.Sublist.refl _
  | cons line lines ih =>
    have hrest := ih (line.inText text)
    cases line with
    | blank | directive => cases text <;> exact hrest
    | instruction op args => cases text <;> exact hrest
    | label name =>
      have hlabels : localLabels (.label name :: lines) =
          if isLocalName name then name :: localLabels lines else localLabels lines := by
        cases hlocal : isLocalName name <;> simp [localLabels, hlocal]
      rw [hlabels]
      cases hlocal : isLocalName name with
      | false => cases text <;> simpa [codeOf, hlocal, Code.labels] using hrest
      | true =>
        cases text with
        | false => exact hrest.trans (List.sublist_cons_self _ _)
        | true => simpa [codeOf, hlocal, Code.labels] using hrest

/-- The labels in regular code are numbered. -/
theorem isNumbered_of_mem_codeOf (hregular : Along (fun σ l => l.Regular σ) σ lines) :
    (∀ l, .label l ∈ (codeOf σ.text lines).1 → isNumbered l = true) ∧
      ∀ c ∈ (codeOf σ.text lines).2, ∀ l ∈ c.labels, isNumbered l = true := by
  induction lines generalizing σ with
  | nil => simp [codeOf]
  | cons line lines ih =>
    obtain ⟨hline, hregular⟩ := hregular
    obtain ⟨hfst, hsnd⟩ := ih hregular
    cases line with
    | blank | directive => cases htext : σ.text <;> simpa [codeOf, Scan.step, htext] using And.intro hfst hsnd
    | instruction op args =>
      cases htext : σ.text <;>
        simpa [codeOf, Scan.step, Line.inText, htext] using And.intro hfst hsnd
    | label name =>
      have hstep : (σ.step (.label name)).text = σ.text := rfl
      rw [hstep] at hfst hsnd
      cases htext : σ.text with
      | false =>
        rw [htext] at hfst hsnd
        exact ⟨hfst, hsnd⟩
      | true =>
        rw [htext] at hfst hsnd
        have hname := hline htext
        cases hlocal : isLocalName name with
        | true =>
          rw [if_pos hlocal] at hname
          simp only [codeOf, Line.inText, hlocal, if_true]
          refine ⟨fun l hl => ?_, hsnd⟩
          rcases List.mem_cons.1 hl with heq | hl
          · obtain rfl := Item.label.inj heq
            exact hname.2
          · exact hfst l hl
        | false =>
          simp only [codeOf, Line.inText, hlocal]
          refine ⟨by simp, fun c hc l hl => ?_⟩
          rcases List.mem_cons.1 hc with rfl | hc
          · exact hfst l (mem_labels.1 hl)
          · exact hsnd c hc l hl

end Source

/-! ## Functions from their marks -/

/-- The code that stands in no function, and the functions, of a sequence of marks. -/
def readMarks : List Mark → List Item × List Code
  | [] => ([], [])
  | .entry name :: ms => ([], ⟨name, (readMarks ms).1⟩ :: (readMarks ms).2)
  | .item i :: ms => (i :: (readMarks ms).1, (readMarks ms).2)

theorem readMarks_append (items : List Item) (ms : List Mark) :
    readMarks (items.map .item ++ ms) = (items ++ (readMarks ms).1, (readMarks ms).2) := by
  induction items with
  | nil => rfl
  | cons i items ih => rw [List.map_cons, List.cons_append, readMarks, ih]; rfl

/-- Functions are determined by their marks. -/
theorem readMarks_flatMap (cs : List Code) : readMarks (cs.flatMap Code.marks) = ([], cs) := by
  induction cs with
  | nil => rfl
  | cons c cs ih =>
    rw [List.flatMap_cons, Code.marks, List.cons_append, readMarks, readMarks_append, ih, List.append_nil]

/-! ## What the pass does -/

/-- What `resolve_local_labels` does to an element of the code of `function`. -/
def Item.resolve (function : Text) (mapping : List Text) : Item → Item
  | .label l => .label (localName function l)
  | .instruction i => .instruction { i with operands := i.operands.map (·.resolve function mapping) }

/-- What `resolve_local_labels` does to a function. -/
def Code.resolve (c : Code) : Code := { c with items := c.items.map (·.resolve c.name c.labels) }

/-- A label as the parser makes it. -/
def Node.Parsed : Node → Prop
  | .label l => l = .new l.name true ∧ isLocalName l.name = true
  | _ => True

/-- **The labels in the bodies are local**, and not renamed yet. -/
theorem parse_parsed {s s' : ParserState} {lines : List Line} (h : s.All Node.Parsed)
    (hrun : lines.foldlM parseStep s = some s') : s'.All Node.Parsed :=
  h.run (fun _ hlocal => ⟨rfl, hlocal⟩) (fun _ => trivial) (fun _ _ => trivial) hrun

/-- **The pass**, on the code of a function. -/
theorem code_resolveLocalLabels {f : AsmFunction} (hf : ∀ n ∈ f.body, n.Parsed) :
    f.resolveLocalLabels.code = f.code.resolve := by
  have hlabels : f.localLabels = f.code.labels := by
    rw [AsmFunction.localLabels, Code.labels, AsmFunction.code, List.filterMap_filterMap]
    refine List.filterMap_congr fun n hn => ?_
    cases n with
    | instruction | directive => rfl
    | label l =>
      have hl := (hf _ hn).1
      rw [hl]
      rfl
  have hitem : ∀ n ∈ f.body, (n.resolve f.name f.localLabels).item =
      n.item.map (·.resolve f.name f.code.labels) := by
    intro n hn
    rw [hlabels]
    cases n with
    | instruction | directive => rfl
    | label l =>
      have hl := (hf _ hn).1
      rw [hl]
      rfl
  rw [AsmFunction.code, Code.resolve, AsmFunction.resolveLocalLabels]
  simp only [List.filterMap_map, Function.comp_def]
  rw [List.filterMap_congr hitem, ← List.map_filterMap]
  rfl

/-! ## What the pass should do -/

section Renaming

variable {codes : List Code} {c c' : Code} {o : Operand} {l : Text}

theorem disjoint_of_nodup_flatMap {α β : Type} {xs : List α} {f : α → List β} {x y : α}
    (hnodup : (xs.flatMap f).Nodup) (hx : x ∈ xs) (hy : y ∈ xs) (hne : x ≠ y) : (f x).Disjoint (f y) := by
  have hpair := (List.nodup_flatMap.1 hnodup).2
  have : Std.Symm (Function.onFun List.Disjoint f) := ⟨fun _ _ h _ ha hb => h hb ha⟩
  exact hpair.forall hx hy hne

/-- A label stands in one function only. -/
theorem eq_of_mem_labels (hnodup : (codes.flatMap Code.labels).Nodup) (hc : c ∈ codes) (hc' : c' ∈ codes)
    (hl : l ∈ c.labels) (hl' : l ∈ c'.labels) : c = c' := by
  by_contra hne
  exact disjoint_of_nodup_flatMap hnodup hc hc' hne hl hl'

theorem standsIn_of_mem (hnodup : (codes.flatMap Code.labels).Nodup) (hc : c ∈ codes) (hl : l ∈ c.labels) :
    standsIn codes l = some c.name := by
  have hfound : (codes.find? fun c => decide (l ∈ c.labels)).isSome :=
    List.find?_isSome.2 ⟨c, hc, decide_eq_true hl⟩
  obtain ⟨c', hc'⟩ := Option.isSome_iff_exists.1 hfound
  have hl' : l ∈ c'.labels := by simpa using List.find?_some hc'
  rw [standsIn, hc', Option.map_some, eq_of_mem_labels hnodup hc (List.mem_of_find?_eq_some hc') hl hl']

theorem standsIn_eq_none (h : ¬∃ c ∈ codes, l ∈ c.labels) : standsIn codes l = none := by
  rw [standsIn, Option.map_eq_none_iff, List.find?_eq_none]
  exact fun c hc hl => h ⟨c, hc, of_decide_eq_true hl⟩

/-- **An operand is renamed as it should be**, unless it names a label of another function. -/
theorem Operand.resolve_eq_renamed_iff (hnodup : (codes.flatMap Code.labels).Nodup)
    (hlocal : ∀ c ∈ codes, ∀ l ∈ c.labels, isLocalName l = true) (hc : c ∈ codes) :
    o.resolve c.name c.labels = o.renamed codes ↔
      (o.kind = .symbol → ∀ s, o.symbol = some s → (∃ c' ∈ codes, s ∈ c'.labels) → s ∈ c.labels) := by
  obtain ⟨kind, raw, reg, imm, symbol⟩ := o
  rcases eq_or_ne kind .symbol with rfl | hkind
  · cases symbol with
    | none => simp [Operand.resolve, Operand.renamed]
    | some s =>
      by_cases hmem : s ∈ c.labels
      · simp [Operand.resolve, Operand.renamed, hmem, standsIn_of_mem hnodup hc hmem]
      · by_cases hother : ∃ c' ∈ codes, s ∈ c'.labels
        · obtain ⟨c', hc', hmem'⟩ := hother
          have hne := localName_ne_self (hlocal c' hc' s hmem') c'.name
          simp only [Operand.resolve, Operand.renamed, if_neg hmem, standsIn_of_mem hnodup hc' hmem']
          refine ⟨fun h => absurd (Option.some.inj (congrArg Operand.symbol h)).symm hne, fun h => ?_⟩
          exact absurd (h trivial s rfl ⟨c', hc', hmem'⟩) hmem
        · simp only [Operand.resolve, Operand.renamed, if_neg hmem, standsIn_eq_none hother]
          refine iff_of_true trivial fun _ t ht hex => ?_
          obtain rfl := Option.some.inj ht
          exact absurd hex hother
  · have hsame : Operand.resolve c.name c.labels ⟨kind, raw, reg, imm, symbol⟩ =
        Operand.renamed codes ⟨kind, raw, reg, imm, symbol⟩ := by
      cases kind with
      | symbol => exact absurd rfl hkind
      | _ => rfl
    exact iff_of_true hsame fun h => absurd h hkind

/-- **A function is renamed as it should be**, unless it names a label of another. -/
theorem Code.resolve_eq_renamed_iff (hnodup : (codes.flatMap Code.labels).Nodup)
    (hlocal : ∀ c ∈ codes, ∀ l ∈ c.labels, isLocalName l = true) (hc : c ∈ codes) :
    c.resolve = c.renamed codes ↔ c.NamesOwn codes := by
  have hitems : c.resolve = c.renamed codes ↔
      ∀ x ∈ c.items, x.resolve c.name c.labels = x.renamed codes c.name := by
    rw [← List.map_inj_left]
    exact ⟨congrArg Code.items, fun h => by rw [Code.resolve, Code.renamed, h]⟩
  rw [hitems]
  refine ⟨fun h i hi o ho => ?_, fun h x hx => ?_⟩
  · have hmap := congrArg Instruction.operands (Item.instruction.inj (h _ hi))
    exact (Operand.resolve_eq_renamed_iff hnodup hlocal hc).1 (List.map_inj_left.1 hmap o ho)
  · cases x with
    | label l => rfl
    | instruction i =>
      rw [Item.resolve, Item.renamed, List.map_congr_left fun o ho =>
        (Operand.resolve_eq_renamed_iff hnodup hlocal hc).2 (h i hx o ho)]

/-- **The emitted names are distinct** unless a function has the name of a renamed label. -/
theorem nodup_names_iff (hnodup : (codes.flatMap Code.labels).Nodup)
    (hnumbered : ∀ c ∈ codes, ∀ l ∈ c.labels, isNumbered l = true) (hnames : (codes.map Code.name).Nodup) :
    (codes.flatMap fun c => c.name :: c.labels.map (localName c.name)).Nodup ↔ NamesFree codes := by
  refine ⟨fun h c hc l hl c' hc' heq => ?_, fun h => List.nodup_flatMap.2 ⟨fun c hc => ?_, ?_⟩⟩
  · have hmem : c'.name ∈ c.labels.map (localName c.name) := heq ▸ List.mem_map_of_mem hl
    by_cases hcc : c = c'
    · subst hcc
      exact (List.nodup_cons.1 ((List.nodup_flatMap.1 h).1 c hc)).1 hmem
    · exact disjoint_of_nodup_flatMap h hc hc' hcc (List.mem_cons_of_mem _ hmem) List.mem_cons_self
  · refine List.nodup_cons.2 ⟨fun hmem => ?_, ?_⟩
    · obtain ⟨l, hl, heq⟩ := List.mem_map.1 hmem
      exact h c hc l hl c hc heq
    · refine ((List.nodup_flatMap.1 hnodup).1 c hc).map_on fun l hl l' hl' heq => ?_
      exact (localName_inj (hnumbered c hc l hl) (hnumbered c hc l' hl') heq).2
  · refine List.Pairwise.imp_of_mem ?_ (List.pairwise_map.1 hnames)
    intro c c' hc hc' hne x hx hx'
    rcases List.mem_cons.1 hx with rfl | hx <;> rcases List.mem_cons.1 hx' with hx' | hx'
    · exact hne hx'
    · obtain ⟨l, hl, heq⟩ := List.mem_map.1 hx'
      exact h c' hc' l hl c hc heq
    · obtain ⟨l, hl, rfl⟩ := List.mem_map.1 hx
      exact h c hc l hl c' hc' hx'
    · obtain ⟨l, hl, rfl⟩ := List.mem_map.1 hx
      obtain ⟨l', hl', heq⟩ := List.mem_map.1 hx'
      exact hne (localName_inj (hnumbered c' hc' l' hl') (hnumbered c hc l hl) heq).1.symm

end Renaming

/-! ## Parsing and resolving -/

/-- Two lists that agree after one pair of maps agree after another, if the elements do. -/
theorem map_eq_of_map_eq {α β γ δ : Type} {xs : List α} {ys : List β} {g : α → γ} {h : β → γ} {k : α → δ}
    {k' : β → δ} (heq : xs.map g = ys.map h) (himp : ∀ x ∈ xs, ∀ y ∈ ys, g x = h y → k x = k' y) :
    xs.map k = ys.map k' := by
  induction xs generalizing ys with
  | nil =>
    obtain rfl := List.map_eq_nil_iff.1 heq.symm
    rfl
  | cons x xs ih =>
    obtain ⟨y, ys, rfl⟩ := List.exists_cons_of_ne_nil (l := ys) fun hnil => by simp [hnil] at heq
    obtain ⟨hx, hxs⟩ := List.cons.inj heq
    rw [List.map_cons, List.map_cons, himp x List.mem_cons_self y List.mem_cons_self hx,
      ih hxs fun x hx y hy => himp x (List.mem_cons_of_mem _ hx) y (List.mem_cons_of_mem _ hy)]

/-- Renaming labels does not hide where they are. -/
theorem shape_of_kept {codes fs : List Code} (hlocal : ∀ c ∈ codes, ∀ l ∈ c.labels, isLocalName l = true)
    (hlocal' : ∀ f ∈ fs, ∀ l ∈ f.labels, isLocalName l = true)
    (h : fs.map Code.resolve = codes.map (Code.renamed codes)) :
    (fs.flatMap Code.marks).map Mark.shape = (codes.flatMap Code.marks).map Mark.shape := by
  rw [List.map_flatMap, List.map_flatMap, List.flatMap, List.flatMap]
  refine congrArg List.flatten (map_eq_of_map_eq h fun f hf c hc hfc => ?_)
  have hname : f.name = c.name := (Code.mk.inj hfc).1
  have hitems : f.items.map (·.resolve f.name f.labels) = c.items.map (·.renamed codes c.name) :=
    (Code.mk.inj hfc).2
  rw [Code.marks, Code.marks, List.map_cons, List.map_cons, hname, List.map_map, List.map_map]
  refine congrArg _ (map_eq_of_map_eq hitems fun x hx y hy hxy => ?_)
  rcases x with l | i <;> rcases y with l' | i'
  · rw [hname] at hxy
    rw [localName_left_cancel (hlocal' f hf l (mem_labels.2 hx)) (hlocal c hc l' (mem_labels.2 hy))
      (Item.label.inj hxy)]
  · contradiction
  · contradiction
  · rfl

theorem labels_renamed (codes : List Code) (c : Code) :
    (c.renamed codes).labels = c.labels.map (localName c.name) := by
  rw [Code.labels, Code.labels, Code.renamed, List.filterMap_map, List.map_filterMap]
  refine List.filterMap_congr fun x _ => ?_
  cases x <;> rfl

/-- **Local labels keep their targets exactly in the modules where they are in place**, whatever else
the module has. -/
theorem localLabels_kept_iff {source : Text} {m : AsmModule} (hparse : parse source = some m)
    (hmodule : IsModule (sourceLines source)) :
    LabelsKept source (passResolveLocalLabels m) ↔ LabelsInPlace source := by
  obtain ⟨s, hrun, hm⟩ := parse_eq hparse
  have hfunctions : m.functions = s.functions.map fun f => { f with exported := f.name ∈ s.module.globalSyms } :=
    congrArg AsmModule.functions hm
  -- what the pass makes of the functions the parser has found
  have hparsed := parse_parsed (s := {}) (by simp [ParserState.All, ParserState.functions]) hrun
  have hcode : (passResolveLocalLabels m).functions.map AsmFunction.code =
      (s.functions.map AsmFunction.code).map Code.resolve := by
    rw [passResolveLocalLabels, hfunctions, List.map_map, List.map_map, List.map_map]
    exact List.map_congr_left fun f hf => code_resolveLocalLabels (hparsed f hf)
  have hlocal' : ∀ f ∈ s.functions.map AsmFunction.code, ∀ l ∈ f.labels, isLocalName l = true := by
    intro c hc l hl
    obtain ⟨f, hf, rfl⟩ := List.mem_map.1 hc
    obtain ⟨n, hn, hitem⟩ := List.mem_filterMap.1 (mem_labels.1 hl)
    have hnode := hparsed f hf n hn
    rcases n with i | l' | d
    · simp [Node.item] at hitem
    · rw [Node.item, hnode.1] at hitem
      obtain rfl := Item.label.inj (Option.some.inj hitem)
      exact hnode.2
    · simp [Node.item] at hitem
  -- the functions of the source
  obtain ⟨-, hnumbered⟩ := isNumbered_of_mem_codeOf hmodule.regular
  have hlocal : ∀ c ∈ sourceCode source, ∀ l ∈ c.labels, isLocalName l = true :=
    fun c hc l hl => (of_decide_eq_true (hnumbered c hc l hl)).1
  have hnodup : ((sourceCode source).flatMap Code.labels).Nodup :=
    ((List.sublist_append_right _ _).trans (labels_sublist false _)).nodup hmodule.nodup
  have hmarks : marksOf (codeOf false (sourceLines source)) = (sourceCode source).flatMap Code.marks := by
    rw [marksOf, codeOf_fst hmodule.regular rfl]
    rfl
  have hagrees : Agrees {} {} := ⟨rfl, by simp, fun _ => rfl, by simp, fun _ => rfl, by simp, fun _ => rfl⟩
  have hstart : ParserState.marks {} ++ entryMark {} {} ++ marksOf (codeOf false (sourceLines source)) =
      (sourceCode source).flatMap Code.marks := hmarks
  have hnames : (passResolveLocalLabels m).functions.map AsmFunction.name =
      ((passResolveLocalLabels m).functions.map AsmFunction.code).map Code.name := by
    rw [List.map_map]
    rfl
  rcases parse_marks hagrees hmodule.regular hmodule.complete hmodule.nodup hrun with
    ⟨hlines, heq⟩ | ⟨hlines, hne⟩
  · -- the parser has found the functions of the source
    rw [hstart] at heq
    have hfs : s.functions.map AsmFunction.code = sourceCode source := by
      have hread := congrArg readMarks heq
      rw [ParserState.marks, readMarks_flatMap, readMarks_flatMap] at hread
      exact (Prod.mk.inj hread).2
    rw [hfs] at hcode
    have htargets : (passResolveLocalLabels m).functions.map AsmFunction.code =
        (sourceCode source).map (Code.renamed (sourceCode source)) ↔
          ∀ c ∈ sourceCode source, c.NamesOwn (sourceCode source) := by
      rw [hcode]
      exact List.map_inj_left.trans
        (forall₂_congr fun c hc => Code.resolve_eq_renamed_iff hnodup hlocal hc)
    -- and the names are those of its functions and of its labels
    have hdistinct (hkept : (passResolveLocalLabels m).functions.map AsmFunction.code =
        (sourceCode source).map (Code.renamed (sourceCode source))) :
        (((passResolveLocalLabels m).functions.map AsmFunction.name).Nodup →
          (emittedNames (passResolveLocalLabels m)).Nodup) ↔
        (((sourceCode source).map Code.name).Nodup → NamesFree (sourceCode source)) := by
      rw [hnames, emittedNames, hkept, List.map_map, List.flatMap_map]
      simp only [labels_renamed]
      exact forall_congr' (nodup_names_iff hnodup hnumbered)
    refine ⟨fun h => ⟨hlines, htargets.1 h.kept, (hdistinct h.kept).1 h.distinct⟩, fun h => ?_⟩
    have hkept := htargets.2 h.targets
    exact ⟨hkept, (hdistinct hkept).2 h.names⟩
  · -- it has not, and renaming labels does not hide it
    rw [hstart] at hne
    refine iff_of_false (fun h => hne ?_) fun h => hlines h.lines
    exact shape_of_kept hlocal hlocal' (hcode ▸ h.kept)

/-! ## Two modules -/

/-- A function with a loop. -/
def loopSource : Text :=
  "\t.text\n\t.globl f\nf:\n\tli a5,4\n.L2:\n\taddi a5,a5,-1\n\tbne a5,zero,.L2\n\tret\n".toList

/-- A second function whose loop begins at its entry. -/
def entryLoopSource : Text := loopSource ++ "\t.globl g\ng:\n.L3:\n\tj .L3\n".toList

/-- The module of a source that is parsed. -/
def parsed (source : Text) : AsmModule := (parse source).getD {}

/-- A loop behind the first instruction of its function keeps its label. -/
theorem localLabels_kept_loop : LabelsInPlace loopSource :=
  (localLabels_kept_iff (m := parsed loopSource) (by decide +kernel)
    ⟨by decide +kernel, by decide +kernel, by decide +kernel⟩).1 ⟨by decide +kernel, by decide +kernel⟩

/-- **A loop at the entry of a function loses its label** to the function before. -/
theorem localLabels_lost_entryLoop :
    parse entryLoopSource = some (parsed entryLoopSource) ∧ IsModule (sourceLines entryLoopSource) ∧
      ¬LabelsKept entryLoopSource (passResolveLocalLabels (parsed entryLoopSource)) :=
  ⟨by decide +kernel, ⟨by decide +kernel, by decide +kernel, by decide +kernel⟩,
    fun h => absurd h.kept (by decide +kernel)⟩

end RiscyOS.GasToJim
