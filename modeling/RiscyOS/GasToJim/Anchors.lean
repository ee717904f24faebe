import RiscyOS.GasToJim.CollapseSpec
import RiscyOS.GasToJim.Lines

/-!
# Anchors

GCC reaches the variables of a section from an anchor, a label of its own.  The directive that sets the
anchor stands before the label of the variable that is there.  `pass_fill_LANCHOR_MAP` goes through the
lines once more to find out which variable that is, and takes the one that it has last seen: in a
`.globl`, or as a label.

What has been seen last is the variable below the anchor if the `.globl` of that variable has been, and
nothing since.  A variable that is not global has no `.globl` (`anchors_resolve_iff`).
-/

set_option autoImplicit false

namespace RiscyOS.GasToJim

open Memory

/-! ## `pass_fill_LANCHOR_MAP` -/

/-- What is behind a literal, in a pattern. -/
def literal (p t : Text) : Option Text := if p <+: t then some (t.drop p.length) else none

/-- One or more characters of a class, and what is behind them. -/
def oneOrMore (p : Char → Bool) (t : Text) : Option (Text × Text) :=
  match t.takeWhile p with
  | [] => none
  | c :: w => some (c :: w, t.dropWhile p)

/-- `re.match(r"\.globl\s+(\w+)", t)`. -/
def matchGlobl (t : Text) : Option Text := do
  let t ← literal ".globl".toList t
  let (_, t) ← oneOrMore isSpace t
  let (name, _) ← oneOrMore isWord t
  return name

/-- `re.match(r"(\w+):", t)`. -/
def matchLabel (t : Text) : Option Text := do
  let (name, t) ← oneOrMore isWord t
  let _ ← literal ":".toList t
  return name

/-- `re.match(r"\.set\s+(\.LANCHOR\d+),\s*\. \+ (\d+)", t)`. -/
def matchSet (t : Text) : Option (Text × Text) := do
  let t ← literal ".set".toList t
  let (_, t) ← oneOrMore isSpace t
  let t ← literal ".LANCHOR".toList t
  let (number, t) ← oneOrMore Char.isDigit t
  let t ← literal ",".toList t
  let t ← literal ". + ".toList (t.dropWhile isSpace)
  let (offset, _) ← oneOrMore Char.isDigit t
  return (".LANCHOR".toList ++ number, offset)

/-- The variables of the pass. -/
structure AnchorScan where
  currentVar : Option Text := none
  lanchorMap : List (Text × Text × Int) := []

/-- One turn of its loop. -/
def scanLine (s : AnchorScan) (line : Text) : AnchorScan :=
  let line := strip line
  match matchGlobl line with
  | some name => { s with currentVar := some name }
  | none =>
    match matchLabel line with
    | some name => { s with currentVar := some name }
    | none =>
      match matchSet line, s.currentVar with
      | some (anchor, offset), some currentVar =>
        { s with lanchorMap := dictSet anchor (currentVar, (ofDigits 10 offset : Int)) s.lanchorMap }
      | _, _ => s

/-- `pass_fill_LANCHOR_MAP`. -/
def passFillLanchorMap (source : Text) : Anchors :=
  fun t => ((readlines source).foldl scanLine {}).lanchorMap.lookup t

/-! ## What GCC prints -/

/-- A line of its output. -/
inductive GccLine
  | globl (name : Text)
  | label (name : Text)
  /-- `.set .LANCHORnumber, . + offset`. -/
  | anchor (number offset : Text)
  | other (line : Text)

namespace GccLine

/-- `.LANCHORk`. -/
def anchorName (number : Text) : Text := ".LANCHOR".toList ++ number

/-- How it is printed. -/
def text : GccLine → Text
  | .globl name => '\t' :: (".globl".toList ++ '\t' :: name)
  | .label name => name ++ ":".toList
  | .anchor number offset =>
    '\t' :: (".set".toList ++ '\t' :: (anchorName number ++ (",".toList ++ (". + ".toList ++ offset))))
  | .other line => line

/-- Names and numbers are what they should be, and other lines are others.  The name of a variable of a
function has a dot in it, and is not global. -/
def Valid : GccLine → Prop
  | .globl name => name ≠ [] ∧ ∀ c ∈ name, isWord c = true
  | .label name => name ≠ [] ∧ ∀ c ∈ name, isWord c = true ∨ c = '.'
  | .anchor number offset => (number ≠ [] ∧ ∀ c ∈ number, c.isDigit = true) ∧
      offset ≠ [] ∧ ∀ c ∈ offset, c.isDigit = true
  | .other line => (∀ c ∈ line, c ≠ '\n' ∧ c ≠ '\r') ∧ matchGlobl (strip line) = none ∧
      matchLabel (strip line) = none ∧ matchSet (strip line) = none

/-- The label, if it is one. -/
def label? : GccLine → Option Text
  | .label name => some name
  | _ => none

/-- The symbol it defines. -/
def symbol? : GccLine → Option Text
  | .label name => some name
  | .anchor number _ => some (anchorName number)
  | .globl _ | .other _ => none

end GccLine

/-- Symbols are defined once. -/
structure GccData (lines : List GccLine) : Prop where
  valid : ∀ l ∈ lines, l.Valid
  symbols : (lines.filterMap GccLine.symbol?).Nodup

/-- The variable that stands next. -/
def variableBelow (lines : List GccLine) : Option Text := (lines.filterMap GccLine.label?).head?

/-- The symbol last met. -/
inductive SymbolAbove
  | nothing
  | globl (name : Text)
  | label (name : Text)

namespace SymbolAbove

/-- The symbol last met, a line later.  Names with a dot do not count. -/
def after (above : SymbolAbove) : GccLine → SymbolAbove
  | .globl name => .globl name
  | .label name => if name.all isWord then .label name else above
  | .anchor _ _ | .other _ => above

/-- Its name. -/
def name? : SymbolAbove → Option Text
  | .nothing => none
  | .globl name | .label name => some name

end SymbolAbove

/-- An anchor where it is set: before the label of a variable, at an offset from it. -/
structure AnchorSite where
  anchor : Text
  offset : Nat
  var : Text
  above : SymbolAbove

/-- The anchor set by a line, if it is one that stands before a variable. -/
def siteAt (above : SymbolAbove) (line : GccLine) (rest : List GccLine) : Option AnchorSite :=
  match line with
  | .anchor number offset =>
    (variableBelow rest).map fun v => ⟨GccLine.anchorName number, ofDigits 10 offset, v, above⟩
  | _ => none

/-- All that do. -/
def anchorSites : SymbolAbove → List GccLine → List AnchorSite
  | _, [] => []
  | above, line :: rest => (siteAt above line rest).toList ++ anchorSites (above.after line) rest

/-- The anchors of an output. -/
def anchorsOf (lines : List GccLine) : List AnchorSite := anchorSites .nothing lines

/-- The output as a text. -/
def gccSource (lines : List GccLine) : Text := unlines (lines.map GccLine.text)

/-- **An anchor resolves to the variable that it stands for**: in the map, and in what is loaded where
`%hi` of it was, given any addresses at which the anchor is where it should be. -/
structure AnchorResolves (source : Text) (a : AnchorSite) : Prop where
  mapped : passFillLanchorMap source a.anchor = some (a.var, (a.offset : Int))
  loaded : ∀ (isa : Isa) (addr : Text → Word), addr a.anchor = addr a.var + BitVec.ofNat 32 a.offset →
    ∀ (strTable : StrTable) (hi : Operand), hi.kind = .hi → hi.symbol = some a.anchor →
      ∃ u, upperOf (passFillLanchorMap source) strTable hi = some u ∧
        ∀ (d1 : Operand) (d : Text) (st : Hart), d1.reg = some d →
          execBody isa .jim addr (loadAddress d1 u) st = st.set d (addr a.anchor)

/-! ## Patterns -/

section Patterns

variable {p : Char → Bool} {w t : Text}

@[simp] theorem literal_append (w t : Text) : literal w (w ++ t) = some t := by
  rw [literal, if_pos (List.prefix_append w t), List.drop_left]

theorem oneOrMore_run (hne : w ≠ []) (hw : ∀ c ∈ w, p c = true) (ht : ∀ c ∈ t.head?, p c = false) :
    oneOrMore p (w ++ t) = some (w, t) := by
  rw [oneOrMore, takeWhile_run hw ht, dropWhile_run hw ht]
  cases w with
  | nil => exact absurd rfl hne
  | cons c w => rfl

theorem oneOrMore_all (hne : w ≠ []) (hw : ∀ c ∈ w, p c = true) : oneOrMore p w = some (w, []) := by
  have hrun := oneOrMore_run (t := []) hne hw nofun
  rwa [List.append_nil] at hrun

/-- Where a run ends in a text that is more than a run. -/
theorem exists_run (h : ¬ t.all p = true) :
    ∃ w x r, t = w ++ x :: r ∧ (∀ c ∈ w, p c = true) ∧ p x = false := by
  induction t with
  | nil => exact absurd rfl h
  | cons c t ih =>
    cases hc : p c with
    | false => exact ⟨[], c, t, rfl, nofun, hc⟩
    | true =>
      obtain ⟨w, x, r, rfl, hw, hx⟩ := ih fun hall => h (by rw [List.all_cons, hc, hall]; rfl)
      exact ⟨c :: w, x, r, rfl, List.forall_mem_cons.2 ⟨hc, hw⟩, hx⟩

theorem oneOrMore_none (h : ∀ c ∈ t, p c = false) : oneOrMore p t = none := by
  cases t with
  | nil => rfl
  | cons c t =>
    have hc : ¬ p c = true := by simpa using h c List.mem_cons_self
    rw [oneOrMore, List.takeWhile_cons_of_neg hc]

theorem isSpace_of_isWord {c : Char} (h : isWord c = true) : isSpace c = false := by
  have hrange : c ≠ ' ' ∧ 48 ≤ c.toNat ∧ c.toNat ≤ 122 := by
    delta isWord Char.isAlphanum Char.isAlpha Char.isUpper Char.isLower at h
    simp only [Char.isDigit, Bool.or_eq_true, decide_eq_true_eq, Bool.and_eq_true, UInt32.le_iff_toNat_le,
      ge_iff_le] at h
    refine ⟨?_, ?_⟩
    · rintro rfl
      revert h
      decide
    · obtain h | rfl := h
      · simp at h
        omega
      · decide
  simp only [isSpace, decide_eq_false_iff_not, List.mem_cons, List.not_mem_nil, or_false]
  rintro (h' | h')
  · exact hrange.1 h'
  · omega
theorem isSpace_of_isDigit {c : Char} (h : c.isDigit = true) : isSpace c = false :=
  isSpace_of_isWord (by simp [isWord, Char.isAlphanum, h])

/-- A directive, less the tab in front of it. -/
theorem strip_directive (hw : w.head? = some '.') (hne : t ≠ []) (ht : ∀ c ∈ t, isSpace c = false) :
    strip ('\t' :: (w ++ t)) = w ++ t := by
  have hhead : (w ++ t).head? = some '.' := by rw [List.head?_append, hw, Option.some_or]
  have hlast : (w ++ t).getLast? = t.getLast? := List.getLast?_append_of_ne_nil _ hne
  refine strip_append (a := ['\t']) (by decide) (fun c hc => ?_) (fun c hc => ?_)
  · obtain rfl := Option.some.inj (hhead.symm.trans hc)
    decide
  · exact ht c (List.mem_of_mem_getLast? (hlast.symm.trans hc))

end Patterns

/-! ## The scan -/

section Scan

variable {s : AnchorScan} {name number offset : Text}

theorem scanLine_globl (h : (GccLine.globl name).Valid) :
    scanLine s (GccLine.globl name).text = { s with currentVar := some name } := by
  obtain ⟨hne, hword⟩ := h
  have hstrip : strip (GccLine.globl name).text = ".globl".toList ++ (['\t'] ++ name) := by
    have hdir := strip_directive (w := ".globl".toList ++ ['\t']) (by decide) hne fun c hc =>
      isSpace_of_isWord (hword c hc)
    rwa [List.append_assoc] at hdir
  have hmatch : matchGlobl (".globl".toList ++ (['\t'] ++ name)) = some name := by
    have hspace : oneOrMore isSpace (['\t'] ++ name) = some (['\t'], name) :=
      oneOrMore_run (by decide) (by decide) fun c hc => isSpace_of_isWord (hword c (List.mem_of_mem_head? hc))
    rw [matchGlobl]
    simp only [literal_append, Option.bind_eq_bind, Option.bind_some, hspace, oneOrMore_all hne hword]
    rfl
  rw [scanLine, hstrip]
  simp only [hmatch]

/-- A label with a dot in it is overlooked. -/
theorem scanLine_label (h : (GccLine.label name).Valid) :
    scanLine s (GccLine.label name).text =
      if name.all isWord then { s with currentVar := some name } else s := by
  obtain ⟨hne, hchars⟩ := h
  have hspace : ∀ c ∈ name ++ ":".toList, isSpace c = false := by
    intro c hc
    rcases List.mem_append.1 hc with hc | hc
    · rcases hchars c hc with hw | rfl
      · exact isSpace_of_isWord hw
      · decide
    · obtain rfl := List.mem_singleton.1 hc
      decide
  have hstrip : strip (GccLine.label name).text = name ++ ":".toList :=
    strip_append (a := []) nofun (fun c hc => hspace c (List.mem_of_mem_head? hc))
      fun c hc => hspace c (List.mem_of_mem_getLast? hc)
  have hdirective : ∀ {w rest : Text}, literal w (name ++ ":".toList) = some rest →
      oneOrMore isSpace rest = none := by
    intro w rest h
    rw [literal, Option.ite_none_right_eq_some] at h
    exact oneOrMore_none fun c hc => hspace c (List.mem_of_mem_drop (Option.some.inj h.2 ▸ hc))
  have hnotGlobl : matchGlobl (name ++ ":".toList) = none := by
    rw [matchGlobl]
    cases hl : literal ".globl".toList (name ++ ":".toList) with
    | none => rfl
    | some rest => simp only [Option.bind_eq_bind, Option.bind_some, hdirective hl, Option.bind_none]
  have hnotSet : matchSet (name ++ ":".toList) = none := by
    rw [matchSet]
    cases hl : literal ".set".toList (name ++ ":".toList) with
    | none => rfl
    | some rest => simp only [Option.bind_eq_bind, Option.bind_some, hdirective hl, Option.bind_none]
  rw [scanLine, hstrip]
  simp only [hnotGlobl, hnotSet]
  by_cases hall : name.all isWord = true
  · have hmatch : matchLabel (name ++ ":".toList) = some name := by
      have hrun : oneOrMore isWord (name ++ ":".toList) = some (name, ":".toList) :=
        oneOrMore_run hne (List.all_eq_true.1 hall) fun c hc => by
          obtain rfl := Option.some.inj (hc : some ':' = some c)
          rfl
      rw [matchLabel, Option.bind_eq_bind, hrun]
      rfl
    simp only [hmatch, if_pos hall]
  · -- the run of word characters ends at the dot
    obtain ⟨w, x, r, rfl, hw, hx⟩ := exists_run hall
    have hcolon : x ≠ ':' := by
      rintro rfl
      rcases hchars ':' (by simp) with h | h
      · exact absurd h (by decide)
      · exact absurd h (by decide)
    have hliteral : literal ":".toList (x :: (r ++ ":".toList)) = none :=
      if_neg fun h => hcolon (List.cons_prefix_cons.1 h).1.symm
    have hmatch : matchLabel (w ++ x :: r ++ ":".toList) = none := by
      rw [List.append_assoc, List.cons_append, matchLabel]
      cases w with
      | nil =>
        have hrun : oneOrMore isWord ([] ++ x :: (r ++ ":".toList)) = none := by
          rw [List.nil_append, oneOrMore, List.takeWhile_cons_of_neg (by simp [hx])]
        rw [hrun]
        rfl
      | cons c w =>
        have hrun : oneOrMore isWord (c :: w ++ x :: (r ++ ":".toList)) =
            some (c :: w, x :: (r ++ ":".toList)) :=
          oneOrMore_run (List.cons_ne_nil c w) hw fun y hy => Option.some.inj hy ▸ hx
        simp only [Option.bind_eq_bind, hrun, Option.bind_some, hliteral, Option.bind_none]
    simp only [hmatch, if_neg hall]

theorem scanLine_anchor (h : (GccLine.anchor number offset).Valid) :
    scanLine s (GccLine.anchor number offset).text =
      match s.currentVar with
      | some v =>
        { s with lanchorMap := dictSet (GccLine.anchorName number) (v, (ofDigits 10 offset : Int)) s.lanchorMap }
      | none => s := by
  obtain ⟨⟨hnumber, hdigits⟩, hoffset, hoffdigits⟩ := h
  have hstrip : strip (GccLine.anchor number offset).text = ".set".toList ++ (['\t'] ++
      (".LANCHOR".toList ++ (number ++ (",".toList ++ (". + ".toList ++ offset))))) := by
    have hhead : (".set".toList ++ (['\t'] ++ (".LANCHOR".toList ++ (number ++ (",".toList ++
        ". + ".toList))))).head? = some '.' := by
      rw [List.head?_append]
      rfl
    have hdir := strip_directive hhead hoffset fun c hc => isSpace_of_isDigit (hoffdigits c hc)
    simp only [List.append_assoc] at hdir
    exact hdir
  have hnotGlobl : matchGlobl (".set".toList ++ (['\t'] ++
      (".LANCHOR".toList ++ (number ++ (",".toList ++ (". + ".toList ++ offset)))))) = none := rfl
  have hnotLabel : matchLabel (".set".toList ++ (['\t'] ++
      (".LANCHOR".toList ++ (number ++ (",".toList ++ (". + ".toList ++ offset)))))) = none := rfl
  have hmatch : matchSet (".set".toList ++ (['\t'] ++
      (".LANCHOR".toList ++ (number ++ (",".toList ++ (". + ".toList ++ offset)))))) =
        some (GccLine.anchorName number, offset) := by
    have hspace : ∀ t : Text, oneOrMore isSpace (['\t'] ++ (".LANCHOR".toList ++ t)) =
        some (['\t'], ".LANCHOR".toList ++ t) := fun t => oneOrMore_run (by decide) (by decide) (by
      intro c hc
      obtain rfl := Option.some.inj (hc : some '.' = some c)
      decide)
    have hnumberRun : ∀ t : Text, oneOrMore Char.isDigit (number ++ (",".toList ++ t)) =
        some (number, ",".toList ++ t) := fun t => oneOrMore_run hnumber hdigits (by
      intro c hc
      obtain rfl := Option.some.inj (hc : some ',' = some c)
      decide)
    have hdot : (". + ".toList ++ offset).dropWhile isSpace = ". + ".toList ++ offset := rfl
    rw [matchSet]
    simp only [literal_append, Option.bind_eq_bind, Option.bind_some, hspace, hnumberRun, hdot,
      oneOrMore_all hoffset hoffdigits]
    rfl
  rw [scanLine, hstrip]
  simp only [hnotGlobl, hnotLabel, hmatch]
  cases s.currentVar <;> rfl

theorem scanLine_other {line : Text} (h : (GccLine.other line).Valid) :
    scanLine s (GccLine.other line).text = s := by
  obtain ⟨-, hglobl, hlabel, hset⟩ := h
  rw [scanLine]
  simp only [GccLine.text, hglobl, hlabel, hset]

/-- What is seen last, after a line. -/
theorem scanLine_currentVar {l : GccLine} {above : SymbolAbove} (hl : l.Valid)
    (h : s.currentVar = above.name?) : (scanLine s l.text).currentVar = (above.after l).name? := by
  cases l with
  | globl name =>
    rw [scanLine_globl hl]
    rfl
  | label name =>
    rw [scanLine_label hl, SymbolAbove.after]
    split
    · rfl
    · exact h
  | anchor number offset =>
    rw [scanLine_anchor hl]
    split <;> exact h
  | other line =>
    rw [scanLine_other hl]
    exact h

/-- A line sets no anchor but its own. -/
theorem scanLine_lookup {l : GccLine} {x : Text} (hl : l.Valid) (hx : l.symbol? ≠ some x) :
    (scanLine s l.text).lanchorMap.lookup x = s.lanchorMap.lookup x := by
  cases l with
  | globl name => rw [scanLine_globl hl]
  | label name =>
    rw [scanLine_label hl]
    split <;> rfl
  | anchor number offset =>
    rw [scanLine_anchor hl]
    split
    · exact (lookup_dictSet _ _ _ _).trans (if_neg fun h => hx (congrArg some h.symm))
    · rfl
  | other line => rw [scanLine_other hl]

theorem scan_lookup {lines : List GccLine} {x : Text} (hvalid : ∀ l ∈ lines, l.Valid)
    (hx : x ∉ lines.filterMap GccLine.symbol?) :
    ((lines.map GccLine.text).foldl scanLine s).lanchorMap.lookup x = s.lanchorMap.lookup x := by
  induction lines generalizing s with
  | nil => rfl
  | cons l lines ih =>
    obtain ⟨hl, hlines⟩ := List.forall_mem_cons.1 hvalid
    have hhead : l.symbol? ≠ some x := fun h => hx (List.mem_filterMap.2 ⟨l, List.mem_cons_self, h⟩)
    have htail : x ∉ lines.filterMap GccLine.symbol? := fun h => by
      obtain ⟨l', hl', h'⟩ := List.mem_filterMap.1 h
      exact hx (List.mem_filterMap.2 ⟨l', List.mem_cons_of_mem _ hl', h'⟩)
    rw [List.map_cons, List.foldl_cons, ih hlines htail, scanLine_lookup hl hhead]

/-- What a pattern captures is of its class. -/
theorem mem_of_oneOrMore {p : Char → Bool} {t w r : Text} (h : oneOrMore p t = some (w, r)) :
    ∀ c ∈ w, p c = true := by
  rw [oneOrMore] at h
  split at h
  · cases h
  · rename_i x w' htake
    obtain ⟨rfl, -⟩ := Prod.mk.inj (Option.some.inj h)
    exact fun c hc => List.all_eq_true.1 List.all_takeWhile c (htake ▸ hc)

/-- The names that have been seen are words. -/
def AnchorScan.Words (s : AnchorScan) : Prop :=
  (∀ v, s.currentVar = some v → ∀ c ∈ v, isWord c = true) ∧
    ∀ e ∈ s.lanchorMap, ∀ c ∈ e.2.1, isWord c = true

theorem scanLine_words {line : Text} (h : s.Words) : (scanLine s line).Words := by
  have hglobl : ∀ {t v : Text}, matchGlobl t = some v → ∀ c ∈ v, isWord c = true := by
    intro t v hv
    obtain ⟨t₁, -, hv⟩ := Option.bind_eq_some_iff.1 hv
    obtain ⟨⟨w, t₂⟩, -, hv⟩ := Option.bind_eq_some_iff.1 hv
    obtain ⟨⟨w, t₃⟩, hw, hv⟩ := Option.bind_eq_some_iff.1 hv
    obtain rfl := Option.some.inj hv
    exact mem_of_oneOrMore hw
  have hlabel : ∀ {t v : Text}, matchLabel t = some v → ∀ c ∈ v, isWord c = true := by
    intro t v hv
    obtain ⟨⟨w, t₂⟩, hw, hv⟩ := Option.bind_eq_some_iff.1 hv
    obtain ⟨t₃, -, hv⟩ := Option.bind_eq_some_iff.1 hv
    obtain rfl := Option.some.inj hv
    exact mem_of_oneOrMore hw
  have hseen : ∀ {name : Text}, (∀ c ∈ name, isWord c = true) →
      AnchorScan.Words { s with currentVar := some name } :=
    fun hname => ⟨fun v hv => Option.some.inj hv ▸ hname, h.2⟩
  rw [scanLine]
  split
  · rename_i name hname
    exact hseen (hglobl hname)
  · split
    · rename_i name hname
      exact hseen (hlabel hname)
    · split
      · rename_i anchor offset v _ hv
        refine ⟨h.1, fun e he => ?_⟩
        rcases mem_dictSet he with he | he
        · exact h.2 e he
        · rw [he]
          exact h.1 v hv
      · exact h

/-- **The map is to words only.** -/
theorem passFillLanchorMap_word {source x v : Text} {n : Int} (h : passFillLanchorMap source x = some (v, n)) :
    ∀ c ∈ v, isWord c = true := by
  have hwords : ∀ (lines : List Text) (s : AnchorScan), s.Words → (lines.foldl scanLine s).Words := by
    intro lines
    induction lines with
    | nil => exact fun s hs => hs
    | cons line lines ih => exact fun s hs => ih _ (scanLine_words hs)
  have hmap := (hwords (readlines source) {} ⟨nofun, nofun⟩).2
  obtain ⟨l₁, l₂, hmem, -⟩ := List.lookup_eq_some_iff.1 h
  exact hmap (x, v, n) (hmem ▸ by simp)

end Scan

/-! ## Sites -/

section Sites

variable {above : SymbolAbove} {lines rest : List GccLine} {line : GccLine} {a : AnchorSite} {s : AnchorScan}

/-- A site is the line in front, or one of the rest. -/
theorem mem_anchorSites_cons (h : a ∈ anchorSites above (line :: rest)) :
    (∃ number offset v, line = .anchor number offset ∧ variableBelow rest = some v ∧
      a = ⟨GccLine.anchorName number, ofDigits 10 offset, v, above⟩) ∨
    a ∈ anchorSites (above.after line) rest := by
  rw [anchorSites, List.mem_append] at h
  refine h.imp_left fun h => ?_
  cases line with
  | anchor number offset =>
    obtain ⟨v, hv, ha⟩ := Option.map_eq_some_iff.1 (Option.mem_toList.1 h)
    exact ⟨number, offset, v, rfl, hv, ha.symm⟩
  | globl | label | other => exact absurd h List.not_mem_nil

theorem mem_symbols_of_variableBelow {v : Text} (h : variableBelow lines = some v) :
    v ∈ lines.filterMap GccLine.symbol? := by
  obtain ⟨l, hl, hlabel⟩ := List.mem_filterMap.1 (List.mem_of_mem_head? h)
  refine List.mem_filterMap.2 ⟨l, hl, ?_⟩
  cases l with
  | label name => exact hlabel
  | globl | anchor | other => exact absurd hlabel nofun

theorem anchor_mem_symbols (h : a ∈ anchorSites above lines) :
    a.anchor ∈ lines.filterMap GccLine.symbol? := by
  induction lines generalizing above with
  | nil => exact absurd h List.not_mem_nil
  | cons line rest ih =>
    rcases mem_anchorSites_cons h with ⟨number, offset, v, rfl, -, rfl⟩ | h
    · exact List.mem_cons_self
    · obtain ⟨l, hl, hsymbol⟩ := List.mem_filterMap.1 (ih h)
      exact List.mem_filterMap.2 ⟨l, List.mem_cons_of_mem _ hl, hsymbol⟩

/-- The symbols of the rest are others than that of the line in front. -/
theorem nodup_symbols_cons (h : ((line :: rest).filterMap GccLine.symbol?).Nodup) :
    (rest.filterMap GccLine.symbol?).Nodup ∧
      ∀ x ∈ rest.filterMap GccLine.symbol?, line.symbol? ≠ some x := by
  cases hsymbol : line.symbol? with
  | none =>
    rw [List.filterMap_cons_none hsymbol] at h
    exact ⟨h, fun x _ => nofun⟩
  | some y =>
    rw [List.filterMap_cons_some hsymbol, List.nodup_cons] at h
    exact ⟨h.2, fun x hx heq => h.1 (Option.some.inj heq ▸ hx)⟩

/-- An anchor is not the variable it stands before. -/
theorem anchor_ne_var (hnodup : (lines.filterMap GccLine.symbol?).Nodup) (h : a ∈ anchorSites above lines) :
    a.anchor ≠ a.var := by
  induction lines generalizing above with
  | nil => exact absurd h List.not_mem_nil
  | cons line rest ih =>
    obtain ⟨hrest, hother⟩ := nodup_symbols_cons hnodup
    rcases mem_anchorSites_cons h with ⟨number, offset, v, rfl, hv, rfl⟩ | h
    · exact fun heq => hother v (mem_symbols_of_variableBelow hv) (congrArg some heq)
    · exact ih hrest h

/-- A label above an anchor is not the one below it. -/
theorem above_ne_label (hnodup : (lines.filterMap GccLine.symbol?).Nodup)
    (habove : ∀ v, above = .label v → v ∉ lines.filterMap GccLine.symbol?)
    (h : a ∈ anchorSites above lines) : a.above ≠ .label a.var := by
  induction lines generalizing above with
  | nil => exact absurd h List.not_mem_nil
  | cons line rest ih =>
    obtain ⟨hrest, hother⟩ := nodup_symbols_cons hnodup
    have hmem : ∀ x ∈ rest.filterMap GccLine.symbol?, x ∈ (line :: rest).filterMap GccLine.symbol? := by
      intro x hx
      obtain ⟨l, hl, hsymbol⟩ := List.mem_filterMap.1 hx
      exact List.mem_filterMap.2 ⟨l, List.mem_cons_of_mem _ hl, hsymbol⟩
    rcases mem_anchorSites_cons h with ⟨number, offset, v, rfl, hv, rfl⟩ | h
    · exact fun heq => habove v heq (hmem v (mem_symbols_of_variableBelow hv))
    · refine ih hrest (fun v hv hx => ?_) h
      cases line with
      | globl name => exact absurd hv nofun
      | label name =>
        rw [SymbolAbove.after] at hv
        split at hv
        · obtain rfl := SymbolAbove.label.inj hv
          exact hother _ hx rfl
        · exact habove v hv (hmem v hx)
      | anchor | other => exact habove v hv (hmem v hx)

/-- **What the map has for an anchor**: the symbol last met. -/
theorem scan_site (hvalid : ∀ l ∈ lines, l.Valid) (hnodup : (lines.filterMap GccLine.symbol?).Nodup)
    (hcurrent : s.currentVar = above.name?) (h : a ∈ anchorSites above lines) :
    ((lines.map GccLine.text).foldl scanLine s).lanchorMap.lookup a.anchor =
      match a.above.name? with
      | some v => some (v, (a.offset : Int))
      | none => s.lanchorMap.lookup a.anchor := by
  induction lines generalizing above s with
  | nil => exact absurd h List.not_mem_nil
  | cons line rest ih =>
    obtain ⟨hline, hlines⟩ := List.forall_mem_cons.1 hvalid
    obtain ⟨hrest, hother⟩ := nodup_symbols_cons hnodup
    rw [List.map_cons, List.foldl_cons]
    rcases mem_anchorSites_cons h with ⟨number, offset, v, rfl, hv, rfl⟩ | h
    · rw [scan_lookup hlines fun hx => hother _ hx rfl, scanLine_anchor hline, hcurrent]
      dsimp only
      cases above.name? with
      | some name => exact (lookup_dictSet _ _ _ _).trans (if_pos rfl)
      | none => rfl
    · rw [ih hlines hrest (scanLine_currentVar hline hcurrent) h,
        scanLine_lookup hline (hother _ (anchor_mem_symbols h))]

end Sites

/-! ## What is loaded -/

section Loaded

variable {lines : List GccLine} {a : AnchorSite}

/-- A line has no line end in it. -/
theorem GccLine.Valid.text_ne {l : GccLine} (h : l.Valid) : ∀ c ∈ l.text, c ≠ '\n' ∧ c ≠ '\r' := by
  have hspace : ∀ c : Char, isSpace c = false → c ≠ '\n' ∧ c ≠ '\r' := by
    intro c hc
    refine ⟨?_, ?_⟩
    all_goals rintro rfl
    all_goals exact absurd hc (by decide)
  cases l with
  | globl name =>
    have hname : ∀ c ∈ name, c ≠ '\n' ∧ c ≠ '\r' := fun c hc => hspace c (isSpace_of_isWord (h.2 c hc))
    exact List.forall_mem_cons.2 ⟨by decide, List.forall_mem_append.2
      ⟨by decide, List.forall_mem_cons.2 ⟨by decide, hname⟩⟩⟩
  | label name =>
    refine List.forall_mem_append.2 ⟨fun c hc => ?_, by decide⟩
    rcases h.2 c hc with hword | rfl
    · exact hspace c (isSpace_of_isWord hword)
    · decide
  | anchor number offset =>
    have hnumber : ∀ c ∈ number, c ≠ '\n' ∧ c ≠ '\r' := fun c hc =>
      hspace c (isSpace_of_isDigit (h.1.2 c hc))
    have hoffset : ∀ c ∈ offset, c ≠ '\n' ∧ c ≠ '\r' := fun c hc =>
      hspace c (isSpace_of_isDigit (h.2.2 c hc))
    exact List.forall_mem_cons.2 ⟨by decide, List.forall_mem_append.2 ⟨by decide, List.forall_mem_cons.2
      ⟨by decide, List.forall_mem_append.2 ⟨List.forall_mem_append.2 ⟨by decide, hnumber⟩,
        List.forall_mem_append.2 ⟨by decide, List.forall_mem_append.2 ⟨by decide, hoffset⟩⟩⟩⟩⟩⟩
  | other line => exact h.1

/-- **What the map has for an anchor.** -/
theorem passFillLanchorMap_site (h : GccData lines) (ha : a ∈ anchorsOf lines) :
    passFillLanchorMap (gccSource lines) a.anchor = a.above.name?.map fun v => (v, (a.offset : Int)) := by
  have hlines : readlines (gccSource lines) = lines.map GccLine.text := by
    refine readlines_unlines fun t ht => ?_
    obtain ⟨l, hl, rfl⟩ := List.mem_map.1 ht
    exact (h.valid l hl).text_ne
  rw [passFillLanchorMap, hlines, scan_site h.valid h.symbols rfl ha]
  cases a.above.name? <;> rfl

theorem upperOf_anchor {anchors : Anchors} {strTable : StrTable} {hi : Operand} {s v : Text} {n : Int}
    (hs : ".LANCHOR".toList <+: s) (h : anchors s = some (v, n)) (hkind : hi.kind = .hi)
    (hsymbol : hi.symbol = some s) : upperOf anchors strTable hi = some ⟨true, some v, n⟩ := by
  have hstr : hi.str = some s := by rw [Operand.str, hkind, formatted, hsymbol]; rfl
  rw [upperOf, hstr]
  simp only [Option.bind_eq_bind, Option.bind_some, if_pos hs, hsymbol, h]
  rfl

/-- The assembler refuses an offset that is too large. -/
theorem execBody_loadAddress_none {isa : Isa} {addr : Text → Word} {d1 : Operand} {d s : Text} {n : Int}
    {r : Reg} (hd : d1.reg = some d) (hr : regNumber d = some r) (hn : 2048 ≤ n) (st : Hart) :
    execBody isa .jim addr (loadAddress d1 ⟨true, some s, n⟩) st = none := by
  have hne : n ≠ 0 := by omega
  have hlarge : ¬ n < 2048 := by omega
  simp [loadAddress, execBody, exec, Instruction.form, registerOperand, hd, Hart.set, Hart.get, hr, hne, hlarge]

theorem anchor_prefix {above : SymbolAbove} (h : a ∈ anchorSites above lines) :
    ".LANCHOR".toList <+: a.anchor := by
  induction lines generalizing above with
  | nil => exact absurd h List.not_mem_nil
  | cons line rest ih =>
    rcases mem_anchorSites_cons h with ⟨number, offset, v, rfl, -, rfl⟩ | h
    · exact List.prefix_append _ _
    · exact ih h

/-- **Anchors resolve to the variables they stand for** if and only if the symbol last met before each of
them is the `.globl` of its variable, and its offset is that of an `addi`. -/
theorem anchors_resolve_iff (lines : List GccLine) (h : GccData lines) :
    (∀ a ∈ anchorsOf lines, AnchorResolves (gccSource lines) a) ↔
      ∀ a ∈ anchorsOf lines, a.above = .globl a.var ∧ a.offset < 2048 := by
  refine forall₂_congr fun a ha => ?_
  have hmap := passFillLanchorMap_site h ha
  have hname := anchor_prefix ha
  constructor
  · intro hresolves
    have hmapped := hresolves.mapped
    have habove : a.above = .globl a.var := by
      have hnot : a.above ≠ .label a.var := by
        refine above_ne_label h.symbols (fun v hv => ?_) ha
        cases hv
      rw [hmap] at hmapped
      cases hsymbol : a.above with
      | nothing =>
        rw [hsymbol] at hmapped
        cases hmapped
      | globl name =>
        rw [hsymbol] at hmapped
        exact congrArg SymbolAbove.globl (Prod.mk.inj (Option.some.inj hmapped)).1
      | label name =>
        rw [hsymbol] at hmapped hnot
        exact absurd (congrArg SymbolAbove.label (Prod.mk.inj (Option.some.inj hmapped)).1) hnot
    refine ⟨habove, ?_⟩
    by_contra hlarge
    have hne := anchor_ne_var h.symbols ha
    obtain ⟨u, hu, hload⟩ := hresolves.loaded loadIsa
      (fun t => if t = a.anchor then BitVec.ofNat 32 a.offset else 0)
      (by rw [if_pos rfl, if_neg hne.symm]; exact (BitVec.zero_add _).symm) []
      { kind := .hi, raw := [], symbol := some a.anchor } rfl rfl
    rw [upperOf_anchor hname hmapped rfl rfl] at hu
    obtain rfl := Option.some.inj hu
    have hreg : regNumber "a0".toList = some 10 := by decide
    have hexec := hload (registerOperand (some "a0".toList)) "a0".toList ⟨fun _ => 0, fun _ => 0, []⟩ rfl
    rw [execBody_loadAddress_none rfl hreg (by omega), Hart.set, hreg] at hexec
    cases hexec
  · rintro ⟨habove, hsmall⟩
    have hmapped : passFillLanchorMap (gccSource lines) a.anchor = some (a.var, (a.offset : Int)) := by
      rw [hmap, habove]
      rfl
    refine ⟨hmapped, fun isa addr haddr strTable hi hkind hsymbol => ?_⟩
    refine ⟨_, upperOf_anchor hname hmapped hkind hsymbol, fun d1 d st hd => ?_⟩
    exact exec_loadAddress hd (by omega) (by omega) (by rw [BitVec.ofInt_natCast, haddr]) st

end Loaded

instance : DecidablePred GccLine.Valid
  | .globl name => inferInstanceAs (Decidable (name ≠ [] ∧ ∀ c ∈ name, isWord c = true))
  | .label name => inferInstanceAs (Decidable (name ≠ [] ∧ ∀ c ∈ name, isWord c = true ∨ c = '.'))
  | .anchor number offset => inferInstanceAs (Decidable ((number ≠ [] ∧ ∀ c ∈ number, c.isDigit = true) ∧
      offset ≠ [] ∧ ∀ c ∈ offset, c.isDigit = true))
  | .other line => inferInstanceAs (Decidable ((∀ c ∈ line, c ≠ '\n' ∧ c ≠ '\r') ∧
      matchGlobl (strip line) = none ∧ matchLabel (strip line) = none ∧ matchSet (strip line) = none))

/-- Two variables, the second with an anchor. -/
def twoVariables (exported : Bool) : List GccLine :=
  [.other "\t.bss".toList, .globl "ready".toList, .label "ready".toList, .other "\t.zero\t4".toList] ++
    (if exported then [.globl "queue".toList] else []) ++
    [.anchor "0".toList "0".toList, .label "queue".toList, .other "\t.zero\t64".toList]

/-- A global one. -/
theorem anchors_resolve_global : AnchorResolves (gccSource (twoVariables true))
    ⟨".LANCHOR0".toList, 0, "queue".toList, .globl "queue".toList⟩ :=
  (anchors_resolve_iff (twoVariables true) ⟨by decide, by decide⟩).2
    (List.forall_mem_singleton.2 ⟨rfl, by decide⟩) _ List.mem_cons_self

/-- If it is static, the anchor is taken for the first. -/
theorem anchor_static_misses : ¬ ∀ lines, GccData lines →
    ∀ a ∈ anchorsOf lines, AnchorResolves (gccSource lines) a := by
  intro h
  have hmapped := (h (twoVariables false) ⟨by decide, by decide⟩
    ⟨".LANCHOR0".toList, 0, "queue".toList, .label "ready".toList⟩ List.mem_cons_self).mapped
  exact absurd hmapped (by decide +kernel)

end RiscyOS.GasToJim
