import RiscyOS.GasToJim.Parse

/-!
# Printed lines

What the string functions make of text that has been put together: where a run of characters ends, what
`strip` takes off, and how a text falls back into the lines it was printed from.
-/

set_option autoImplicit false

namespace RiscyOS.GasToJim

/-! ## Runs of characters -/

section Runs

variable {p : Char → Bool} {a w t : Text}

/-- A run ends where the first other character is. -/
theorem takeWhile_run (hw : ∀ c ∈ w, p c = true) (ht : ∀ c ∈ t.head?, p c = false) :
    (w ++ t).takeWhile p = w := by
  rw [List.takeWhile_append_of_pos hw]
  cases t with
  | nil => simp
  | cons c t => rw [List.takeWhile_cons_of_neg (by simpa using ht c rfl), List.append_nil]

theorem dropWhile_run (hw : ∀ c ∈ w, p c = true) (ht : ∀ c ∈ t.head?, p c = false) :
    (w ++ t).dropWhile p = t := by
  rw [List.dropWhile_append_of_pos hw]
  cases t with
  | nil => rfl
  | cons c t => rw [List.dropWhile_cons_of_neg (by simpa using ht c rfl)]

/-- **`strip` takes off** what is in front of a text that neither begins nor ends with a space. -/
theorem strip_append (ha : ∀ c ∈ a, isSpace c = true) (hhead : ∀ c ∈ w.head?, isSpace c = false)
    (hlast : ∀ c ∈ w.getLast?, isSpace c = false) : strip (a ++ w) = w := by
  have hreverse : w.reverse.dropWhile isSpace = w.reverse :=
    dropWhile_run (w := []) nofun (by simpa using hlast)
  rw [strip, dropWhile_run ha hhead, hreverse, List.reverse_reverse]

end Runs

/-! ## Lines -/

/-- `f.readlines()`, without the line ends. -/
def readlines : Text → List Text
  | [] => []
  | '\r' :: '\n' :: t => [] :: readlines t
  | c :: t =>
    if c = '\n' ∨ c = '\r' then [] :: readlines t
    else
      match readlines t with
      | [] => [[c]]
      | line :: lines => (c :: line) :: lines

/-- Lines, each with a line end. -/
def unlines (lines : List Text) : Text := lines.flatMap (· ++ ['\n'])

theorem readlines_line {line t : Text} (h : ∀ c ∈ line, c ≠ '\n' ∧ c ≠ '\r') :
    readlines (line ++ '\n' :: t) = line :: readlines t := by
  induction line with
  | nil =>
    rw [List.nil_append, readlines, if_pos (Or.inl rfl)]
    nofun
  | cons c line ih =>
    have hc := h c List.mem_cons_self
    rw [List.cons_append, readlines, if_neg (not_or.2 hc), ih fun x hx => h x (List.mem_cons_of_mem _ hx)]
    intro t' hr _
    exact absurd hr hc.2

/-- **Lines are read back.** -/
theorem readlines_unlines {lines : List Text} (h : ∀ l ∈ lines, ∀ c ∈ l, c ≠ '\n' ∧ c ≠ '\r') :
    readlines (unlines lines) = lines := by
  induction lines with
  | nil => rfl
  | cons l lines ih =>
    rw [unlines, List.flatMap_cons, List.append_assoc, List.singleton_append,
      readlines_line (h l List.mem_cons_self)]
    exact congrArg _ (ih fun x hx => h x (List.mem_cons_of_mem _ hx))

theorem splitlines_line {line t : Text} (h : ∀ c ∈ line, isLineBreak c = false) :
    splitlines (line ++ '\n' :: t) = line :: splitlines t := by
  induction line with
  | nil =>
    have hbreak : isLineBreak '\n' = true := by decide
    rw [List.nil_append, splitlines, if_pos hbreak]
    nofun
  | cons c line ih =>
    have hc := h c List.mem_cons_self
    rw [List.cons_append, splitlines, if_neg (by simp [hc]), ih fun x hx => h x (List.mem_cons_of_mem _ hx)]
    rintro t' rfl _
    exact absurd hc (by decide)

theorem splitlines_unlines {lines : List Text} (h : ∀ l ∈ lines, ∀ c ∈ l, isLineBreak c = false) :
    splitlines (unlines lines) = lines := by
  induction lines with
  | nil => rfl
  | cons l lines ih =>
    rw [unlines, List.flatMap_cons, List.append_assoc, List.singleton_append,
      splitlines_line (h l List.mem_cons_self)]
    exact congrArg _ (ih fun x hx => h x (List.mem_cons_of_mem _ hx))

end RiscyOS.GasToJim
