import RiscyOS.Lib.Memory

/-!
# The text of a source line

`rva.c` reads a line with an index into it, up to the terminating zero.  Here is what it reads with:
blanks, identifiers, numbers and the characters after a backslash.  A line is a list of characters and
a position is a number; behind the end there are zeros.

Characters are those of ASCII.
-/

set_option autoImplicit false

namespace RiscyOS.Rva

open Memory

/-- A source line, without its terminator. -/
abbrev Line := List Char

/-- `line[position]`. -/
def charAt (line : Line) (position : Nat) : Char := line.getD position '\x00'

def isBlank (c : Char) : Bool := c = ' ' ∨ c = '\t'

/-- `skip_spc`. -/
def skipSpc (line : Line) (position : Nat) : Nat :=
  position + ((line.drop position).takeWhile isBlank).length

/-- `cmp_next_non_space` with no offset: whether the character is there, and the position behind it, if
it is. -/
def cmpNextNonSpace (line : Line) (pos : Nat) (character : Char) : Bool × Nat :=
  let pos := skipSpc line pos
  if charAt line pos = character then (true, pos + 1) else (false, pos)

/-- `test_eol`. -/
def testEol (c : Char) : Bool := c = '\x00' ∨ c = ';' ∨ c = '\n'

/-! ## Identifiers -/

def alphabetic (c : Char) : Bool := c = '_' ∨ ('A' ≤ c ∧ c ≤ 'Z') ∨ ('a' ≤ c ∧ c ≤ 'z')

def alphaNumeric (c : Char) : Bool := ('0' ≤ c ∧ c ≤ '9') ∨ alphabetic c ∨ c = '.'

/-- `get_identifier`: what it leaves in the buffer. -/
def getIdentifier (line : Line) (position maxLength : Nat) : Line :=
  if alphabetic (charAt line position) then
    ((line.drop position).takeWhile alphaNumeric).take (maxLength - 1)
  else []

/-! ## Numbers -/

/-- `c & 0xDF`: a letter in upper case. -/
def upperCase (c : Char) : Char := Char.ofNat (c.toNat &&& 0xdf)

/-- `num_char`, for a character that is not an underscore. -/
def numChar (radix : Nat) (c : Char) : Option Nat :=
  if c < '0' then none
  else
    let c := if 'a' ≤ c then upperCase c else c
    if c ≤ '9' then if c.toNat < '0'.toNat + radix then some (c.toNat - '0'.toNat) else none
    else if c < 'A' then none
    else if c.toNat < 'A'.toNat + radix - 10 then some (c.toNat - 'A'.toNat + 10)
    else none

/-- The loop of `get_num`: the value, how far it got, and whether there was a digit. -/
def digits (radix : Nat) : Line → Word → Nat → Bool → Word × Nat × Bool
  | [], value, i, found => (value, i, found)
  | c :: rest, value, i, found =>
    if c = '_' then digits radix rest value (i + 1) found
    else
      match numChar radix c with
      | some d => digits radix rest (value * BitVec.ofNat 32 radix + BitVec.ofNat 32 d) (i + 1) true
      | none => (value, i, found)

/-- `get_num`: the value and the new position, or none if no number was read. -/
def getNum (line : Line) (position radix : Nat) : Option (Word × Nat) :=
  let i := skipSpc line position
  match digits radix (line.drop i) 0 i false with
  | (value, i, true) => some (value, i)
  | (_, _, false) => none

/-- `c_char_esc`. -/
def cCharEsc (c : Char) : Word :=
  match c with
  | '0' => 0x00
  | 'a' => 0x07
  | 'b' => 0x08
  | 'f' => 0x0c
  | 'n' => 0x0a
  | 'r' => 0x0d
  | 't' => 0x09
  | 'v' => 0x0b
  | c => BitVec.ofNat 32 c.toNat

/-! ## Where reading gets to -/

theorem le_skipSpc (line : Line) (pos : Nat) : pos ≤ skipSpc line pos := Nat.le_add_right ..

theorem charAt_eq_of_le {line : Line} {pos : Nat} (h : line.length ≤ pos) : charAt line pos = '\x00' := by
  rw [charAt, List.getD_eq_getElem?_getD, List.getElem?_eq_none h]
  rfl

/-- A character that is not the terminator is on the line. -/
theorem lt_length_of_charAt {line : Line} {pos : Nat} (h : charAt line pos ≠ '\x00') : pos < line.length :=
  Nat.lt_of_not_le fun hle => h (charAt_eq_of_le hle)

theorem lt_length_of_eq {line : Line} {pos : Nat} {c : Char} (h : charAt line pos = c) (hc : c ≠ '\x00') :
    pos < line.length := lt_length_of_charAt (h ▸ hc)

theorem skipSpc_le {line : Line} {pos : Nat} (h : pos ≤ line.length) : skipSpc line pos ≤ line.length := by
  have hlen := (List.takeWhile_prefix isBlank (l := line.drop pos)).length_le
  rw [List.length_drop] at hlen
  rw [skipSpc]
  omega

theorem length_getIdentifier_le (line : Line) (pos n : Nat) :
    pos ≤ line.length → pos + (getIdentifier line pos n).length ≤ line.length := by
  intro h
  rw [getIdentifier]
  split
  · have hlen := (List.takeWhile_prefix alphaNumeric (l := line.drop pos)).length_le
    rw [List.length_drop] at hlen
    rw [List.length_take]
    omega
  · exact h

/-- Reading digits goes on to the right, and not beyond the line. -/
theorem digits_bounds (radix : Nat) (l : Line) (value : Word) (i : Nat) (found : Bool) :
    i ≤ (digits radix l value i found).2.1 ∧ (digits radix l value i found).2.1 ≤ i + l.length ∧
      ((digits radix l value i found).2.2 = true → found = true ∨ i < (digits radix l value i found).2.1) := by
  induction l generalizing value i found with
  | nil => exact ⟨Nat.le_refl _, Nat.le_refl _, Or.inl⟩
  | cons c rest ih =>
    rw [digits]
    split
    · obtain ⟨h₁, h₂, h₃⟩ := ih value (i + 1) found
      rw [List.length_cons]
      exact ⟨by omega, by omega, fun h => (h₃ h).imp_right fun _ => by omega⟩
    · split
      · rename_i d _
        obtain ⟨h₁, h₂, -⟩ := ih (value * BitVec.ofNat 32 radix + BitVec.ofNat 32 d) (i + 1) true
        rw [List.length_cons]
        exact ⟨by omega, by omega, fun _ => Or.inr (by omega)⟩
      · exact ⟨Nat.le_refl _, Nat.le_add_right .., Or.inl⟩

/-- What a number takes of the line. -/
theorem getNum_bounds {line : Line} {pos radix pos' : Nat} {v : Word} (hpos : pos ≤ line.length)
    (h : getNum line pos radix = some (v, pos')) : pos < pos' ∧ pos' ≤ line.length := by
  rw [getNum] at h
  obtain ⟨h₁, h₂, h₃⟩ := digits_bounds radix (line.drop (skipSpc line pos)) 0 (skipSpc line pos) false
  have hle := skipSpc_le hpos
  have hge := le_skipSpc line pos
  rw [List.length_drop] at h₂
  generalize digits radix (line.drop (skipSpc line pos)) 0 (skipSpc line pos) false = r at h h₁ h₂ h₃
  obtain ⟨value, i, found⟩ := r
  cases found with
  | false => exact absurd h (by simp)
  | true =>
    obtain ⟨rfl, rfl⟩ : value = v ∧ i = pos' := by simpa using h
    have hlt := (h₃ rfl).resolve_left Bool.false_ne_true
    simp only at hlt h₂
    exact ⟨by omega, by omega⟩

end RiscyOS.Rva
