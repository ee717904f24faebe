import Mathlib.Data.List.DropRight
import Mathlib.Data.List.GetD
import RiscyOS.Fs.OpenSingle

/-!
# Packing names

`make_fat_83_name` once more, now store by store.  It blanks its eleven bytes of output, looks for a dot
from the second character on, and copies what is before it and what is after it to two buffers of its own,
in upper case, up to eight characters and up to three; a character it rejects ends it there, with nothing
but blanks in the output.  Then the two buffers go to the output.

* `makeFat83Name_stores` — what is in the output at the end is what `makeFat83Name` says.
* `makeFat83Name_ordinary` — a name of the form that fits a directory entry is packed as it should be, and
  no name at all is stored beyond the eleven bytes.
* `identifies_iff` — two names are packed to the same eleven bytes when they differ only in what is cut off.
-/

set_option autoImplicit false

namespace RiscyOS

open Memory

/-! ## Stores -/

/-- The stores that put `bytes` at an address, in order: what `memcpy` and `memset` come to. -/
def storesAt : Nat → List Byte → List (Nat × Byte)
  | _, [] => []
  | i, b :: bytes => (i, b) :: storesAt (i + 1) bytes

/-- A buffer after some stores. -/
def storeAll (stores : List (Nat × Byte)) (out : Nat → Byte) : Nat → Byte :=
  stores.foldl (fun out x => Function.update out x.1 x.2) out

theorem storeAll_append (stores stores' : List (Nat × Byte)) (out : Nat → Byte) :
    storeAll (stores ++ stores') out = storeAll stores' (storeAll stores out) :=
  List.foldl_append

theorem storeAll_storesAt (bytes : List Byte) (i j : Nat) (out : Nat → Byte) :
    storeAll (storesAt i bytes) out j = if i ≤ j then bytes.getD (j - i) (out j) else out j := by
  induction bytes generalizing i out with
  | nil =>
    rw [List.getD_nil, ite_self]
    rfl
  | cons b bytes ih =>
    change storeAll (storesAt (i + 1) bytes) (Function.update out i b) j = _
    rw [ih]
    rcases Nat.lt_trichotomy i j with hlt | rfl | hgt
    · rw [if_pos (show i + 1 ≤ j from hlt), if_pos hlt.le, Function.update_of_ne hlt.ne',
        show j - i = (j - (i + 1)) + 1 by omega, List.getD_cons_succ]
    · rw [if_neg (by omega), if_pos le_rfl, Nat.sub_self, Function.update_self, List.getD_cons_zero]
    · rw [if_neg (by omega), if_neg (by omega), Function.update_of_ne hgt.ne]

theorem lt_of_mem_storesAt {bytes : List Byte} {i : Nat} {x : Nat × Byte} (hx : x ∈ storesAt i bytes) :
    x.1 < i + bytes.length := by
  induction bytes generalizing i with
  | nil => cases hx
  | cons b bytes ih =>
    rw [List.length_cons]
    rcases List.mem_cons.1 hx with rfl | hx
    · exact Nat.lt_add_of_pos_right (Nat.succ_pos _)
    · have := ih hx
      omega

/-! ## `make_fat_83_name` -/

/-- The search for the dot.  It looks at the character after the one it is at, so not at the first. -/
def findDot : List Byte → Nat → Option Nat
  | [], _ => none
  | [_], _ => none
  | _ :: c :: rest, i => if c = dot then some (i + 1) else findDot (c :: rest) (i + 1)

/-- A copy loop with room for `cap` characters; `none` where it meets a character it rejects. -/
def copyUpper (cap : Nat) : List Byte → List Byte → Option (List Byte)
  | [], kept => some kept
  | c :: rest, kept =>
    if !fatValidChar c then none
    else copyUpper cap rest (if kept.length < cap then kept ++ [toupper c] else kept)

/-- What it returns, and its stores to `out`, in order. -/
def makeFat83NameStores (input : List Byte) : Int × List (Nat × Byte) :=
  let blanks := storesAt 0 (List.replicate 11 0x20)
  let parts := match findDot input 0 with
    | some i => (input.take i, input.drop (i + 1))
    | none => (input, [])
  match copyUpper 8 parts.1 [] with
  | none => (0, blanks)
  | some name =>
    match copyUpper 3 parts.2 [] with
    | none => (0, blanks)
    | some ext => (1, blanks ++ storesAt 0 name ++ storesAt 8 ext)

/-- The dot is where the tail of the name first has one. -/
theorem findDot_cons (c : Byte) (rest : List Byte) (i : Nat) :
    findDot (c :: rest) i =
      if dot ∈ rest then some (i + 1 + (rest.takeWhile (· ≠ dot)).length) else none := by
  induction rest generalizing c i with
  | nil => rfl
  | cons c' rest ih =>
    rw [findDot]
    by_cases hdot : c' = dot
    · rw [if_pos hdot, if_pos (hdot ▸ List.mem_cons_self), List.takeWhile_cons_of_neg (by simpa using hdot)]
      rfl
    · have hmem : dot ∈ c' :: rest ↔ dot ∈ rest := by
        rw [List.mem_cons, or_iff_right (Ne.symm hdot)]
      rw [if_neg hdot, ih, List.takeWhile_cons_of_pos (by simpa using hdot), List.length_cons]
      simp only [hmem]
      split
      · exact congrArg some (by omega)
      · rfl

/-- **The name is cut in two** as `splitExt` has it. -/
theorem findDot_splitExt (input : List Byte) :
    (match findDot input 0 with
      | some i => (input.take i, input.drop (i + 1))
      | none => (input, [])) = splitExt input := by
  cases input with
  | nil => rfl
  | cons c rest =>
    rw [findDot_cons, splitExt]
    have hsplit : rest.takeWhile (· ≠ dot) ++ rest.dropWhile (· ≠ dot) = rest :=
      List.takeWhile_append_dropWhile
    by_cases hdot : dot ∈ rest
    · obtain ⟨l, hl⟩ : ∃ l, rest.takeWhile (· ≠ dot) = l := ⟨_, rfl⟩
      obtain ⟨r, hr⟩ : ∃ r, rest.dropWhile (· ≠ dot) = r := ⟨_, rfl⟩
      rw [hl, hr] at hsplit ⊢
      rw [if_pos hdot, ← hsplit]
      simp only [Nat.zero_add, Nat.add_comm 1 l.length, List.take_succ_cons, List.take_left,
        List.drop_succ_cons]
      rw [← List.tail_drop, List.drop_left]
    · have hall : ∀ b ∈ rest, decide (b ≠ dot) = true := fun b hb =>
        decide_eq_true fun h => hdot (h ▸ hb)
      rw [if_neg hdot, List.takeWhile_eq_self_iff.2 hall, List.dropWhile_eq_nil_iff.2 hall]
      rfl

/-- **A copy loop** keeps the first characters, and none is rejected. -/
theorem copyUpper_eq (cap : Nat) (s kept : List Byte) :
    copyUpper cap s kept =
      if s.all fatValidChar then some (kept ++ (s.take (cap - kept.length)).map toupper) else none := by
  induction s generalizing kept with
  | nil => simp [copyUpper]
  | cons c rest ih =>
    rw [copyUpper, List.all_cons]
    cases hc : fatValidChar c with
    | false => rfl
    | true =>
      rw [Bool.not_true, Bool.true_and, if_neg Bool.false_ne_true, ih]
      by_cases hroom : kept.length < cap
      · rw [if_pos hroom, show cap - kept.length = cap - (kept ++ [toupper c]).length + 1 by
          rw [List.length_append, List.length_singleton]; omega, List.take_succ_cons, List.map_cons,
          List.append_assoc, List.singleton_append]
      · rw [if_neg hroom, Nat.sub_eq_zero_of_le (Nat.not_lt.1 hroom), List.take_zero, List.take_zero]

/-- What a name has to be made of to be packed. -/
def AcceptedName (input : List Byte) : Prop :=
  (splitExt input).1.all fatValidChar = true ∧ (splitExt input).2.all fatValidChar = true

instance : DecidablePred AcceptedName := fun _ => inferInstanceAs (Decidable (_ ∧ _))

/-- What it returns and stores, case by case. -/
theorem makeFat83NameStores_eq (input : List Byte) :
    makeFat83NameStores input =
      if AcceptedName input then
        (1, storesAt 0 (List.replicate 11 0x20) ++
          storesAt 0 (((splitExt input).1.take 8).map toupper) ++
          storesAt 8 (((splitExt input).2.take 3).map toupper))
      else (0, storesAt 0 (List.replicate 11 0x20)) := by
  rw [makeFat83NameStores]
  simp only [findDot_splitExt, copyUpper_eq, List.nil_append, List.length_nil, Nat.sub_zero]
  by_cases hname : (splitExt input).1.all fatValidChar = true
  · by_cases hext : (splitExt input).2.all fatValidChar = true
    · rw [if_pos hname, if_pos hext, if_pos ⟨hname, hext⟩]
    · rw [if_pos hname, if_neg hext, if_neg fun h : AcceptedName input => hext h.2]
  · rw [if_neg hname, if_neg fun h : AcceptedName input => hname h.1]

/-- **It returns 1** for the names it accepts. -/
theorem makeFat83NameStores_fst {input : List Byte} :
    (makeFat83NameStores input).1 = 1 ↔ AcceptedName input := by
  rw [makeFat83NameStores_eq]
  split
  · rename_i h
    exact iff_of_true rfl h
  · rename_i h
    exact iff_of_false (by decide) h

theorem makeFat83Name_of_accepted {input : List Byte} (h : AcceptedName input) :
    makeFat83Name input = padUpper 8 (splitExt input).1 ++ padUpper 3 (splitExt input).2 := by
  rw [makeFat83Name]
  exact if_pos (by rw [h.1, h.2]; rfl)

theorem makeFat83Name_of_not_accepted {input : List Byte} (h : ¬ AcceptedName input) :
    makeFat83Name input = List.replicate 11 0x20 := by
  rw [makeFat83Name]
  exact if_neg fun hand => h (Bool.and_eq_true_iff.1 hand)

/-- Byte `j` of a padded part. -/
theorem padUpper_getD (n : Nat) (s : List Byte) {j : Nat} (hj : j < n) (b : Byte) :
    (padUpper n s).getD j b = ((s.take n).map toupper).getD j 0x20 := by
  rw [padUpper, List.rightpad, List.getD_eq_getElem?_getD, List.getD_eq_getElem?_getD,
    List.getElem?_append]
  split
  · rename_i hlt
    rw [List.getElem?_eq_getElem hlt]
    rfl
  · rename_i hge
    rw [List.getElem?_replicate, if_pos (by omega), List.getElem?_eq_none (Nat.not_lt.1 hge)]
    rfl

/-- **The stores make the name**: whatever was in the output before. -/
theorem makeFat83Name_stores (input : List Byte) (out : Nat → Byte) :
    (List.range 11).map (storeAll (makeFat83NameStores input).2 out) = makeFat83Name input := by
  have hblank : ∀ j < 11, storeAll (storesAt 0 (List.replicate 11 0x20)) out j = 0x20 := by
    intro j hj
    rw [storeAll_storesAt, if_pos (Nat.zero_le j), Nat.sub_zero, List.getD_eq_getElem?_getD,
      List.getElem?_replicate, if_pos hj]
    rfl
  rw [makeFat83NameStores_eq]
  by_cases h : AcceptedName input
  · rw [if_pos h, makeFat83Name_of_accepted h]
    refine List.ext_getElem (by simp [length_padUpper]) fun j hj hj' => ?_
    rw [List.length_map, List.length_range] at hj
    rw [List.getElem_map, List.getElem_range, storeAll_append, storeAll_append, storeAll_storesAt,
      storeAll_storesAt, hblank j hj, if_pos (Nat.zero_le j), Nat.sub_zero, List.getElem_append]
    simp only [length_padUpper]
    split
    · -- the extension
      rename_i hge
      rw [dif_neg (Nat.not_lt.2 hge), ← List.getD_eq_getElem _ 0, padUpper_getD _ _ (by omega),
        List.getD_eq_default ((splitExt input).1.take 8 |>.map toupper) _
          (by rw [List.length_map, List.length_take]; omega)]
    · rename_i hlt
      rw [dif_pos (Nat.not_le.1 hlt), ← List.getD_eq_getElem _ 0, padUpper_getD _ _ (by omega)]
  · rw [if_neg h, makeFat83Name_of_not_accepted h]
    refine List.ext_getElem (by simp) fun j hj _ => ?_
    rw [List.length_map, List.length_range] at hj
    rw [List.getElem_map, List.getElem_range, List.getElem_replicate]
    exact hblank j hj

/-! ## Ordinary names -/

namespace Name83

variable (n : Name83)

/-- A name may also be written with a dot where there is no extension. -/
theorem splitExt_dot : splitExt (n.base ++ dot :: n.ext) = (n.base, n.ext) := by
  by_cases hext : n.ext = []
  · obtain ⟨c, rest, hbase⟩ := List.exists_cons_of_ne_nil n.base_ne_nil
    have hrest : ∀ b ∈ rest, decide (b ≠ dot) = true := fun b hb =>
      decide_eq_true (n.valid b (by rw [hbase]; simp [hb])).2
    rw [hbase, List.cons_append, splitExt, List.takeWhile_append_of_pos hrest,
      List.dropWhile_append_of_pos hrest]
    simp
  · have htext := n.splitExt_text
    rwa [text, if_neg hext] at htext

/-- A name that is cut into the two parts is accepted, and packed as it should be. -/
theorem stores_of_splitExt {input : List Byte} (h : splitExt input = (n.base, n.ext)) (out : Nat → Byte) :
    (makeFat83NameStores input).1 = 1 ∧
      (List.range 11).map (storeAll (makeFat83NameStores input).2 out) = n.packed := by
  have haccept : AcceptedName input := by
    rw [AcceptedName, h]
    exact ⟨List.all_eq_true.2 fun c hc => (n.valid c (List.mem_append_left _ hc)).1,
      List.all_eq_true.2 fun c hc => (n.valid c (List.mem_append_right _ hc)).1⟩
  refine ⟨makeFat83NameStores_fst.2 haccept, ?_⟩
  rw [makeFat83Name_stores, makeFat83Name_of_accepted haccept, h, padUpper, padUpper,
    List.take_of_length_le n.base_length, List.take_of_length_le n.ext_length, packed]

end Name83

/-- No store goes beyond the output. -/
theorem lt_of_mem_makeFat83NameStores {input : List Byte} {x : Nat × Byte}
    (hx : x ∈ (makeFat83NameStores input).2) : x.1 < 11 := by
  have hblank : x ∈ storesAt 0 (List.replicate 11 0x20) → x.1 < 11 := fun hx => lt_of_mem_storesAt hx
  rw [makeFat83NameStores_eq] at hx
  split at hx
  · rcases List.mem_append.1 hx with hx | hx
    · rcases List.mem_append.1 hx with hx | hx
      · exact hblank hx
      · have := lt_of_mem_storesAt hx
        rw [List.length_map, List.length_take] at this
        omega
    · have := lt_of_mem_storesAt hx
      rw [List.length_map, List.length_take] at this
      omega
  · exact hblank hx

/-- **Ordinary names are packed as they should be.**  For every base of one to eight characters and
extension of up to three, all of them valid and none a dot, written with a dot between the two, or without
one if there is no extension: the result is 1, and the output is the base in upper case, padded to eight
bytes, with the extension in upper case, padded to three.  And whatever the input is, nothing is stored
beyond the eleven bytes. -/
theorem makeFat83Name_ordinary :
    (∀ (n : Name83) (out : Nat → Byte), ∀ input ∈ [n.text, n.base ++ dot :: n.ext],
      (makeFat83NameStores input).1 = 1 ∧
        (List.range 11).map (storeAll (makeFat83NameStores input).2 out) =
          (n.base.map toupper).rightpad 8 0x20 ++ (n.ext.map toupper).rightpad 3 0x20) ∧
      ∀ input : List Byte, ∀ x ∈ (makeFat83NameStores input).2, x.1 < 11 := by
  refine ⟨fun n out input hinput => ?_, fun input x => lt_of_mem_makeFat83NameStores⟩
  rw [List.mem_pair] at hinput
  rcases hinput with rfl | rfl
  · exact n.stores_of_splitExt n.splitExt_text out
  · exact n.stores_of_splitExt n.splitExt_dot out

/-! ## Different names -/

/-- Two names are the same up to case. -/
def SameUpToCase (a b : List Byte) : Prop := a.map toupper = b.map toupper

instance (a b : List Byte) : Decidable (SameUpToCase a b) :=
  inferInstanceAs (Decidable (a.map toupper = b.map toupper))

/-- What counts of a part of a name: its first `n` characters, in upper case, less the blanks at the end. -/
def shortPart (n : Nat) (s : List Byte) : List Byte :=
  ((s.take n).map toupper).rdropWhile (· = 0x20)

/-- Two names are the same once both parts are cut to their length and lose the blanks at their end.  A dot
with nothing after it does not count either. -/
def SameShort (a b : List Byte) : Prop :=
  shortPart 8 (splitExt a).1 = shortPart 8 (splitExt b).1 ∧
    shortPart 3 (splitExt a).2 = shortPart 3 (splitExt b).2

instance (a b : List Byte) : Decidable (SameShort a b) := inferInstanceAs (Decidable (_ ∧ _))

/-- What `make_fat_83_name` leaves in an output. -/
def packedName (input : List Byte) (out : Nat → Byte) : List Byte :=
  (List.range 11).map (storeAll (makeFat83NameStores input).2 out)

theorem rdropWhile_append_replicate (s : List Byte) (k : Nat) :
    (s ++ List.replicate k 0x20).rdropWhile (· = 0x20) = s.rdropWhile (· = 0x20) := by
  induction k with
  | zero => rw [List.replicate_zero, List.append_nil]
  | succ k ih =>
    rw [List.replicate_succ', ← List.append_assoc, List.rdropWhile_concat_pos _ _ _ (by decide), ih]

/-- **Padding** tells two parts of a name apart as far as they differ before the blanks at their end. -/
theorem rightpad_eq_rightpad_iff {s t : List Byte} {n : Nat} (hs : s.length ≤ n) (ht : t.length ≤ n) :
    s.rightpad n 0x20 = t.rightpad n 0x20 ↔ s.rdropWhile (· = 0x20) = t.rdropWhile (· = 0x20) := by
  have hpad : ∀ {s : List Byte}, s.length ≤ n →
      s.rightpad n 0x20 = (s.rdropWhile (· = 0x20)).rightpad n 0x20 := by
    intro s hs
    obtain ⟨k, hk⟩ : ∃ k, s.rtakeWhile (· = 0x20) = List.replicate k 0x20 :=
      ⟨_, List.eq_replicate_iff.2 ⟨rfl, fun b hb => by simpa using List.mem_rtakeWhile_imp hb⟩⟩
    have hsplit := List.rdropWhile_append_rtakeWhile (l := s) (p := (· = 0x20))
    have hlen := congrArg List.length hsplit
    rw [hk, List.length_append, List.length_replicate] at hlen
    calc s.rightpad n 0x20
        = (s.rdropWhile (· = 0x20) ++ List.replicate k 0x20) ++ List.replicate (n - s.length) 0x20 := by
          rw [List.rightpad, ← hk, hsplit]
      _ = (s.rdropWhile (· = 0x20)).rightpad n 0x20 := by
          rw [List.append_assoc, List.replicate_append_replicate, List.rightpad]
          congr 2
          omega
  constructor
  · intro h
    rw [List.rightpad, List.rightpad] at h
    rw [← rdropWhile_append_replicate s, h, rdropWhile_append_replicate]
  · intro h
    rw [hpad hs, hpad ht, h]

theorem padUpper_eq_padUpper_iff {n : Nat} {s t : List Byte} :
    padUpper n s = padUpper n t ↔ shortPart n s = shortPart n t := by
  have hlen : ∀ s : List Byte, ((s.take n).map toupper).length ≤ n := fun s => by
    rw [List.length_map, List.length_take]
    exact Nat.min_le_left ..
  exact rightpad_eq_rightpad_iff (hlen s) (hlen t)

/-- **Two accepted names are packed alike** if and only if they are the same when cut short. -/
theorem packedName_eq_iff {a b : List Byte} (ha : (makeFat83NameStores a).1 = 1)
    (hb : (makeFat83NameStores b).1 = 1) (out out' : Nat → Byte) :
    packedName a out = packedName b out' ↔ SameShort a b := by
  rw [packedName, packedName, makeFat83Name_stores, makeFat83Name_stores,
    makeFat83Name_of_accepted (makeFat83NameStores_fst.1 ha),
    makeFat83Name_of_accepted (makeFat83NameStores_fst.1 hb), SameShort, ← padUpper_eq_padUpper_iff,
    ← padUpper_eq_padUpper_iff]
  constructor
  · exact fun h => List.append_inj h (by rw [length_padUpper, length_padUpper])
  · rintro ⟨hname, hext⟩
    rw [hname, hext]

/-- **When packed names identify files.**  For every two names that are accepted: the names are the same up
to case whenever their packed forms are equal, if and only if they are the same up to case or differ, up to
case, in the first eight characters before the dot or the first three after it, blanks at the end of either
aside. -/
theorem packedName_identifies_iff (a b : List Byte) (out out' : Nat → Byte)
    (ha : (makeFat83NameStores a).1 = 1) (hb : (makeFat83NameStores b).1 = 1) :
    (packedName a out = packedName b out' → SameUpToCase a b) ↔ SameUpToCase a b ∨ ¬ SameShort a b := by
  rw [packedName_eq_iff ha hb, imp_iff_or_not]

/-- `a.txt` and `A.TXT` are packed alike, and are one name up to case. -/
theorem packedName_identifies_txt :
    packedName [0x61, 0x2E, 0x74, 0x78, 0x74] (fun _ => 0) =
        packedName [0x41, 0x2E, 0x54, 0x58, 0x54] (fun _ => 0) ∧
      SameUpToCase [0x61, 0x2E, 0x74, 0x78, 0x74] [0x41, 0x2E, 0x54, 0x58, 0x54] :=
  ⟨by decide, (packedName_identifies_iff [0x61, 0x2E, 0x74, 0x78, 0x74] [0x41, 0x2E, 0x54, 0x58, 0x54]
    (fun _ => 0) (fun _ => 0) (by decide) (by decide)).2 (Or.inl (by decide)) (by decide)⟩

/-- `.` and `..` are packed alike too, and are two names. -/
theorem packedName_confuses_dots :
    (makeFat83NameStores [dot]).1 = 1 ∧ (makeFat83NameStores [dot, dot]).1 = 1 ∧
      packedName [dot] (fun _ => 0) = packedName [dot, dot] (fun _ => 0) ∧
      ¬ SameUpToCase [dot] [dot, dot] := by
  decide

/-! ### Names that lose nothing -/

/-- Nothing of the name is cut off: its parts are short enough and do not end in a blank, and there is a dot
only before an extension. -/
structure WholeName (a : List Byte) : Prop where
  base_length : (splitExt a).1.length ≤ 8
  ext_length : (splitExt a).2.length ≤ 3
  base_blank : (splitExt a).1.getLast? ≠ some 0x20
  ext_blank : (splitExt a).2.getLast? ≠ some 0x20
  no_dot : (splitExt a).2 = [] → a = (splitExt a).1

/-- A name is its two parts, with a dot between them. -/
theorem eq_append_splitExt {a : List Byte} (h : (splitExt a).2 ≠ []) :
    a = (splitExt a).1 ++ dot :: (splitExt a).2 := by
  cases a with
  | nil => exact absurd rfl h
  | cons c rest =>
    have hsplit : rest.takeWhile (· ≠ dot) ++ rest.dropWhile (· ≠ dot) = rest :=
      List.takeWhile_append_dropWhile
    rw [splitExt] at h ⊢
    cases hdrop : rest.dropWhile (· ≠ dot) with
    | nil =>
      rw [hdrop] at h
      exact absurd rfl h
    | cons b l =>
      have hb : b = dot := by
        have hhead := List.head?_dropWhile_not (fun x => decide (x ≠ dot)) rest
        rw [hdrop] at hhead
        simpa using hhead
      rw [hdrop, hb] at hsplit
      rw [List.tail_cons, List.cons_append, hsplit]

theorem toupper_eq_blank_iff (c : Byte) : toupper c = 0x20 ↔ c = 0x20 := by
  rw [toupper]
  split
  · rename_i h
    refine iff_of_false (fun heq => ?_) (fun heq => ?_)
    · rw [BitVec.sub_eq_iff_eq_add] at heq
      exact absurd (heq ▸ h) (by decide)
    · exact absurd (heq ▸ h) (by decide)
  · exact Iff.rfl

/-- A part that is short enough and does not end in a blank counts as a whole. -/
theorem shortPart_of_whole {n : Nat} {s : List Byte} (hlen : s.length ≤ n) (hlast : s.getLast? ≠ some 0x20) :
    shortPart n s = s.map toupper := by
  rw [shortPart, List.take_of_length_le hlen, List.rdropWhile_eq_self_iff]
  intro hne hblank
  rw [decide_eq_true_eq, List.getLast_map, toupper_eq_blank_iff] at hblank
  exact hlast (by rw [List.getLast?_eq_some_getLast (by simpa using hne), hblank])

/-- **Of two whole names** the packed forms are equal only if they are the same up to case. -/
theorem WholeName.sameUpToCase {a b : List Byte} (ha : WholeName a) (hb : WholeName b)
    (h : SameShort a b) : SameUpToCase a b := by
  obtain ⟨hbase, hext⟩ := h
  rw [shortPart_of_whole ha.base_length ha.base_blank, shortPart_of_whole hb.base_length hb.base_blank]
    at hbase
  rw [shortPart_of_whole ha.ext_length ha.ext_blank, shortPart_of_whole hb.ext_length hb.ext_blank] at hext
  have hnil : (splitExt a).2 = [] ↔ (splitExt b).2 = [] := by
    rw [← List.map_eq_nil_iff (f := toupper), hext, List.map_eq_nil_iff]
  rw [SameUpToCase]
  by_cases hno : (splitExt a).2 = []
  · rw [ha.no_dot hno, hb.no_dot (hnil.1 hno), hbase]
  · rw [eq_append_splitExt hno, eq_append_splitExt (mt hnil.2 hno), List.map_append, List.map_append,
      List.map_cons, List.map_cons, hbase, hext]

end RiscyOS
