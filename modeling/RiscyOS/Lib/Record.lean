import RiscyOS.Lib.Memory

/-!
# Records in memory

A record is a run of bytes with fields at fixed offsets.  This file is about memories that hold many
of them: what a store into one leaves of the others.

* `Span` — a run of bytes, wrapping around at the top of the address space like every address does.
  `Span.Apart` is disjointness, and it passes to parts (`Span.Apart.part`).
* `Alters S m m'` — from `m` to `m'` nothing has changed outside the spans `S`.  It composes, and
  whatever is read apart from `S` is the same (`Alters.word`, `Alters.byte`).
* `word`, `byte`, `setWord`, `setByte` — the fields of the record at `p`, by offset, with the simp
  lemmas for a field read after a store to the same record or to another.
-/

set_option autoImplicit false

namespace Memory

/-! ## Spans -/

/-- A run of bytes: where it starts and how long it is. -/
structure Span where
  base : Word
  size : Nat
  deriving DecidableEq, Repr

/-- `x` is one of the bytes. -/
def Span.Has (b : Span) (x : Word) : Prop := (x - b.base).toNat < b.size

/-- The two have no byte in common. -/
def Span.Apart (b c : Span) : Prop := ∀ x, b.Has x → ¬ c.Has x

/-- The `n` bytes at offset `i` of a record at `p`. -/
def part (p : Word) (i n : Nat) : Span := ⟨p + BitVec.ofNat 32 i, n⟩

instance (b : Span) (x : Word) : Decidable (b.Has x) := inferInstanceAs (Decidable (_ < _))

theorem Span.Apart.symm {b c : Span} (h : b.Apart c) : c.Apart b := fun x hc hb => h x hb hc

/-- Neither starts inside the other. -/
theorem Span.apart_iff {b c : Span} : b.Apart c ↔ b.size = 0 ∨ c.size = 0 ∨
    b.size ≤ (c.base - b.base).toNat ∧ c.size ≤ (b.base - c.base).toNat := by
  constructor
  · intro h
    by_cases hb : b.size = 0
    · exact Or.inl hb
    by_cases hc : c.size = 0
    · exact Or.inr (Or.inl hc)
    refine Or.inr (Or.inr ⟨?_, ?_⟩)
    · refine Nat.not_lt.1 fun hlt => h c.base hlt ?_
      rw [Span.Has, BitVec.sub_self]
      exact Nat.pos_of_ne_zero hc
    · refine Nat.not_lt.1 fun hlt => h b.base ?_ hlt
      rw [Span.Has, BitVec.sub_self]
      exact Nat.pos_of_ne_zero hb
  · rintro h x hb hc
    rw [Span.Has] at hb hc
    rcases h with h | h | ⟨h, h'⟩
    · omega
    · omega
    · generalize b.size = n at *
      generalize c.size = k at *
      bv_omega

instance (b c : Span) : Decidable (b.Apart c) := decidable_of_iff _ Span.apart_iff.symm

/-- What is part of a record lies in it. -/
theorem has_of_part {p x : Word} {i n k : Nat} (h : (part p i n).Has x) (hk : i + n ≤ k) :
    (Span.mk p k).Has x := by
  rw [Span.Has, part] at h
  rw [Span.Has]
  have hsplit : x - p = (x - (p + BitVec.ofNat 32 i)) + BitVec.ofNat 32 i := by
    rw [← BitVec.sub_sub, BitVec.sub_add_cancel]
  have hle : (x - p).toNat ≤ (x - (p + BitVec.ofNat 32 i)).toNat + i := by
    rw [hsplit, BitVec.toNat_add, BitVec.toNat_ofNat]
    exact (Nat.mod_le _ _).trans (Nat.add_le_add_left (Nat.mod_le _ _) _)
  simp only at h ⊢
  omega

/-- **Parts of records that are apart are apart.** -/
theorem Span.Apart.part {p q : Word} {n k i j a b : Nat} (h : (Span.mk p n).Apart ⟨q, k⟩)
    (hi : i + a ≤ n) (hj : j + b ≤ k) : (part p i a).Apart (part q j b) :=
  fun x hb hc => h x (has_of_part hb hi) (has_of_part hc hj)

/-- Parts of one record at different offsets. -/
theorem part_apart {p : Word} {i j n k : Nat} (h : i + n ≤ j ∨ j + k ≤ i) (hi : i + n ≤ 2 ^ 32)
    (hj : j + k ≤ 2 ^ 32) : (part p i n).Apart (part p j k) := by
  intro x hb hc
  rw [Span.Has, Memory.part] at hb hc
  simp only at hb hc
  bv_omega

/-! ## What has changed -/

/-- Every byte of `b` is in one of the spans. -/
def Covered (S : List Span) (b : Span) : Prop := ∀ x, b.Has x → ∃ c ∈ S, c.Has x

theorem Covered.of_mem {S : List Span} {b : Span} (h : b ∈ S) : Covered S b := fun _ hx => ⟨b, h, hx⟩

theorem Covered.part {S : List Span} {p : Word} {i n k : Nat} (h : Span.mk p k ∈ S) (hk : i + n ≤ k) :
    Covered S (part p i n) := fun _ hx => ⟨_, h, has_of_part hx hk⟩

/-- Nothing has changed outside the spans `S`. -/
def Alters (S : List Span) (m m' : Mem) : Prop := ∀ x, (∀ b ∈ S, ¬ b.Has x) → m' x = m x

namespace Alters

variable {S T : List Span} {m m' m'' : Mem}

theorem refl (S : List Span) (m : Mem) : Alters S m m := fun _ _ => rfl

theorem trans (h : Alters S m m') (h' : Alters S m' m'') : Alters S m m'' := fun x hx =>
  (h' x hx).trans (h x hx)

/-- Larger spans may be named. -/
theorem mono (h : Alters S m m') (hST : ∀ b ∈ S, Covered T b) : Alters T m m' := by
  refine fun x hx => h x fun b hb hhas => ?_
  obtain ⟨c, hc, hhas⟩ := hST b hb x hhas
  exact hx c hc hhas

/-- **A byte apart from what was touched.** -/
theorem apply_of_apart (h : Alters S m m') {c : Span} {x : Word} (hx : c.Has x)
    (ha : ∀ b ∈ S, b.Apart c) : m' x = m x :=
  h x fun b hb hhas => ha b hb x hhas hx

theorem load32 (h : Alters S m m') {a : Word} (ha : ∀ b ∈ S, b.Apart ⟨a, 4⟩) :
    Memory.load32 m' a = Memory.load32 m a :=
  load32_congr fun x hx => h.apply_of_apart (show (Span.mk a 4).Has x from hx) ha

theorem of_store32 (m : Mem) (a v : Word) : Alters [⟨a, 4⟩] m (store32 m a v) := fun _ hx =>
  store32_of_apart (Nat.not_lt.1 (hx _ (List.mem_singleton_self _)))

theorem of_store8 (m : Mem) (a : Word) (v : Byte) : Alters [⟨a, 1⟩] m (store8 m a v) := by
  refine fun x hx => if_neg ?_
  rintro rfl
  refine hx _ (List.mem_singleton_self _) ?_
  rw [Span.Has, BitVec.sub_self]
  exact Nat.one_pos

end Alters

/-! ## Fields -/

/-- The word at offset `i` of the record at `p`. -/
def word (m : Mem) (p : Word) (i : Nat) : Word := load32 m (p + BitVec.ofNat 32 i)

/-- The byte at offset `i`. -/
def byte (m : Mem) (p : Word) (i : Nat) : Byte := m (p + BitVec.ofNat 32 i)

def setWord (m : Mem) (p : Word) (i : Nat) (v : Word) : Mem := store32 m (p + BitVec.ofNat 32 i) v

def setByte (m : Mem) (p : Word) (i : Nat) (v : Byte) : Mem := store8 m (p + BitVec.ofNat 32 i) v

section Fields

variable {S : List Span} {m m' : Mem} {p q : Word} {i j : Nat}

theorem part_zero (p : Word) (n : Nat) : part p 0 n = ⟨p, n⟩ := by simp [part]

/-- A word is its four bytes. -/
theorem word_congr (h : ∀ k < 4, byte m p (i + k) = byte m' q (j + k)) :
    word m p i = word m' q j := by
  have hbyte : ∀ (m : Mem) (p : Word) (i k : Nat),
      m (p + BitVec.ofNat 32 i + BitVec.ofNat 32 k) = byte m p (i + k) := fun m p i k => by
    rw [byte, BitVec.ofNat_add, BitVec.add_assoc]
  have h0 := h 0 (by decide)
  have h1 := h 1 (by decide)
  have h2 := h 2 (by decide)
  have h3 := h 3 (by decide)
  rw [← hbyte, ← hbyte] at h0 h1 h2 h3
  rw [BitVec.add_zero, BitVec.add_zero] at h0
  simp only [word, load32]
  exact congrArg₂ _ (congrArg₂ _ (congrArg₂ _ h3 h2) h1) h0

theorem alters_setWord (m : Mem) (p : Word) (i : Nat) (v : Word) :
    Alters [part p i 4] m (setWord m p i v) := Alters.of_store32 _ _ _

theorem alters_setByte (m : Mem) (p : Word) (i : Nat) (v : Byte) :
    Alters [part p i 1] m (setByte m p i v) := Alters.of_store8 _ _ _

theorem Alters.setWord (h : Alters S m m') {v : Word} (hc : Covered S (part p i 4)) :
    Alters S m (Memory.setWord m' p i v) :=
  h.trans ((alters_setWord _ _ _ _).mono (List.forall_mem_singleton.2 hc))

theorem Alters.setByte (h : Alters S m m') {v : Byte} (hc : Covered S (part p i 1)) :
    Alters S m (Memory.setByte m' p i v) :=
  h.trans ((alters_setByte _ _ _ _).mono (List.forall_mem_singleton.2 hc))

theorem Alters.word (h : Alters S m m') (ha : ∀ b ∈ S, b.Apart (part p i 4)) :
    Memory.word m' p i = Memory.word m p i := h.load32 ha

theorem Alters.byte (h : Alters S m m') (ha : ∀ b ∈ S, b.Apart (part p i 1)) :
    Memory.byte m' p i = Memory.byte m p i := by
  refine h.apply_of_apart (show (part p i 1).Has _ from ?_) ha
  rw [Span.Has, part, BitVec.sub_self]
  exact Nat.one_pos

@[simp] theorem word_setWord (m : Mem) (p : Word) (i : Nat) (v : Word) :
    word (setWord m p i v) p i = v := load32_store32 _ _ _

@[simp] theorem byte_setByte (m : Mem) (p : Word) (i : Nat) (v : Byte) :
    byte (setByte m p i v) p i = v := if_pos rfl

/-- A store that changes nothing has stored what was there. -/
theorem alters_nil_setByte {v : Byte} : Alters [] m (setByte m p i v) ↔ byte m p i = v := by
  constructor
  · intro h
    exact (h _ (by simp)).symm.trans (byte_setByte m p i v)
  · rintro rfl x -
    rw [setByte, store8]
    split
    · rename_i hx
      rw [hx, byte]
    · rfl

/-! Another field of the same record. -/

section Same

theorem word_setWord_ne {v : Word} (h : i + 4 ≤ j ∨ j + 4 ≤ i) (hi : i + 4 ≤ 2 ^ 32)
    (hj : j + 4 ≤ 2 ^ 32) : word (setWord m p i v) p j = word m p j :=
  (alters_setWord m p i v).word (List.forall_mem_singleton.2 (part_apart h hi hj))

theorem word_setByte_ne {v : Byte} (h : i + 1 ≤ j ∨ j + 4 ≤ i) (hi : i + 1 ≤ 2 ^ 32)
    (hj : j + 4 ≤ 2 ^ 32) : word (setByte m p i v) p j = word m p j :=
  (alters_setByte m p i v).word (List.forall_mem_singleton.2 (part_apart h hi hj))

theorem byte_setWord_ne {v : Word} (h : i + 4 ≤ j ∨ j + 1 ≤ i) (hi : i + 4 ≤ 2 ^ 32)
    (hj : j + 1 ≤ 2 ^ 32) : byte (setWord m p i v) p j = byte m p j :=
  (alters_setWord m p i v).byte (List.forall_mem_singleton.2 (part_apart h hi hj))

theorem byte_setByte_ne {v : Byte} (h : i + 1 ≤ j ∨ j + 1 ≤ i) (hi : i + 1 ≤ 2 ^ 32)
    (hj : j + 1 ≤ 2 ^ 32) : byte (setByte m p i v) p j = byte m p j :=
  (alters_setByte m p i v).byte (List.forall_mem_singleton.2 (part_apart h hi hj))

end Same

/-! A field of another record. -/

section Other

variable {n k : Nat}

theorem word_setWord_apart (h : (Span.mk p n).Apart ⟨q, k⟩) {v : Word} (hi : i + 4 ≤ n)
    (hj : j + 4 ≤ k) : word (setWord m p i v) q j = word m q j :=
  (alters_setWord m p i v).word (List.forall_mem_singleton.2 (h.part hi hj))

theorem word_setByte_apart (h : (Span.mk p n).Apart ⟨q, k⟩) {v : Byte} (hi : i + 1 ≤ n)
    (hj : j + 4 ≤ k) : word (setByte m p i v) q j = word m q j :=
  (alters_setByte m p i v).word (List.forall_mem_singleton.2 (h.part hi hj))

theorem byte_setWord_apart (h : (Span.mk p n).Apart ⟨q, k⟩) {v : Word} (hi : i + 4 ≤ n)
    (hj : j + 1 ≤ k) : byte (setWord m p i v) q j = byte m q j :=
  (alters_setWord m p i v).byte (List.forall_mem_singleton.2 (h.part hi hj))

theorem byte_setByte_apart (h : (Span.mk p n).Apart ⟨q, k⟩) {v : Byte} (hi : i + 1 ≤ n)
    (hj : j + 1 ≤ k) : byte (setByte m p i v) q j = byte m q j :=
  (alters_setByte m p i v).byte (List.forall_mem_singleton.2 (h.part hi hj))

end Other

end Fields

end Memory
