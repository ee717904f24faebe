import Mathlib.Tactic.Ring
import Mathlib.Tactic.Linarith
import Mathlib.Data.Fintype.Card

/-!
# Byte-addressed memory

A 32-bit little-endian memory is a function from addresses to bytes.  A word access touches four
consecutive bytes, and the whole theory of it is two facts: a load returns what the last store at
that address wrote (`load32_store32`), and a store leaves every byte it does not cover alone
(`store32_of_apart`).  Both are phrased through the *distance* `(x - a).toNat` of a byte from the
base of the access, which is what turns four address comparisons into one inequality and lets
`omega` see through the wrap-around at the top of the address space.

Nothing in this file mentions a particular program: the allocators and the loader instantiate it.
-/

set_option autoImplicit false

namespace Memory

/-- A 32-bit machine word, and so an address. -/
abbrev Word := BitVec 32

/-- There are no more addresses than that. -/
theorem length_le_of_nodup {l : List Word} (h : l.Nodup) : l.length ≤ 2 ^ 32 := by
  have hmap : (l.map BitVec.toFin).Nodup := h.map fun _ _ h => BitVec.eq_of_toFin_eq h
  have hcard := hmap.length_le_card
  rwa [List.length_map, Fintype.card_fin] at hcard

/-- One byte. -/
abbrev Byte := BitVec 8

/-- A flat memory: what every address holds. -/
abbrev Mem := Word → Byte

/-- The `i`-th byte of a word, least significant first. -/
def byteOf (v : Word) (i : Nat) : Byte := v.extractLsb' (8 * i) 8

/-- Load the little-endian word at `a`. -/
def load32 (m : Mem) (a : Word) : Word := m (a + 3) ++ m (a + 2) ++ m (a + 1) ++ m a

/-- Store the little-endian word `v` at `a`. -/
def store32 (m : Mem) (a v : Word) : Mem := fun x =>
  if (x - a).toNat < 4 then byteOf v (x - a).toNat else m x

/-- Store one byte at `a`. -/
def store8 (m : Mem) (a : Word) (v : Byte) : Mem := fun x => if x = a then v else m x

/-! ## Loads and stores -/

/-- A word is its four bytes. -/
theorem append_byteOf (v : Word) : byteOf v 3 ++ byteOf v 2 ++ byteOf v 1 ++ byteOf v 0 = v := by
  apply BitVec.eq_of_getLsbD_eq
  intro i hi
  simp only [byteOf, BitVec.getLsbD_extractLsb', BitVec.getLsbD_append]
  grind

/-- **A store leaves alone what it does not cover.** -/
theorem store32_of_apart {m : Mem} {a v x : Word} (h : 4 ≤ (x - a).toNat) :
    store32 m a v x = m x :=
  if_neg (by omega)

/-- A load depends only on the four bytes it covers. -/
theorem load32_congr {m m' : Mem} {a : Word} (h : ∀ x : Word, (x - a).toNat < 4 → m x = m' x) :
    load32 m a = load32 m' a := by
  rw [load32, load32, h a (by bv_omega), h (a + 1) (by bv_omega), h (a + 2) (by bv_omega),
    h (a + 3) (by bv_omega)]

/-- **A load returns what was stored there.** -/
@[simp] theorem load32_store32 (m : Mem) (a v : Word) : load32 (store32 m a v) a = v := by
  have h0 : (a - a).toNat = 0 := by bv_omega
  have h1 : (a + 1 - a).toNat = 1 := by bv_omega
  have h2 : (a + 2 - a).toNat = 2 := by bv_omega
  have h3 : (a + 3 - a).toNat = 3 := by bv_omega
  simp only [load32, store32, h0, h1, h2, h3]
  exact append_byteOf v

/-- The last of two stores to one address wins. -/
@[simp] theorem store32_store32 (m : Mem) (a v w : Word) :
    store32 (store32 m a v) a w = store32 m a w := by
  funext x
  simp only [store32]
  split <;> rfl

theorem byteOf_load32 (m : Mem) (a : Word) {i : Nat} (hi : i < 4) :
    byteOf (load32 m a) i = m (a + BitVec.ofNat 32 i) := by
  rw [byteOf, load32]
  apply BitVec.eq_of_getLsbD_eq
  intro j hj
  simp only [BitVec.getLsbD_extractLsb', BitVec.getLsbD_append, hj, decide_true, Bool.true_and]
  match i, hi with
  | 0, _ => simp [hj]
  | 1, _ => simp; grind
  | 2, _ => simp; grind
  | 3, _ => simp; grind

/-! The same in terms of the addresses as numbers, for accesses that do not wrap around. -/

theorem store32_of_toNat {m : Mem} {a v x : Word} (ha : a.toNat + 4 ≤ 2 ^ 32)
    (h : x.toNat < a.toNat ∨ a.toNat + 4 ≤ x.toNat) : store32 m a v x = m x :=
  store32_of_apart (by bv_omega)

theorem load32_congr_toNat {m m' : Mem} {a : Word} (ha : a.toNat + 4 ≤ 2 ^ 32)
    (h : ∀ x : Word, a.toNat ≤ x.toNat → x.toNat < a.toNat + 4 → m x = m' x) :
    load32 m a = load32 m' a :=
  load32_congr fun x hx => h x (by bv_omega) (by bv_omega)

theorem load32_store32_of_toNat {m : Mem} {a b v : Word} (ha : a.toNat + 4 ≤ 2 ^ 32)
    (hb : b.toNat + 4 ≤ 2 ^ 32) (h : a.toNat + 4 ≤ b.toNat ∨ b.toNat + 4 ≤ a.toNat) :
    load32 (store32 m a v) b = load32 m b :=
  load32_congr_toNat hb fun x hx hx' => store32_of_toNat ha (by omega)

/-- A byte store outside a word leaves the word alone. -/
theorem load32_store8_of_apart {m : Mem} {a b : Word} {v : Byte} (h : 4 ≤ (a - b).toNat) :
    load32 (store8 m a v) b = load32 m b := by
  refine load32_congr fun x hx => if_neg ?_
  rintro rfl
  omega

/-! ## Buffers

Byte `i` of a buffer at `p` is at distance `i` from it. -/

theorem add_ofNat_sub (p : Word) {i : Nat} (hi : i < 2 ^ 32) :
    (p + BitVec.ofNat 32 i - p).toNat = i := by
  rw [BitVec.add_comm, BitVec.add_sub_cancel, BitVec.toNat_ofNat, Nat.mod_eq_of_lt hi]

theorem add_ofNat_toNat_sub (p a : Word) : p + BitVec.ofNat 32 (a - p).toNat = a := by
  rw [BitVec.ofNat_toNat, BitVec.setWidth_eq, BitVec.add_comm, BitVec.sub_add_cancel]

/-- **Storing what is there** changes nothing. -/
theorem store32_load32 (m : Mem) (a : Word) : store32 m a (load32 m a) = m := by
  funext x
  rw [store32]
  split
  · rename_i h
    rw [byteOf_load32 m a h, add_ofNat_toNat_sub]
  · rfl

/-! ## Masks

Clearing the low `k` bits of a word rounds it down to a multiple of `2 ^ k`. -/

theorem and_not_mask (w : Word) (k : Nat) :
    w &&& ~~~(BitVec.ofNat 32 (2 ^ k - 1)) = (w >>> k) <<< k := by
  apply BitVec.eq_of_getLsbD_eq
  intro i hi
  simp only [BitVec.getLsbD_and, BitVec.getLsbD_not, BitVec.getLsbD_ofNat,
    Nat.testBit_two_pow_sub_one, BitVec.getLsbD_shiftLeft, BitVec.getLsbD_ushiftRight]
  by_cases h : i < k
  · simp [h, hi]
  · simp [h, hi]
    congr 1
    omega

theorem toNat_and_not_mask (w : Word) (k : Nat) :
    (w &&& ~~~(BitVec.ofNat 32 (2 ^ k - 1))).toNat = w.toNat / 2 ^ k * 2 ^ k := by
  rw [and_not_mask, BitVec.toNat_shiftLeft, BitVec.toNat_ushiftRight, Nat.shiftLeft_eq,
    Nat.shiftRight_eq_div_pow]
  exact Nat.mod_eq_of_lt (lt_of_le_of_lt (Nat.div_mul_le_self _ _) w.isLt)

theorem toNat_and_one (w : Word) : (w &&& 1).toNat = w.toNat % 2 := by
  rw [BitVec.toNat_and]
  exact Nat.and_one_is_mod _

end Memory
