import Mathlib.Data.Nat.ModEq
import Mathlib.Data.List.Basic

/-!
# Ring buffers with free-running counters

A ring of `2 ^ k` slots, with a counter of `w` bits for what has been put in and one for what has been
taken out.  The counters are never brought back into the ring: they count on and wrap around at `2 ^ w`,
only their low `k` bits say which slot is meant, and they are compared as they are.

* `slot` — the slot a counter points to.  Counters less than `2 ^ k` apart point to different slots
  (`slot_inj`), also when one of them has wrapped around.
* `Holds` — the queue that a ring stands for.  It is kept by a push, as long as there is room
  (`Holds.push`), and by a pop (`Holds.pop`).
* `Holds.sub_toNat`, `Holds.eq_iff` — the difference of the counters is the length, and they are equal if
  and only if the queue is empty.  For this a full ring must not look like an empty one, so `k < w`.
-/

set_option autoImplicit false

namespace RingBuffer

variable {α : Type*} {w k : Nat} {head tail : BitVec w} {status : BitVec w → α} {q : List α} {v : α}

/-! ## Slots -/

/-- The slot a counter points to. -/
def slot (k : Nat) (c : BitVec w) : BitVec w := c &&& BitVec.ofNat w (2 ^ k - 1)

theorem slot_toNat (hk : k ≤ w) (c : BitVec w) : (slot k c).toNat = c.toNat % 2 ^ k := by
  have hlt : 2 ^ k - 1 < 2 ^ w := by
    have hle := Nat.pow_le_pow_right (n := 2) Nat.two_pos hk
    have hpos := Nat.two_pow_pos k
    omega
  rw [slot, BitVec.toNat_and, BitVec.toNat_ofNat, Nat.mod_eq_of_lt hlt, Nat.and_two_pow_sub_one_eq_mod]

/-- **Counters less than `2 ^ k` apart point to different slots.** -/
theorem slot_inj (hk : k ≤ w) (c : BitVec w) {i j : Nat} (hi : i < 2 ^ k) (hj : j < 2 ^ k)
    (h : slot k (c + BitVec.ofNat w i) = slot k (c + BitVec.ofNat w j)) : i = j := by
  -- the wrap-around of the counter is one of the ring too
  have hwrap : ∀ n, (slot k (c + BitVec.ofNat w n)).toNat = (c.toNat + n) % 2 ^ k := by
    intro n
    rw [slot_toNat hk, BitVec.toNat_add, BitVec.toNat_ofNat, Nat.add_mod_mod,
      Nat.mod_mod_of_dvd _ (Nat.pow_dvd_pow 2 hk)]
  have hmod : c.toNat + i ≡ c.toNat + j [MOD 2 ^ k] := by
    rw [Nat.ModEq, ← hwrap, ← hwrap, h]
  exact (Nat.ModEq.add_left_cancel' _ hmod).eq_of_lt_of_lt hi hj

/-! ## The queue -/

/-- **The ring holds the queue `q`**: it starts where `tail` points to and ends before `head`. -/
structure Holds (k : Nat) (head tail : BitVec w) (status : BitVec w → α) (q : List α) : Prop where
  head_eq : head = tail + BitVec.ofNat w q.length
  length_le : q.length ≤ 2 ^ k
  slots : ∀ i (hi : i < q.length), status (slot k (tail + BitVec.ofNat w i)) = q[i]

namespace Holds

theorem empty (c : BitVec w) (status : BitVec w → α) : Holds k c c status [] :=
  ⟨(BitVec.add_zero c).symm, Nat.zero_le _, fun i hi => absurd hi (Nat.not_lt_zero i)⟩

/-- **A push**, with room for it. -/
theorem push (h : Holds k head tail status q) (hk : k ≤ w) (hroom : q.length < 2 ^ k) (v : α) :
    Holds k (head + 1) tail (fun i => if i = slot k head then v else status i) (q ++ [v]) := by
  refine ⟨?_, ?_, fun i hi => ?_⟩
  · rw [h.head_eq, List.length_append, List.length_singleton, BitVec.ofNat_add, BitVec.add_assoc]
    rfl
  · rw [List.length_append, List.length_singleton]
    exact hroom
  · rw [List.length_append, List.length_singleton] at hi
    rcases Nat.lt_succ_iff_lt_or_eq.1 hi with hlt | rfl
    · -- an older one is in another slot
      have hne : slot k (tail + BitVec.ofNat w i) ≠ slot k head := by
        rw [h.head_eq]
        exact fun heq => hlt.ne (slot_inj hk tail (hlt.trans hroom) hroom heq)
      rw [List.getElem_append_left hlt]
      exact (if_neg hne).trans (h.slots i hlt)
    · rw [← h.head_eq, List.getElem_append_right (le_refl _)]
      simp only [if_pos, Nat.sub_self, List.getElem_cons_zero]

/-- **A pop** takes what was put in first. -/
theorem pop (h : Holds k head tail status (v :: q)) :
    status (slot k tail) = v ∧ Holds k head (tail + 1) status q := by
  have hfirst := h.slots 0 (Nat.zero_lt_succ _)
  rw [BitVec.add_zero] at hfirst
  have hnext : ∀ n, tail + 1 + BitVec.ofNat w n = tail + BitVec.ofNat w (n + 1) := by
    intro n
    rw [BitVec.add_assoc, BitVec.add_comm 1, BitVec.ofNat_add]
    rfl
  refine ⟨hfirst, ?_, (Nat.le_succ _).trans h.length_le, fun i hi => ?_⟩
  · rw [h.head_eq, List.length_cons, hnext]
  · rw [hnext]
    exact h.slots (i + 1) (Nat.succ_lt_succ hi)

/-- **The difference of the counters.** -/
theorem sub_toNat (h : Holds k head tail status q) (hk : k < w) : (head - tail).toNat = q.length := by
  have hlt : q.length < 2 ^ w := h.length_le.trans_lt (Nat.pow_lt_pow_right Nat.one_lt_two hk)
  rw [h.head_eq, BitVec.add_comm, BitVec.add_sub_cancel, BitVec.toNat_ofNat, Nat.mod_eq_of_lt hlt]

/-- **The counters are equal when nothing is left.** -/
theorem eq_iff (h : Holds k head tail status q) (hk : k < w) : head = tail ↔ q = [] := by
  rw [← List.length_eq_zero_iff, ← h.sub_toNat hk, ← BitVec.toNat_zero, BitVec.toNat_inj,
    BitVec.sub_eq_iff_eq_add, BitVec.zero_add]

end Holds

end RingBuffer
