import RiscyOS.Memory.Kmem

/-!
# What `kmalloc` and `kfree` do to the block list

`Layout m a bs e` says that walking the headers in memory `m` from address `a` — each step past the
header and `GET_SIZE` bytes — visits the blocks `bs` and arrives exactly at `e`.  The walk of
`kmalloc` is an induction over the blocks not looked at yet, and so is the traversal of `kfree`: a
turn of its loop either merges the block it stands on with the next one or steps onto it, and both
shorten what is left by one.  That is also why both end.

Each specification comes with a frame: the bytes that may differ afterwards.  `kmalloc` writes
inside the block it hands out.  `kfree` writes headers of free blocks only, so no byte of a live
payload.  There is one oddity.  On the largest possible heap, `[0, 2 ^ 32 - 4)`, a request for the
whole of it makes `size + sizeof(heap_header_t) + 4` wrap to zero; `kmalloc` then "splits" off a
block of `-4` bytes and writes its header to `kernel_heap_end`.  The block list is none the worse,
and the frame of `kmallocLoop_spec` is about the bytes below the end for that reason.
-/

set_option autoImplicit false

namespace RiscyOS

open Memory BlockList

/-! ## Reading blocks off memory -/

/-- The blocks found by walking headers from `a` until `e`. -/
def Layout (m : Mem) : Nat → List Block → Nat → Prop
  | a, [], e => a = e
  | a, b :: bs, e =>
    (getSize (load32 m (BitVec.ofNat 32 a))).toNat = b.size ∧
      isUsed (load32 m (BitVec.ofNat 32 a)) = b.used ∧ Layout m (a + headerSize + b.size) bs e

section Layout

variable {m m' : Mem} {a e : Nat} {b : Block} {bs cs : List Block}

theorem Layout.span_eq (h : Layout m a bs e) : a + span headerSize bs = e := by
  induction bs generalizing a with
  | nil => exact h
  | cons b bs ih => rw [span, ← ih h.2.2]; omega

theorem layout_append : Layout m a (bs ++ cs) e ↔
    Layout m a bs (a + span headerSize bs) ∧ Layout m (a + span headerSize bs) cs e := by
  induction bs generalizing a with
  | nil => simp [Layout, span]
  | cons b bs ih =>
    rw [List.cons_append, Layout, Layout, ih, span,
      show a + headerSize + b.size + span headerSize bs =
        a + (headerSize + b.size + span headerSize bs) by omega]
    simp only [and_assoc]

/-- A memory that agrees between `a` and `e` has the same blocks there. -/
theorem Layout.congr (h : Layout m a bs e) (he : e < 2 ^ 32)
    (hm : ∀ x : Word, a ≤ x.toNat → x.toNat < e → m' x = m x) : Layout m' a bs e := by
  induction bs generalizing a with
  | nil => exact h
  | cons b bs ih =>
    have hspan := h.span_eq
    have h4 := headerSize_eq
    rw [span] at hspan
    have hload : load32 m' (BitVec.ofNat 32 a) = load32 m (BitVec.ofNat 32 a) := by
      refine load32_congr fun x hx => hm x ?_ ?_ <;>
        (rw [BitVec.toNat_sub, BitVec.toNat_ofNat] at hx; omega)
    refine ⟨hload ▸ h.1, hload ▸ h.2.1, ih h.2.2 fun x hx => hm x ?_⟩
    omega

/-- Writing a word at `a` leaves a byte alone that lies below `a` or at least four above. -/
theorem store32_ofNat_apart {v x : Word} (ha : a + 4 ≤ 2 ^ 32)
    (h : x.toNat < a ∨ a + 4 ≤ x.toNat) : store32 m (BitVec.ofNat 32 a) v x = m x := by
  refine store32_of_apart ?_
  rw [BitVec.toNat_sub, BitVec.toNat_ofNat]
  have := x.isLt
  omega

/-- **A header, written before blocks that are there.** -/
theorem Layout.cons_store {n : Nat} {u : Bool} {v : Word} (h : Layout m (a + headerSize + n) bs e)
    (he : e < 2 ^ 32) (hsize : (getSize v).toNat = n) (hused : isUsed v = u) :
    Layout (store32 m (BitVec.ofNat 32 a) v) a (⟨n, u⟩ :: bs) e := by
  have h4 := headerSize_eq
  have hspan := h.span_eq
  refine ⟨by rw [load32_store32, hsize], by rw [load32_store32, hused], h.congr he fun x hx _ => ?_⟩
  exact store32_ofNat_apart (by omega) (Or.inr (by omega))

/-- **Rewriting one header.**  A new header word for a block, with the same size, changes that
block's flag and nothing else. -/
theorem Layout.setHeader {pre post : List Block} {v : Word} {u : Bool}
    (h : Layout m a (pre ++ b :: post) e) (he : e < 2 ^ 32)
    (hsize : (getSize v).toNat = b.size) (hused : isUsed v = u) :
    Layout (store32 m (BitVec.ofNat 32 (a + span headerSize pre)) v) a
      (pre ++ ⟨b.size, u⟩ :: post) e := by
  obtain ⟨hpre, hb, hu, hpost⟩ := layout_append.1 h
  have hend := hpost.span_eq
  have h4 := headerSize_eq
  refine layout_append.2 ⟨hpre.congr (by omega) fun x _ hx => ?_, hpost.cons_store he hsize hused⟩
  exact store32_ofNat_apart (by omega) (Or.inl hx)

/-- **A change behind a block** leaves the block. -/
theorem Layout.of_tail (h : Layout m a (b :: bs) e) (he : e < 2 ^ 32)
    (htail : Layout m' (a + headerSize + b.size) cs e)
    (hm : ∀ x : Word, x.toNat < a + headerSize + b.size → m' x = m x) : Layout m' a (b :: cs) e := by
  have h4 := headerSize_eq
  have hspan := h.span_eq
  rw [span] at hspan
  have hhead : load32 m' (BitVec.ofNat 32 a) = load32 m (BitVec.ofNat 32 a) := by
    refine load32_congr fun x hx => hm x ?_
    rw [BitVec.toNat_sub, BitVec.toNat_ofNat] at hx
    omega
  exact ⟨hhead ▸ h.1, hhead ▸ h.2.1, htail⟩

end Layout

/-! ## The traversal of `kfree` -/

section Traversal

variable {a e : Nat} {b : Block} {bs : List Block}

/-- The header word of a block in a layout, and the address after it, in numbers. -/
theorem Layout.next_toNat {m : Mem} (h : Layout m a (b :: bs) e) :
    (BitVec.ofNat 32 a + 4 + getSize (load32 m (BitVec.ofNat 32 a)) : Word) =
      BitVec.ofNat 32 (a + headerSize + b.size) := by
  have hspan := h.span_eq
  rw [span] at hspan
  refine BitVec.eq_of_toNat_eq ?_
  rw [BitVec.toNat_add, BitVec.toNat_add, h.1]
  simp only [BitVec.toNat_ofNat, BitVec.ofNat_eq_ofNat, headerSize_eq] at hspan ⊢
  omega

/-! One turn of the loop: at the last block, at two free blocks in a row, and at any other two. -/

theorem kfreeLoop_last {m : Mem} (fuel : Nat) (hl : Layout m a [b] e) (he : e < 2 ^ 32) :
    kfreeLoop (BitVec.ofNat 32 e) (fuel + 1) (BitVec.ofNat 32 a) m = some m := by
  have hspan := hl.span_eq
  have h4 := headerSize_eq
  simp only [span] at hspan
  rw [kfreeLoop, if_pos (by rw [BitVec.lt_def]; simp only [BitVec.toNat_ofNat]; omega),
    hl.next_toNat, if_pos]
  rw [BitVec.le_def]
  simp only [BitVec.toNat_ofNat]
  omega

/-- Both free: the header grows over the next block, and the loop stays where it is. -/
theorem kfreeLoop_merge {m : Mem} {c : Block} (fuel : Nat) (hl : Layout m a (b :: c :: bs) e)
    (he : e < 2 ^ 32) (hb : 4 ∣ b.size) (hc : 4 ∣ c.size) (hfree : b.used = false ∧ c.used = false) :
    ∃ v : Word, v.toNat % 2 = 0 ∧
      kfreeLoop (BitVec.ofNat 32 e) (fuel + 1) (BitVec.ofNat 32 a) m =
        kfreeLoop (BitVec.ofNat 32 e) fuel (BitVec.ofNat 32 a) (store32 m (BitVec.ofNat 32 a) v) ∧
      Layout (store32 m (BitVec.ofNat 32 a) v) a (⟨b.size + headerSize + c.size, false⟩ :: bs) e := by
  have hspan := hl.span_eq
  have h4 := headerSize_eq
  simp only [span] at hspan
  obtain ⟨hbs, hbu, hcs, hcu, hrest⟩ := id hl
  generalize hv : getSize (load32 m (BitVec.ofNat 32 a)) + 4 +
    getSize (load32 m (BitVec.ofNat 32 (a + headerSize + b.size))) = v
  have hvn : v.toNat = b.size + headerSize + c.size := by
    rw [← hv, BitVec.toNat_add, BitVec.toNat_add, hbs, hcs]
    simp only [BitVec.toNat_ofNat, BitVec.ofNat_eq_ofNat]
    omega
  have heven : v.toNat % 2 = 0 := by omega
  refine ⟨v, heven, ?_, ?_⟩
  · rw [kfreeLoop, if_pos (by rw [BitVec.lt_def]; simp only [BitVec.toNat_ofNat]; omega),
      hl.next_toNat, if_neg (by
        rw [BitVec.le_def]; simp only [BitVec.toNat_ofNat]; omega), hv]
    simp only [hbu, hcu]
    rw [if_pos (by simp [hfree])]
  · refine Layout.cons_store ?_ he (by rw [getSize_of_even heven, hvn]) (isUsed_of_even heven)
    simpa only [Nat.add_assoc] using hrest

/-- One of the two is used: step onto the next block. -/
theorem kfreeLoop_skip {m : Mem} {c : Block} (fuel : Nat) (hl : Layout m a (b :: c :: bs) e)
    (he : e < 2 ^ 32) (hused : ¬ (b.used = false ∧ c.used = false)) :
    kfreeLoop (BitVec.ofNat 32 e) (fuel + 1) (BitVec.ofNat 32 a) m =
      kfreeLoop (BitVec.ofNat 32 e) fuel (BitVec.ofNat 32 (a + headerSize + b.size)) m := by
  have hspan := hl.span_eq
  have h4 := headerSize_eq
  simp only [span] at hspan
  obtain ⟨-, hbu, -, hcu, -⟩ := id hl
  rw [kfreeLoop, if_pos (by rw [BitVec.lt_def]; simp only [BitVec.toNat_ofNat]; omega),
    hl.next_toNat, if_neg (by
      rw [BitVec.le_def]; simp only [BitVec.toNat_ofNat]; omega)]
  simp only [hbu, hcu]
  rw [if_neg (by rw [Bool.and_eq_true, Bool.not_eq_true', Bool.not_eq_true']; exact hused)]

/-- **`kfree`'s loop coalesces.**  Started on the first block of a layout it ends, leaves the
coalesced list, and writes no byte outside the heap and no byte of a live payload. -/
theorem kfreeLoop_spec (fuel : Nat) {m : Mem} (hl : Layout m a (b :: bs) e) (he : e < 2 ^ 32)
    (hsz : ∀ c ∈ b :: bs, 4 ∣ c.size) (hfuel : bs.length < fuel) :
    ∃ m', kfreeLoop (BitVec.ofNat 32 e) fuel (BitVec.ofNat 32 a) m = some m' ∧
      Layout m' a (coalesce headerSize b bs) e ∧
      ∀ x : Word, (x.toNat < a ∨ e ≤ x.toNat ∨ ∃ q n, (q, n) ∈ live headerSize a (b :: bs) ∧
        q ≤ x.toNat ∧ x.toNat < q + n) → m' x = m x := by
  induction bs generalizing a b m fuel with
  | nil =>
    obtain ⟨fuel, rfl⟩ : ∃ k, fuel = k + 1 := ⟨fuel - 1, by omega⟩
    exact ⟨m, kfreeLoop_last fuel hl he, hl, fun _ _ => rfl⟩
  | cons c bs ih =>
    obtain ⟨fuel, rfl⟩ : ∃ k, fuel = k + 1 := ⟨fuel - 1, by omega⟩
    have hspan := hl.span_eq
    have h4 := headerSize_eq
    simp only [span] at hspan
    have hb := hsz b (by simp)
    have hc := hsz c (by simp)
    have hsz' : ∀ d ∈ bs, 4 ∣ d.size := fun d hd => hsz d (by simp [hd])
    rw [coalesce]
    by_cases hfree : b.used = false ∧ c.used = false
    · obtain ⟨v, -, hturn, hl'⟩ := kfreeLoop_merge fuel hl he hb hc hfree
      have hlive : live headerSize a (⟨b.size + headerSize + c.size, false⟩ :: bs) =
          live headerSize a (b :: c :: bs) := by
        simp [live, hfree, Nat.add_assoc]
      obtain ⟨m', hrun, hlay, hframe⟩ := ih fuel hl' (List.forall_mem_cons.2
        ⟨Nat.dvd_add (Nat.dvd_add hb ⟨1, rfl⟩) hc, hsz'⟩) (by simp at hfuel; omega)
      rw [if_pos hfree]
      refine ⟨m', hturn.trans hrun, hlay, fun x hx => ?_⟩
      rw [hframe x (hlive ▸ hx)]
      refine store32_ofNat_apart (by omega) ?_
      rcases hx with hx | hx | ⟨q, n, hqn, hq, hn⟩
      · exact Or.inl hx
      · omega
      · exact live_header_apart (show _ ∈ live headerSize a ([] ++ b :: c :: bs) from hqn) hq hn
    · obtain ⟨m', hrun, hlay, hframe⟩ := ih (b := c) fuel hl.2.2
        (List.forall_mem_cons.2 ⟨hc, hsz'⟩) (by simp at hfuel; omega)
      rw [if_neg hfree]
      refine ⟨m', (kfreeLoop_skip fuel hl he hfree).trans hrun,
        hl.of_tail he hlay fun x hx => hframe x (Or.inl hx), fun x hx => ?_⟩
      rcases hx with hx | hx | ⟨q, n, hqn, hq, hn⟩
      · exact hframe x (Or.inl (by omega))
      · exact hframe x (Or.inr (Or.inl hx))
      · by_cases hin : x.toNat < a + headerSize + b.size
        · exact hframe x (Or.inl hin)
        · exact hframe x (Or.inr (Or.inr ⟨q, n, mem_live_tail hqn hn (Nat.not_lt.1 hin), hq, hn⟩))

end Traversal

/-! ## The walk of `kmalloc` -/

section Walk

variable {a e : Nat} {b : Block} {bs : List Block} {size : Word}

/-- **Taking a block.**  `kmallocTake` on a free block that is large enough leaves the block placed,
split exactly when header and four bytes fit after it, and writes nothing outside the block that
is below the end of the heap. -/
theorem kmallocTake_spec {m : Mem} (hl : Layout m a (b :: bs) e) (he : e < 2 ^ 32)
    (hmod : e % 4 = 0) (hsz : 4 ∣ b.size) (hs : size.toNat % 4 = 0) (hle : size.toNat ≤ b.size) :
    Layout (kmallocTake size (BitVec.ofNat 32 a) m) a
        (place headerSize size.toNat (decide (size.toNat + 8 ≤ b.size)) b ++ bs) e ∧
      ∀ x : Word, (x.toNat < a ∨ a + headerSize + b.size ≤ x.toNat) → x.toNat < e →
        kmallocTake size (BitVec.ofNat 32 a) m x = m x := by
  have h4 := headerSize_eq
  have hspan := hl.span_eq
  rw [span] at hspan
  obtain ⟨hbs, hbu, hrest⟩ := hl
  have hrest_span := hrest.span_eq
  have hs2 : size.toNat % 2 = 0 := by omega
  have hadd : (size + 4 + 4 : Word).toNat = (size.toNat + 8) % 2 ^ 32 := by
    rw [BitVec.toNat_add, BitVec.toNat_add]
    simp only [BitVec.toNat_ofNat, BitVec.ofNat_eq_ofNat]
    omega
  have hnext : (BitVec.ofNat 32 a + 4 + size : Word) =
      BitVec.ofNat 32 (a + headerSize + size.toNat) := by
    refine BitVec.eq_of_toNat_eq ?_
    rw [BitVec.toNat_add, BitVec.toNat_add]
    simp only [BitVec.toNat_ofNat, BitVec.ofNat_eq_ofNat]
    omega
  simp only [kmallocTake, BitVec.le_def, hbs, hadd, hnext]
  by_cases hsplit : size.toNat + 8 ≤ b.size
  · -- a real split: the new header lies inside the block
    rw [if_pos (by omega), decide_eq_true hsplit]
    simp only [load32_store32, store32_store32]
    generalize hv : getSize (load32 m (BitVec.ofNat 32 a)) - size - 4 = v
    have hvn : v.toNat = b.size - size.toNat - headerSize := by
      rw [← hv, BitVec.toNat_sub, BitVec.toNat_sub, hbs]
      simp only [BitVec.toNat_ofNat, BitVec.ofNat_eq_ofNat]
      omega
    have hnew : a + headerSize + size.toNat + headerSize + (b.size - size.toNat - headerSize) =
        a + headerSize + b.size := by omega
    refine ⟨Layout.cons_store (Layout.cons_store (hnew ▸ hrest) he ?_ isUsed_setFree) he ?_
      isUsed_setUsed, fun x hx _ => ?_⟩
    · rw [getSize_setFree, getSize_of_even (by omega), hvn]
    · rw [getSize_setUsed, getSize_setSize (by omega)]
    · rw [store32_ofNat_apart (by omega) (by omega), store32_ofNat_apart (by omega) (by omega)]
  · rw [decide_eq_false hsplit]
    by_cases hwrap : (size.toNat + 8) % 2 ^ 32 ≤ b.size
    · -- the sum has wrapped, so the block is the whole of the largest heap
      rw [if_pos hwrap]
      simp only [load32_store32, store32_store32]
      refine ⟨Layout.cons_store (hrest.congr he fun x _ _ => ?_) he ?_ isUsed_setUsed,
        fun x _ _ => ?_⟩
      · omega
      · rw [getSize_setUsed, getSize_setSize (by omega)]
        omega
      · omega
    · rw [if_neg hwrap]
      refine ⟨hrest.cons_store he (by rw [getSize_setUsed, hbs]) isUsed_setUsed, fun x hx _ => ?_⟩
      exact store32_ofNat_apart (by omega) (by omega)

/-- **`kmalloc`'s loop is first fit.**  It ends.  Either no free block is large enough, and it
returns `NULL` with memory untouched; or it takes the first one that is, and returns the address of
that block's payload. -/
theorem kmallocLoop_spec {m : Mem} {fuel : Nat} (hl : Layout m a bs e) (he : e < 2 ^ 32)
    (hmod : e % 4 = 0) (hsz : ∀ c ∈ bs, 4 ∣ c.size) (hs : size.toNat % 4 = 0)
    (hfuel : bs.length < fuel) :
    (kmallocLoop (BitVec.ofNat 32 e) size fuel (BitVec.ofNat 32 a) m = some (null, m) ∧
        ∀ c ∈ bs, c.used = true ∨ c.size < size.toNat) ∨
      ∃ pre b post m', bs = pre ++ b :: post ∧ b.used = false ∧ size.toNat ≤ b.size ∧
        (∀ c ∈ pre, c.used = true ∨ c.size < size.toNat) ∧
        kmallocLoop (BitVec.ofNat 32 e) size fuel (BitVec.ofNat 32 a) m =
          some (BitVec.ofNat 32 (a + span headerSize pre + headerSize), m') ∧
        Layout m' a
          (pre ++ place headerSize size.toNat (decide (size.toNat + 8 ≤ b.size)) b ++ post) e ∧
        ∀ x : Word, (x.toNat < a + span headerSize pre ∨
          a + span headerSize pre + headerSize + b.size ≤ x.toNat) → x.toNat < e →
            m' x = m x := by
  have h4 := headerSize_eq
  induction bs generalizing a fuel with
  | nil =>
    obtain ⟨fuel, rfl⟩ : ∃ k, fuel = k + 1 := ⟨fuel - 1, by omega⟩
    refine Or.inl ⟨?_, by simp⟩
    obtain rfl : a = e := hl
    rw [kmallocLoop, if_neg (by rw [BitVec.lt_def]; omega)]
  | cons b bs ih =>
    obtain ⟨fuel, rfl⟩ : ∃ k, fuel = k + 1 := ⟨fuel - 1, by omega⟩
    have hspan := hl.span_eq
    rw [span] at hspan
    have hb := hsz b (by simp)
    rw [kmallocLoop, if_pos (by rw [BitVec.lt_def]; simp only [BitVec.toNat_ofNat]; omega)]
    simp only [hl.2.1, BitVec.le_def, hl.1, hl.next_toNat, Bool.and_eq_true, Bool.not_eq_true',
      decide_eq_true_eq]
    by_cases hfit : b.used = false ∧ size.toNat ≤ b.size
    · rw [if_pos hfit]
      obtain ⟨hlay, hframe⟩ := kmallocTake_spec hl he hmod hb hs hfit.2
      refine Or.inr ⟨[], b, bs, _, rfl, hfit.1, hfit.2, by simp, ?_, hlay, hframe⟩
      rw [show (BitVec.ofNat 32 a + 4 : Word) =
        BitVec.ofNat 32 (a + span headerSize [] + headerSize) from (BitVec.ofNat_add a 4).symm]
    · rw [if_neg hfit]
      have hskip : b.used = true ∨ b.size < size.toNat := by
        by_contra hno
        rw [not_or, Bool.not_eq_true, Nat.not_lt] at hno
        exact hfit hno
      rcases ih hl.2.2 (fun c hc => hsz c (by simp [hc])) (by simp at hfuel; omega) with
        ⟨hrun, hno⟩ | ⟨pre, c, post, m', rfl, hfree, hle, hpre, hrun, hlay, hframe⟩
      · exact Or.inl ⟨hrun, List.forall_mem_cons.2 ⟨hskip, hno⟩⟩
      · have hshift : a + span headerSize (b :: pre) = a + headerSize + b.size +
            span headerSize pre := by rw [span]; omega
        refine Or.inr ⟨b :: pre, c, post, m', rfl, hfree, hle,
          List.forall_mem_cons.2 ⟨hskip, hpre⟩, by rw [hshift]; exact hrun, ?_, ?_⟩
        · exact hl.of_tail he hlay fun x hx => hframe x (Or.inl (by omega)) (by omega)
        · rw [hshift]
          exact hframe

end Walk

end RiscyOS
