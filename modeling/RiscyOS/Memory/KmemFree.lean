import RiscyOS.Memory.KmemFit

/-!
# Giving a block back

Two things about `kfree` that its callers lean on.

* It undoes `kmalloc` (`kfree_undoes_kmalloc`): a block that is given back at once leaves the block
  list as it was, whether the block had been split off or taken whole.
* Done twice in a row it is as good as done once, to the last bit (`kfree_again`).  What the second call
  finds at the pointer may be the header of a larger block by then, or a word inside one; either way
  its flag is clear, so that clearing it stores what is there, and the traversal that follows finds
  nothing to merge.

For the second, what the traversal writes has to be known word by word: even numbers, into headers
(`kfreeLoop_keeps`).
-/

set_option autoImplicit false

namespace RiscyOS

open Memory BlockList

/-! ## What the traversal writes -/

section Traversal

variable {a e : Nat} {b : Block} {bs : List Block} {m m' : Mem}

/-- **The traversal writes even numbers into headers**, and so keeps whatever such a store keeps. -/
theorem kfreeLoop_keeps {P : Mem → Prop} (fuel : Nat) (hl : Layout m a (b :: bs) e) (he : e < 2 ^ 32)
    (hsz : ∀ c ∈ b :: bs, 4 ∣ c.size)
    (hP : ∀ m, ∀ i ∈ headers headerSize a (b :: bs), ∀ v : Word, v.toNat % 2 = 0 → P m →
      P (store32 m (BitVec.ofNat 32 i) v))
    (hm : P m) (hrun : kfreeLoop (BitVec.ofNat 32 e) fuel (BitVec.ofNat 32 a) m = some m') : P m' := by
  induction bs generalizing a b m fuel with
  | nil =>
    cases fuel with
    | zero => exact absurd hrun (by simp [kfreeLoop])
    | succ fuel =>
      rw [kfreeLoop_last fuel hl he] at hrun
      exact Option.some.inj hrun ▸ hm
  | cons c bs ih =>
    cases fuel with
    | zero => exact absurd hrun (by simp [kfreeLoop])
    | succ fuel =>
      have hb := hsz b (by simp)
      have hc := hsz c (by simp)
      have hsz' : ∀ d ∈ bs, 4 ∣ d.size := fun d hd => hsz d (by simp [hd])
      by_cases hfree : b.used = false ∧ c.used = false
      · obtain ⟨v, heven, hturn, hl'⟩ := kfreeLoop_merge fuel hl he hb hc hfree
        rw [hturn] at hrun
        refine ih fuel hl' (List.forall_mem_cons.2
          ⟨Nat.dvd_add (Nat.dvd_add hb ⟨1, rfl⟩) hc, hsz'⟩) (fun m i hi => hP m i ?_)
          (hP m a List.mem_cons_self v heven hm) hrun
        -- one header fewer
        rw [headers, List.mem_cons] at hi
        rw [headers, headers, List.mem_cons, List.mem_cons]
        rcases hi with hi | hi
        · exact Or.inl hi
        · exact Or.inr (Or.inr (by simpa only [Nat.add_assoc] using hi))
      · rw [kfreeLoop_skip fuel hl he hfree] at hrun
        exact ih fuel hl.2.2 (List.forall_mem_cons.2 ⟨hc, hsz'⟩)
          (fun m i hi => hP m i (List.mem_cons_of_mem _ hi)) hm hrun

/-- **Nothing to merge**: where no two neighbours are free the traversal writes nothing. -/
theorem kfreeLoop_of_noAdjFree {fuel : Nat} (hl : Layout m a bs e) (he : e < 2 ^ 32)
    (hadj : NoAdjFree bs) (hfuel : bs.length < fuel) :
    kfreeLoop (BitVec.ofNat 32 e) fuel (BitVec.ofNat 32 a) m = some m := by
  induction bs generalizing a fuel with
  | nil =>
    obtain ⟨fuel, rfl⟩ : ∃ k, fuel = k + 1 := ⟨fuel - 1, by omega⟩
    obtain rfl : a = e := hl
    rw [kfreeLoop, if_neg (by rw [BitVec.lt_def]; omega)]
  | cons b bs ih =>
    obtain ⟨fuel, rfl⟩ : ∃ k, fuel = k + 1 := ⟨fuel - 1, by omega⟩
    cases bs with
    | nil => exact kfreeLoop_last fuel hl he
    | cons c bs =>
      obtain ⟨hused, hadj⟩ := List.isChain_cons_cons.1 hadj
      have hnot : ¬ (b.used = false ∧ c.used = false) := by
        rintro ⟨hb, hc⟩
        rcases hused with hused | hused
        · exact Bool.false_ne_true (hb.symm.trans hused)
        · exact Bool.false_ne_true (hc.symm.trans hused)
      rw [kfreeLoop_skip fuel hl he hnot]
      exact ih hl.2.2 hadj (by simp at hfuel ⊢; omega)

end Traversal

/-! ## Giving back what was just handed out -/

section Undo

variable {H : HeapArea} {s : KState} {bs : List Block}

/-- A block that is handed out and given back leaves the ranges that were live. -/
theorem KInv.malloc_live (h : KInv H s bs) {size : Word} {p : Ptr} {m : Mem}
    (hk : kmalloc H size s.mem = some (p, m)) (hp : p ≠ null) :
    ∃ cs, KInv H ⟨m, p :: s.live⟩ cs ∧
      (BlockList.live headerSize H.start.toNat cs).filter (fun r => r.1 ≠ p.toNat) =
        BlockList.live headerSize H.start.toNat bs := by
  obtain ⟨cs, hinv⟩ := h.malloc hk
  rw [if_neg hp] at hinv
  refine ⟨cs, hinv, ?_⟩
  rcases h.kmalloc_cases size with ⟨hrun, -⟩ | ⟨pre, b, post, m', rfl, hfree, -, -, hrun, hlay, -⟩
  · rw [hrun] at hk
    exact absurd (Prod.mk.inj (Option.some.inj hk)).1.symm hp
  · rw [hrun] at hk
    obtain ⟨rfl, rfl⟩ := Prod.mk.inj (Option.some.inj hk)
    obtain rfl := hinv.layout.unique hlay
    have hspan := h.layout.span_eq
    have htop := H.stop.isLt
    rw [span_append, span] at hspan
    have haddr : (BitVec.ofNat 32 (H.start.toNat + span headerSize pre + headerSize) : Ptr).toNat =
        H.start.toNat + span headerSize pre + headerSize := by
      rw [BitVec.toNat_ofNat]
      omega
    have hroom : decide ((align4 size).toNat + 8 ≤ b.size) = true →
        (align4 size).toNat + headerSize ≤ b.size := by
      rw [decide_eq_true_iff, headerSize_eq]
      omega
    rw [haddr]
    exact live_place_filter (by decide) H.start.toNat pre post hroom hfree

/-- **`kfree` undoes `kmalloc`.**  In every reachable heap, what `kmalloc` hands out for any size, given
back at once, leaves the heap with the blocks it had. -/
theorem kfree_undoes_kmalloc (H : HeapArea) (s : KState) (h : KReach H s) (size : Word) (p : Ptr)
    (m : Mem) (hk : kmalloc H size s.mem = some (p, m)) (hp : p ≠ null) :
    ∃ m' bs, kfree H p m = some m' ∧ Layout s.mem H.start.toNat bs H.stop.toNat ∧
      Layout m' H.start.toNat bs H.stop.toNat := by
  obtain ⟨bs, hinv⟩ := h.inv
  obtain ⟨cs, hinv', hlive⟩ := hinv.malloc_live hk hp
  obtain ⟨m', ds, hrun, hinv'', hlive', -⟩ := hinv'.kfree_spec List.mem_cons_self
  obtain rfl := hinv.blocks_unique hinv'' (hlive.symm.trans hlive'.symm)
  exact ⟨m', bs, hrun, hinv.layout, hinv''.layout⟩

/-- Sixteen bytes, taken from the small heap and given back. -/
theorem kfree_undoes_kmalloc_page : ∃ r m' bs, kmalloc pageHeap 16 pageState.mem = some r ∧
    kfree pageHeap r.1 r.2 = some m' ∧ Layout pageState.mem 0x1000 bs 0x2000 ∧
      Layout m' 0x1000 bs 0x2000 := by
  obtain ⟨r, hr⟩ : ∃ r, kmalloc pageHeap 16 pageState.mem = some r :=
    Option.isSome_iff_exists.1 (by decide +kernel)
  have hp : (kmalloc pageHeap 16 pageState.mem).map Prod.fst = some 0x1004 := by decide +kernel
  rw [hr] at hp
  obtain ⟨m', bs, hrun, hlay, hlay'⟩ := kfree_undoes_kmalloc pageHeap pageState pageState_reach 16
    r.1 r.2 hr (by rw [Option.some.inj hp]; decide)
  exact ⟨r, m', bs, hr, hrun, hlay, hlay'⟩

end Undo

/-! ## Giving a block back twice -/

section Again

/-- A word with a clear flag stays what it is. -/
theorem setFree_of_even {h : Word} (hh : h.toNat % 2 = 0) : setFree h = h := getSize_of_even hh

theorem setFree_even (h : Word) : (setFree h).toNat % 2 = 0 := by
  rw [setFree, ← getSize, getSize_toNat]
  omega

namespace KInv

variable {H : HeapArea} {s : KState} {bs : List Block} {p : Ptr} {m : Mem}

/-- After the flag is cleared, what `kfree` stores are even numbers, in front of the block's payload or
clear of the block. -/
theorem kfree_keeps {P : Mem → Prop} (h : KInv H s bs) (hp : p ∈ s.live)
    (hP : ∀ m i, i + 4 ≤ H.stop.toNat →
      (i + 8 ≤ p.toNat ∨ i + 4 = p.toNat ∨ p.toNat + payloadSize s.mem p ≤ i) →
      ∀ v : Word, v.toNat % 2 = 0 → P m → P (store32 m (BitVec.ofNat 32 i) v))
    (hm : P (store32 s.mem (p - 4) (setFree (load32 s.mem (p - 4)))))
    (hrun : kfree H p s.mem = some m) : P m := by
  have h4 := headerSize_eq
  obtain ⟨pre, post, rfl, hp0, hpn, -, hlay, hsz, -⟩ := h.release hp
  have hspan := hlay.span_eq
  obtain ⟨b, bs, hbs⟩ := List.exists_cons_of_ne_nil
    (show pre ++ (⟨payloadSize s.mem p, false⟩ : Block) :: post ≠ [] by simp)
  simp only [kfree, if_neg hp0] at hrun
  rw [hbs] at hlay hsz hspan
  refine kfreeLoop_keeps (2 ^ 32) hlay H.stop.isLt hsz (fun μ i hi => hP μ i ?_ ?_) hm
    (by rwa [BitVec.ofNat_toNat, BitVec.setWidth_eq, BitVec.ofNat_toNat, BitVec.setWidth_eq])
  · have := (headers_bounds hi).2
    omega
  · have := headers_apart (hbs ▸ hi)
    simp only at this
    omega

/-- **The payload of the block** is not written to. -/
theorem kfree_payload (h : KInv H s bs) (hp : p ∈ s.live) (hrun : kfree H p s.mem = some m) {x : Word}
    (hx : InPayload s.mem p x) : m x = s.mem x := by
  obtain ⟨hx, hx'⟩ := hx
  have h4 := headerSize_eq
  obtain ⟨-, pre, post, rfl, hpn, hblock⟩ := h.exists_block hp
  refine h.kfree_keeps (P := fun μ => μ x = s.mem x) hp (fun μ i hi hapart v _ hμ => ?_) ?_ hrun
  · have := H.stop.isLt
    exact (store32_ofNat_apart (by omega) (by omega)).trans hμ
  · rw [hblock]
    exact store32_ofNat_apart (by omega) (by omega)

/-- **The word in front of the payload** has its flag clear, whatever it has become. -/
theorem kfree_flag (h : KInv H s bs) (hp : p ∈ s.live) (hrun : kfree H p s.mem = some m) :
    (load32 m (p - 4)).toNat % 2 = 0 := by
  have h4 := headerSize_eq
  obtain ⟨-, pre, post, rfl, hpn, hblock⟩ := h.exists_block hp
  refine h.kfree_keeps (P := fun μ => (load32 μ (p - 4)).toNat % 2 = 0) hp
    (fun μ i hi hapart v hv hμ => ?_) ?_ hrun
  · have htop := H.stop.isLt
    by_cases heq : i + 4 = p.toNat
    · rw [hblock, show H.start.toNat + span headerSize pre = i by omega, load32_store32]
      exact hv
    · have hi' : (BitVec.ofNat 32 i : Word).toNat = i := Nat.mod_eq_of_lt (by omega)
      have hp' : (p - 4).toNat = p.toNat - 4 := by
        have := p.isLt
        rw [hblock, BitVec.toNat_ofNat]
        omega
      rw [load32_store32_of_toNat (by omega) (by omega) (by omega)]
      exact hμ
  · rw [load32_store32]
    exact setFree_even _

end KInv

/-- **A second `kfree` is harmless.**  In every reachable heap, of a live pointer: the first `kfree`
returns and changes no byte of its payload, and another one at once leaves memory as it is. -/
theorem kfree_again (H : HeapArea) (s : KState) (h : KReach H s) (p : Ptr) (hp : p ∈ s.live) :
    ∃ m, kfree H p s.mem = some m ∧ (∀ x, InPayload s.mem p x → m x = s.mem x) ∧
      kfree H p m = some m := by
  obtain ⟨bs, hinv⟩ := h.inv
  obtain ⟨m, cs, hrun, hinv', -, -⟩ := hinv.kfree_spec hp
  obtain ⟨-, -, -, hp0, -⟩ := hinv.release hp
  refine ⟨m, hrun, fun x hx => hinv.kfree_payload hp hrun hx, ?_⟩
  have hloop := kfreeLoop_of_noAdjFree hinv'.layout H.stop.isLt hinv'.adj hinv'.fuel_le
  rw [BitVec.ofNat_toNat, BitVec.setWidth_eq, BitVec.ofNat_toNat, BitVec.setWidth_eq] at hloop
  simp only [kfree, if_neg hp0, setFree_of_even (hinv.kfree_flag hp hrun), store32_load32]
  exact hloop

/-- The second allocation of the small heap, between two free blocks once it is given back. -/
theorem kfree_again_page : ∃ m, kfree pageHeap 0x1018 pageState.mem = some m ∧
    (∀ x, InPayload pageState.mem 0x1018 x → m x = pageState.mem x) ∧
      kfree pageHeap 0x1018 m = some m :=
  kfree_again pageHeap pageState pageState_reach 0x1018 (by decide +kernel)

end Again

end RiscyOS
