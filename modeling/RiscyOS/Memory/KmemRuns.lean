import RiscyOS.Memory.KmemSpec

/-!
# Histories of the kernel heap

A state of the heap is its memory together with the pointers that are live: returned by `kmalloc`
and not given back since.  `KReach` is everything that can happen to it — `kheap_init` over any
memory, `kmalloc` of any 32-bit size, `kfree` of a live pointer, and the owner of an allocation
writing into it.  The last one is not the allocator's doing, but the headers sit between the
payloads, and an invariant that could not stand the payloads being used would be of no use.

`KInv` is the representation invariant: the headers lay the heap out as a list of blocks without
free neighbours, and the live pointers are the payload addresses of the used blocks, each once.
The four `KInv` lemmas show it kept by every kind of step; the theorems at the end read it back in
terms of memory.
-/

set_option autoImplicit false

namespace RiscyOS

open Memory BlockList

/-- The heap's memory, and the pointers handed out and not yet given back. -/
structure KState where
  mem : Mem
  live : List Ptr

/-- The payload size that the header in front of `p` records. -/
def payloadSize (m : Mem) (p : Ptr) : Nat := (getSize (load32 m (p - 4))).toNat

/-- `x` is a byte of the payload of `p`. -/
def InPayload (m : Mem) (p x : Word) : Prop :=
  p.toNat ≤ x.toNat ∧ x.toNat < p.toNat + payloadSize m p

/-- The states reached from `kheap_init` by calls of `kmalloc`, calls of `kfree` on live pointers,
and writes of owners into their allocations. -/
inductive KReach (H : HeapArea) : KState → Prop
  | init (m : Mem) : KReach H ⟨kheapInit H m, []⟩
  | malloc {s : KState} {p : Ptr} {m : Mem} (size : Word) (hs : KReach H s)
      (h : kmalloc H size s.mem = some (p, m)) :
      KReach H ⟨m, if p = null then s.live else p :: s.live⟩
  | free {s : KState} {p : Ptr} {m : Mem} (hs : KReach H s) (hp : p ∈ s.live)
      (h : kfree H p s.mem = some m) : KReach H ⟨m, s.live.erase p⟩
  | write {s : KState} {p x : Word} (v : Byte) (hs : KReach H s) (hp : p ∈ s.live)
      (hx : InPayload s.mem p x) : KReach H ⟨store8 s.mem x v, s.live⟩

/-- **The representation invariant** of the heap, with the block list it stands for. -/
structure KInv (H : HeapArea) (s : KState) (bs : List Block) : Prop where
  /-- Walking the headers from the start arrives at the end, visiting `bs`. -/
  layout : Layout s.mem H.start.toNat bs H.stop.toNat
  /-- Sizes are multiples of four. -/
  sizes : ∀ b ∈ bs, 4 ∣ b.size
  /-- No two neighbours are free. -/
  adj : NoAdjFree bs
  /-- The live pointers are the payloads of the used blocks. -/
  perm : s.live.Perm
    ((BlockList.live headerSize H.start.toNat bs).map fun r => BitVec.ofNat 32 r.1)

namespace KInv

variable {H : HeapArea} {s : KState} {bs : List Block}

theorem fuel_le (h : KInv H s bs) : bs.length < 2 ^ 32 := by
  have h1 := h.layout.span_eq
  have h2 := length_mul_le_span headerSize bs
  have h3 := H.stop.isLt
  simp only [headerSize_eq] at h1 h2
  omega

/-- A live pointer is the payload address of a used block, whose header records its size. -/
theorem exists_block (h : KInv H s bs) {p : Ptr} (hp : p ∈ s.live) :
    (p.toNat, payloadSize s.mem p) ∈ BlockList.live headerSize H.start.toNat bs ∧
      ∃ pre post, bs = pre ++ ⟨payloadSize s.mem p, true⟩ :: post ∧
        p.toNat = H.start.toNat + span headerSize pre + headerSize ∧
        p - 4 = BitVec.ofNat 32 (H.start.toNat + span headerSize pre) := by
  have h4 := headerSize_eq
  have htop := H.stop.isLt
  obtain ⟨⟨q, n⟩, hqn, rfl⟩ := List.mem_map.1 (h.perm.mem_iff.1 hp)
  have hb := live_bounds hqn
  rw [h.layout.span_eq] at hb
  have hq : (BitVec.ofNat 32 q : Word).toNat = q := by
    rw [BitVec.toNat_ofNat]
    omega
  obtain ⟨pre, post, rfl, hqpre⟩ := exists_of_mem_live hqn
  have hsub : (BitVec.ofNat 32 q - 4 : Word) =
      BitVec.ofNat 32 (H.start.toNat + span headerSize pre) := by
    refine BitVec.eq_of_toNat_eq ?_
    rw [BitVec.toNat_sub, hq]
    simp only [BitVec.toNat_ofNat, BitVec.ofNat_eq_ofNat]
    omega
  have hn : payloadSize s.mem (BitVec.ofNat 32 q) = n := by
    rw [payloadSize, hsub]
    exact (layout_append.1 h.layout).2.1
  rw [hq, hn]
  exact ⟨hqn, pre, post, rfl, hqpre, hsub⟩

/-! ### The invariant is kept -/

theorem init (H : HeapArea) (m : Mem) :
    KInv H ⟨kheapInit H m, []⟩ [⟨H.stop.toNat - H.start.toNat - headerSize, false⟩] := by
  have h4 := headerSize_eq
  have h1 := H.start_lt
  have h2 := H.start_mod
  have h3 := H.stop_mod
  have hv : (H.stop - H.start - 4).toNat = H.stop.toNat - H.start.toNat - headerSize := by
    rw [BitVec.toNat_sub, BitVec.toNat_sub]
    simp only [BitVec.toNat_ofNat, BitVec.ofNat_eq_ofNat]
    omega
  refine ⟨⟨?_, ?_, ?_⟩, by simp; omega, List.isChain_singleton _, by simp [BlockList.live]⟩
  · rw [BitVec.ofNat_toNat, BitVec.setWidth_eq, kheapInit, load32_store32, load32_store32,
      getSize_setFree, getSize_of_even (by omega), hv]
  · rw [BitVec.ofNat_toNat, BitVec.setWidth_eq, kheapInit, load32_store32, load32_store32,
      isUsed_setFree]
  · show H.start.toNat + headerSize + (H.stop.toNat - H.start.toNat - headerSize) = H.stop.toNat
    omega

/-- `kmalloc` on a heap in order: it returns, and what it returns. -/
theorem kmalloc_cases (h : KInv H s bs) (size : Word) :
    (kmalloc H size s.mem = some (null, s.mem) ∧
        ∀ c ∈ bs, c.used = true ∨ c.size < (align4 size).toNat) ∨
      ∃ pre b post m', bs = pre ++ b :: post ∧ b.used = false ∧
        (align4 size).toNat ≤ b.size ∧
        (∀ c ∈ pre, c.used = true ∨ c.size < (align4 size).toNat) ∧
        kmalloc H size s.mem = some
          (BitVec.ofNat 32 (H.start.toNat + span headerSize pre + headerSize), m') ∧
        Layout m' H.start.toNat (pre ++ place headerSize (align4 size).toNat
          (decide ((align4 size).toNat + 8 ≤ b.size)) b ++ post) H.stop.toNat ∧
        ∀ x : Word, (x.toNat < H.start.toNat + span headerSize pre ∨
          H.start.toNat + span headerSize pre + headerSize + b.size ≤ x.toNat) →
            x.toNat < H.stop.toNat → m' x = s.mem x := by
  have := kmallocLoop_spec h.layout H.stop.isLt H.stop_mod h.sizes (align4_mod size) h.fuel_le
  rwa [BitVec.ofNat_toNat, BitVec.setWidth_eq, BitVec.ofNat_toNat, BitVec.setWidth_eq] at this

theorem malloc (h : KInv H s bs) {size : Word} {p : Ptr} {m : Mem}
    (hk : kmalloc H size s.mem = some (p, m)) :
    ∃ bs', KInv H ⟨m, if p = null then s.live else p :: s.live⟩ bs' := by
  have h4 := headerSize_eq
  rcases h.kmalloc_cases size with ⟨hrun, -⟩ |
    ⟨pre, b, post, m', rfl, hfree, hle, -, hrun, hlay, -⟩
  · rw [hrun] at hk
    obtain ⟨rfl, rfl⟩ := Prod.mk.inj (Option.some.inj hk)
    exact ⟨bs, by simpa using h⟩
  · rw [hrun] at hk
    obtain ⟨rfl, rfl⟩ := Prod.mk.inj (Option.some.inj hk)
    have hspan := h.layout.span_eq
    rw [span_append, span] at hspan
    have htop := H.stop.isLt
    have hnull : (BitVec.ofNat 32 (H.start.toNat + span headerSize pre + headerSize) : Ptr)
        ≠ null := by
      intro h0
      have := congrArg BitVec.toNat h0
      simp only [null, BitVec.toNat_ofNat, BitVec.ofNat_eq_ofNat] at this
      omega
    have hroom : decide ((align4 size).toNat + 8 ≤ b.size) = true →
        (align4 size).toNat + headerSize ≤ b.size := by
      rw [decide_eq_true_iff]
      omega
    obtain ⟨n, hnew, hold⟩ := live_place H.start.toNat pre post hroom hfree
    refine ⟨_, hlay, ?_, h.adj.place hfree, ?_⟩
    · intro c hc
      rw [List.append_assoc, List.mem_append, List.mem_append] at hc
      rcases hc with hc | hc | hc
      · exact h.sizes c (by simp [hc])
      · have hb := h.sizes b (by simp)
        have hal := align4_mod size
        rw [BlockList.place] at hc
        split at hc
        · rename_i hsplit
          have := hroom hsplit
          simp only [List.mem_cons, List.not_mem_nil, or_false] at hc
          rcases hc with rfl | rfl <;> simp only <;> omega
        · simp only [List.mem_cons, List.not_mem_nil, or_false] at hc
          rw [hc]
          exact hb
      · exact h.sizes c (by simp [hc])
    · rw [if_neg hnull, hnew, List.map_append, List.map_cons]
      refine (List.Perm.cons _ ?_).trans List.perm_middle.symm
      rw [← List.map_append, ← hold]
      exact h.perm

/-- **`kfree` begins** by clearing the flag of the block, and the traversal runs on the layout with
that block free. -/
theorem release (h : KInv H s bs) {p : Ptr} (hp : p ∈ s.live) :
    ∃ pre post, bs = pre ++ ⟨payloadSize s.mem p, true⟩ :: post ∧ p ≠ null ∧
      p.toNat = H.start.toNat + span headerSize pre + headerSize ∧
      p - 4 = BitVec.ofNat 32 (H.start.toNat + span headerSize pre) ∧
      Layout (store32 s.mem (p - 4) (setFree (load32 s.mem (p - 4)))) H.start.toNat
        (pre ++ ⟨payloadSize s.mem p, false⟩ :: post) H.stop.toNat ∧
      (∀ c ∈ pre ++ (⟨payloadSize s.mem p, false⟩ : Block) :: post, 4 ∣ c.size) ∧
      (pre ++ (⟨payloadSize s.mem p, false⟩ : Block) :: post).length < 2 ^ 32 := by
  obtain ⟨hpl, pre, post, rfl, hpn, hblock⟩ := h.exists_block hp
  have hpb := live_bounds hpl
  have h4 := headerSize_eq
  have hp0 : p ≠ null := by
    rintro rfl
    simp only [null, BitVec.toNat_ofNat, BitVec.ofNat_eq_ofNat] at hpb
    omega
  have hlay := Layout.setHeader (v := setFree (load32 s.mem (p - 4))) (u := false) h.layout
    H.stop.isLt (by rw [getSize_setFree]; rfl) isUsed_setFree
  rw [← hblock] at hlay
  refine ⟨pre, post, rfl, hp0, hpn, hblock, hlay, fun c hc => ?_, ?_⟩
  · rcases List.mem_append.1 hc with hc | hc
    · exact h.sizes c (by simp [hc])
    · rcases List.mem_cons.1 hc with rfl | hc
      · exact h.sizes ⟨payloadSize s.mem p, true⟩ (by simp)
      · exact h.sizes c (by simp [hc])
  · simpa using h.fuel_le

/-- `kfree` of a live pointer: it returns, what stays live, and which bytes stay as they are. -/
theorem kfree_spec (h : KInv H s bs) {p : Ptr} (hp : p ∈ s.live) :
    ∃ m' bs', kfree H p s.mem = some m' ∧ KInv H ⟨m', s.live.erase p⟩ bs' ∧
      BlockList.live headerSize H.start.toNat bs' =
        (BlockList.live headerSize H.start.toNat bs).filter (fun r => r.1 ≠ p.toNat) ∧
      ∀ q ∈ s.live, q ≠ p → ∀ x, InPayload s.mem q x → m' x = s.mem x := by
  have h4 := headerSize_eq
  have htop := H.stop.isLt
  obtain ⟨pre, post, rfl, hp0, hpn, hblock, hlay, hsz, hfuel⟩ := h.release hp
  set n := payloadSize s.mem p with hn
  obtain ⟨hfree, hused⟩ := live_release headerSize H.start.toNat n pre post
  have hfilter := live_release_filter (a := H.start.toNat) (Nat.succ_pos 3) pre post n
  have hperm : (s.live.erase p).Perm ((BlockList.live headerSize H.start.toNat
      (pre ++ ⟨n, false⟩ :: post)).map fun r => BitVec.ofNat 32 r.1) := by
    have hpo : p = BitVec.ofNat 32 (H.start.toNat + span headerSize pre + headerSize) := by
      rw [← hpn, BitVec.ofNat_toNat, BitVec.setWidth_eq]
    have hall := h.perm
    rw [hused, List.map_append, List.map_cons, ← hpo] at hall
    have := (hall.trans List.perm_middle).erase p
    rwa [List.erase_cons_head, ← List.map_append, ← hfree] at this
  have hne : pre ++ (⟨n, false⟩ : Block) :: post ≠ [] := by simp
  generalize hbs : pre ++ (⟨n, false⟩ : Block) :: post = bs at hlay hne hsz hfuel hperm hfree hfilter
  cases bs with
  | nil => exact absurd rfl hne
  | cons b bs =>
    obtain ⟨m', hrun, hlay', hframe⟩ := kfreeLoop_spec (2 ^ 32) hlay htop hsz
      (by rw [List.length_cons] at hfuel; omega)
    rw [BitVec.ofNat_toNat, BitVec.setWidth_eq, BitVec.ofNat_toNat, BitVec.setWidth_eq] at hrun
    refine ⟨m', _, by rw [kfree, if_neg hp0]; exact hrun,
      ⟨hlay', dvd_coalesce ⟨1, rfl⟩ hsz, noAdjFree_coalesce, by rwa [live_coalesce]⟩, ?_, ?_⟩
    · rw [live_coalesce, hpn]
      exact hfilter
    intro q hq hqp x hx
    obtain ⟨hql, -⟩ := h.exists_block hq
    have hqb := live_bounds hql
    rw [h.layout.span_eq] at hqb
    have hmem : (q.toNat, payloadSize s.mem q) ∈ BlockList.live headerSize H.start.toNat
        (b :: bs) := by
      rw [hused, List.mem_append, List.mem_cons] at hql
      rw [hfree, List.mem_append]
      rcases hql with hql | hql | hql
      · exact Or.inl hql
      · exact absurd (BitVec.eq_of_toNat_eq ((Prod.mk.inj hql).1.trans hpn.symm)) hqp
      · exact Or.inr hql
    rw [hframe x (Or.inr (Or.inr ⟨_, _, hmem, hx.1, hx.2⟩)), hblock]
    rw [← hbs] at hmem
    exact store32_ofNat_apart (by omega) (live_header_apart hmem hx.1 hx.2)

/-- `kmalloc` writes no byte of a live payload: what it writes lies in the free block it takes. -/
theorem malloc_frame (h : KInv H s bs) {size : Word} {p : Ptr} {m : Mem}
    (hk : kmalloc H size s.mem = some (p, m)) {q : Ptr} (hq : q ∈ s.live) {x : Word}
    (hx : InPayload s.mem q x) : m x = s.mem x := by
  have h4 := headerSize_eq
  obtain ⟨hql, -⟩ := h.exists_block hq
  have hqb := live_bounds hql
  rw [h.layout.span_eq] at hqb
  obtain ⟨hx1, hx2⟩ := hx
  rcases h.kmalloc_cases size with ⟨hrun, -⟩ |
    ⟨pre, b, post, m', rfl, hfree, -, -, hrun, -, hframe⟩ <;> rw [hrun] at hk <;>
    obtain ⟨rfl, rfl⟩ := Prod.mk.inj (Option.some.inj hk)
  · rfl
  · refine hframe x ?_ (by omega)
    rw [live_append, List.mem_append, live, if_neg (by simp [hfree])] at hql
    rcases hql with hql | hql
    · have := live_bounds hql
      omega
    · have := live_bounds hql
      omega

/-- A write into a live payload touches no header. -/
theorem write (h : KInv H s bs) {p x : Word} {v : Byte} (hp : p ∈ s.live)
    (hx : InPayload s.mem p x) : KInv H ⟨store8 s.mem x v, s.live⟩ bs := by
  have h4 := headerSize_eq
  have htop := H.stop.isLt
  obtain ⟨hpl, pre, post, hbs, hpn, -⟩ := h.exists_block hp
  obtain ⟨hx1, hx2⟩ := hx
  have hsame : ∀ y : Word, y.toNat ≠ x.toNat → store8 s.mem x v y = s.mem y :=
    fun y hy => if_neg fun hyx => hy (congrArg BitVec.toNat hyx)
  refine ⟨?_, h.sizes, h.adj, h.perm⟩
  have hlay := h.layout
  have hspan := hlay.span_eq
  rw [hbs] at hlay hspan
  rw [span_append, span] at hspan
  generalize payloadSize s.mem p = n at hx2 hbs hlay hspan
  obtain ⟨hpre, hb, hu, hpost⟩ := layout_append.1 hlay
  have hhead : load32 (store8 s.mem x v) (BitVec.ofNat 32 (H.start.toNat + span headerSize pre)) =
      load32 s.mem (BitVec.ofNat 32 (H.start.toNat + span headerSize pre)) := by
    refine load32_store8_of_apart ?_
    rw [BitVec.toNat_sub, BitVec.toNat_ofNat]
    omega
  have hpre' : Layout (store8 s.mem x v) H.start.toNat pre
      (H.start.toNat + span headerSize pre) :=
    hpre.congr (by omega) fun y _ hy => hsame y (by omega)
  have hpost' : Layout (store8 s.mem x v) (H.start.toNat + span headerSize pre + headerSize + n)
      post H.stop.toNat :=
    hpost.congr htop fun y hy _ => hsame y (by simp only at hy; omega)
  rw [hbs]
  refine layout_append.2 ⟨hpre', ?_, ?_, hpost'⟩
  · rw [hhead]
    exact hb
  · rw [hhead]
    exact hu

end KInv

/-- **Every reachable heap is in order.** -/
theorem KReach.inv {H : HeapArea} {s : KState} (h : KReach H s) : ∃ bs, KInv H s bs := by
  induction h with
  | init m => exact ⟨_, KInv.init H m⟩
  | malloc size _ hk ih =>
    obtain ⟨bs, hbs⟩ := ih
    exact hbs.malloc hk
  | free _ hp hk ih =>
    obtain ⟨bs, hbs⟩ := ih
    obtain ⟨m', bs', hrun, hinv, -⟩ := hbs.kfree_spec hp
    rw [hrun] at hk
    obtain rfl := Option.some.inj hk
    exact ⟨bs', hinv⟩
  | write v _ hp hx ih =>
    obtain ⟨bs, hbs⟩ := ih
    exact ⟨bs, hbs.write hp hx⟩

/-! ## What clients may rely on -/

/-- **The kernel heap keeps its shape.**  In every reachable state the headers lay the heap out
exactly, in blocks of word-multiple sizes of which no two neighbours are free; the used ones are
the live allocations; the next `kmalloc` or `kfree` returns; and with nothing live the heap is the
one free block `kheap_init` made. -/
theorem kheap_invariant (H : HeapArea) (s : KState) (h : KReach H s) :
    ∃ bs : List Block,
      Layout s.mem H.start.toNat bs H.stop.toNat ∧
      (∀ b ∈ bs, 4 ∣ b.size) ∧
      NoAdjFree bs ∧
      (s.live.Nodup ∧ ∀ p, p ∈ s.live ↔ ∃ pre n post, bs = pre ++ ⟨n, true⟩ :: post ∧
        p.toNat = H.start.toNat + span headerSize pre + headerSize) ∧
      (∀ size, (kmalloc H size s.mem).isSome) ∧
      (∀ p ∈ s.live, (kfree H p s.mem).isSome) ∧
      (s.live = [] → bs = [⟨H.stop.toNat - H.start.toNat - headerSize, false⟩]) := by
  obtain ⟨bs, hinv⟩ := h.inv
  have h4 := headerSize_eq
  have htop := H.stop.isLt
  have hspan := hinv.layout.span_eq
  refine ⟨bs, hinv.layout, hinv.sizes, hinv.adj, ⟨?_, fun p => ⟨fun hp => ?_, ?_⟩⟩, fun size => ?_,
    fun p hp => ?_, fun hnil => ?_⟩
  · refine hinv.perm.nodup_iff.2 (List.Pairwise.map _ (fun x y hxy => hxy)
      (live_pairwise.imp_of_mem fun {x y} hx hy hxy => ?_))
    have hx' := live_bounds (q := x.1) (n := x.2) hx
    have hy' := live_bounds (q := y.1) (n := y.2) hy
    intro heq
    have := congrArg BitVec.toNat heq
    simp only [BitVec.toNat_ofNat] at this
    omega
  · obtain ⟨hpl, -⟩ := hinv.exists_block hp
    obtain ⟨pre, post, hbs, hq⟩ := exists_of_mem_live hpl
    exact ⟨pre, _, post, hbs, hq⟩
  · rintro ⟨pre, n, post, rfl, hp⟩
    refine hinv.perm.mem_iff.2 (List.mem_map.2 ⟨(p.toNat, n), ?_, ?_⟩)
    · rw [(live_release headerSize H.start.toNat n pre post).2, hp]
      simp
    · exact BitVec.eq_of_toNat_eq (by simp)
  · rcases hinv.kmalloc_cases size with ⟨hrun, -⟩ | ⟨_, _, _, _, _, _, _, _, hrun, _⟩ <;>
      rw [hrun] <;> rfl
  · obtain ⟨m', -, hrun, -⟩ := hinv.kfree_spec hp
    rw [hrun]
    rfl
  · have hlive : BlockList.live headerSize H.start.toNat bs = [] := by
      have := hinv.perm
      rw [hnil] at this
      exact List.map_eq_nil_iff.1 this.nil_eq.symm
    have hne : bs ≠ [] := by
      rintro rfl
      have := H.start_lt
      rw [span] at hspan
      omega
    obtain ⟨n, rfl⟩ := eq_singleton_of_live_nil hinv.adj hlive hne
    simp only [span] at hspan
    rw [show n = H.stop.toNat - H.start.toNat - headerSize by omega]

/-- **Live allocations are isolated.**  Their payloads lie inside the heap and do not overlap, and
neither `kmalloc` nor `kfree` of another pointer changes a byte of them. -/
theorem kheap_live_isolated (H : HeapArea) (s : KState) (h : KReach H s) :
    (∀ p ∈ s.live, H.start.toNat + 4 ≤ p.toNat ∧
      p.toNat + payloadSize s.mem p ≤ H.stop.toNat) ∧
    (∀ p ∈ s.live, ∀ q ∈ s.live, p ≠ q → ∀ x, ¬ (InPayload s.mem p x ∧ InPayload s.mem q x)) ∧
    (∀ size r m, kmalloc H size s.mem = some (r, m) →
      ∀ p ∈ s.live, ∀ x, InPayload s.mem p x → m x = s.mem x) ∧
    (∀ q ∈ s.live, ∀ m, kfree H q s.mem = some m →
      ∀ p ∈ s.live, p ≠ q → ∀ x, InPayload s.mem p x → m x = s.mem x) := by
  obtain ⟨bs, hinv⟩ := h.inv
  refine ⟨fun p hp => ?_, fun p hp q hq hpq x hx => ?_, fun size r m hk p hp x hx => ?_,
    fun q hq m hk p hp hpq x hx => ?_⟩
  · have := live_bounds (hinv.exists_block hp).1
    rwa [hinv.layout.span_eq] at this
  · have hpl := (hinv.exists_block hp).1
    have hql := (hinv.exists_block hq).1
    obtain ⟨⟨hx1, hx2⟩, hx3, hx4⟩ := hx
    have hne : (p.toNat, payloadSize s.mem p) ≠ (q.toNat, payloadSize s.mem q) :=
      fun heq => hpq (BitVec.eq_of_toNat_eq (Prod.mk.inj heq).1)
    rcases live_disjoint hpl hql hne with hle | hle <;> simp only at hle <;> omega
  · exact hinv.malloc_frame hk hp hx
  · obtain ⟨m', -, hrun, -, -, hframe⟩ := hinv.kfree_spec hq
    rw [hrun] at hk
    obtain rfl := Option.some.inj hk
    exact hframe p hp hpq x hx

/-! ### A heap of one page

The state after `kmalloc(16)`, `kmalloc(10)`, `kmalloc(0)` and a `kfree` of the first. -/

/-- The heap `[0x1000, 0x2000)`. -/
def pageHeap : HeapArea := ⟨0x1000, 0x2000, by decide, by decide, by decide⟩

/-- The first allocation. -/
def pageFirst : Ptr × Mem :=
  (kmalloc pageHeap 16 (kheapInit pageHeap fun _ => 0)).get (by decide +kernel)

/-- The second allocation. -/
def pageSecond : Ptr × Mem := (kmalloc pageHeap 10 pageFirst.2).get (by decide +kernel)

/-- The third allocation. -/
def pageThird : Ptr × Mem := (kmalloc pageHeap 0 pageSecond.2).get (by decide +kernel)

/-- The state with the second and the third allocation live. -/
def pageState : KState :=
  ⟨(kfree pageHeap 0x1004 pageThird.2).get (by decide +kernel), [0x1028, 0x1018]⟩

theorem pageState_reach : KReach pageHeap pageState := by
  have e1 : kmalloc pageHeap 16 (kheapInit pageHeap fun _ => 0) = some (0x1004, pageFirst.2) := by
    rw [← show pageFirst.1 = 0x1004 by decide +kernel]
    exact (Option.some_get (by decide +kernel)).symm
  have e2 : kmalloc pageHeap 10 pageFirst.2 = some (0x1018, pageSecond.2) := by
    rw [← show pageSecond.1 = 0x1018 by decide +kernel]
    exact (Option.some_get (by decide +kernel)).symm
  have e3 : kmalloc pageHeap 0 pageSecond.2 = some (0x1028, pageThird.2) := by
    rw [← show pageThird.1 = 0x1028 by decide +kernel]
    exact (Option.some_get (by decide +kernel)).symm
  have e4 : kfree pageHeap 0x1004 pageThird.2 = some pageState.mem :=
    (Option.some_get (by decide +kernel)).symm
  exact (((KReach.init fun _ => 0).malloc 16 e1).malloc 10 e2 |>.malloc 0 e3).free (by decide) e4

/-- In that state the next `kmalloc` returns, and so does `kfree` of the second allocation. -/
theorem kheap_invariant_pageState :
    (kmalloc pageHeap 4 pageState.mem).isSome ∧ (kfree pageHeap 0x1018 pageState.mem).isSome := by
  obtain ⟨-, -, -, -, -, hm, hf, -⟩ := kheap_invariant pageHeap pageState pageState_reach
  exact ⟨hm 4, hf 0x1018 (by decide +kernel)⟩

/-- In that state freeing the zero-sized third allocation does not touch the second. -/
theorem kheap_live_isolated_pageState :
    payloadSize pageState.mem 0x1018 = 12 ∧
      ∀ m, kfree pageHeap 0x1028 pageState.mem = some m →
        ∀ x, InPayload pageState.mem 0x1018 x → m x = pageState.mem x := by
  obtain ⟨-, -, -, h⟩ := kheap_live_isolated pageHeap pageState pageState_reach
  exact ⟨by decide +kernel,
    fun m hm => h 0x1028 (by decide +kernel) m hm 0x1018 (by decide +kernel) (by decide)⟩

end RiscyOS
