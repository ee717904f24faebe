import RiscyOS.Memory.KmemRuns

/-!
# First fit, and the order of frees

What the block list of `RiscyOS.Memory.KmemRuns` says about a caller's view of the kernel heap.

* `kmalloc_first_fit` — which block a request gets, and what is left of it.
* `kmalloc_large_enough_iff` — whether that block is as large as the request.  The size is rounded up
  with `ALIGN4` before it is compared with anything, and for the three largest sizes of all that wraps
  to zero.  Such a request is granted the first free block, whatever its size.
* `kfree_order` — the order of frees is forgotten.  A heap without free neighbours is determined by its
  live ranges (`NoAdjFree.eq_of_live`), and these do not depend on the order; so the block lists are
  equal, and from equal block lists everything later goes the same way (`KInv.run`).
-/

set_option autoImplicit false

namespace RiscyOS

open Memory BlockList

/-! ## One list for one memory -/

/-- The headers of a memory lay it out in one way. -/
theorem Layout.unique {m : Mem} {a e : Nat} {bs cs : List Block} (h : Layout m a bs e)
    (h' : Layout m a cs e) : bs = cs := by
  have h4 := headerSize_eq
  induction bs generalizing a cs with
  | nil =>
    have hspan := h'.span_eq
    obtain rfl : a = e := h
    rcases cs with _ | ⟨c, cs⟩
    · rfl
    · rw [span] at hspan
      omega
  | cons b bs ih =>
    rcases cs with _ | ⟨c, cs⟩
    · have hspan := h.span_eq
      obtain rfl : a = e := h'
      rw [span] at hspan
      omega
    obtain ⟨hsize, hused, hrest⟩ := h
    obtain ⟨hsize', hused', hrest'⟩ := h'
    obtain rfl : b = c := by
      obtain ⟨n, u⟩ := b
      obtain ⟨k, v⟩ := c
      rw [Block.mk.injEq]
      exact ⟨hsize.symm.trans hsize', hused.symm.trans hused'⟩
    rw [ih hrest hrest']

/-- A list is split in one way at its first element of a kind. -/
theorem split_unique {α : Type*} {P : α → Prop} {pre pre' post post' : List α} {b b' : α}
    (h : pre ++ b :: post = pre' ++ b' :: post') (hb : P b) (hb' : P b') (hpre : ∀ c ∈ pre, ¬ P c)
    (hpre' : ∀ c ∈ pre', ¬ P c) : pre = pre' ∧ b = b' ∧ post = post' := by
  induction pre generalizing pre' with
  | nil =>
    rcases pre' with _ | ⟨c, pre'⟩
    · exact ⟨rfl, List.cons.inj h⟩
    · obtain rfl := (List.cons.inj h).1
      exact absurd hb (hpre' b List.mem_cons_self)
  | cons d pre ih =>
    rcases pre' with _ | ⟨c, pre'⟩
    · obtain rfl := (List.cons.inj h).1
      exact absurd hb' (hpre d List.mem_cons_self)
    · obtain ⟨rfl, htail⟩ := List.cons.inj h
      obtain ⟨rfl, hrest⟩ := ih htail (fun c hc => hpre c (List.mem_cons_of_mem _ hc))
        fun c hc => hpre' c (List.mem_cons_of_mem _ hc)
      exact ⟨rfl, hrest⟩

/-! ## Which block a request gets -/

/-- Up to `2 ^ 32 - 4` the size is rounded up. -/
theorem align4_of_le {size : Word} (h : size.toNat ≤ 2 ^ 32 - 4) :
    (align4 size).toNat = (size.toNat + 3) / 4 * 4 := by
  rw [align4_toNat, BitVec.toNat_add]
  simp only [BitVec.toNat_ofNat, BitVec.ofNat_eq_ofNat]
  omega

/-- Beyond that it wraps. -/
theorem align4_of_lt {size : Word} (h : 2 ^ 32 - 4 < size.toNat) : (align4 size).toNat = 0 := by
  have hlt := size.isLt
  rw [align4_toNat, BitVec.toNat_add]
  simp only [BitVec.toNat_ofNat, BitVec.ofNat_eq_ofNat]
  omega

/-- `b` is free and has `n` bytes. -/
def Suits (n : Nat) (b : Block) : Prop := b.used = false ∧ n ≤ b.size

theorem not_suits_iff {n : Nat} {b : Block} : ¬ Suits n b ↔ b.used = true ∨ b.size < n := by
  rw [Suits, not_and_or, Bool.not_eq_false, Nat.not_le]

/-- A pointer into the heap is not null. -/
theorem KInv.payload_toNat {H : HeapArea} {s : KState} {pre post : List Block} {b : Block}
    (h : KInv H s (pre ++ b :: post)) :
    (BitVec.ofNat 32 (H.start.toNat + span headerSize pre + headerSize) : Ptr).toNat =
        H.start.toNat + span headerSize pre + headerSize ∧
      (BitVec.ofNat 32 (H.start.toNat + span headerSize pre + headerSize) : Ptr) ≠ null := by
  have h4 := headerSize_eq
  have htop := H.stop.isLt
  have hspan := h.layout.span_eq
  rw [span_append, span] at hspan
  have hval : (BitVec.ofNat 32 (H.start.toNat + span headerSize pre + headerSize) : Ptr).toNat =
      H.start.toNat + span headerSize pre + headerSize := by
    rw [BitVec.toNat_ofNat]
    omega
  refine ⟨hval, fun h0 => ?_⟩
  rw [h0] at hval
  simp only [null, BitVec.toNat_ofNat, BitVec.ofNat_eq_ofNat] at hval
  omega

/-- What a request leaves of the block it gets: the request's own, and the rest if there is room for
another header and four bytes. -/
theorem place_cases {n : Nat} {b : Block} (hn : 4 ∣ n) (hb : 4 ∣ b.size) (hle : n ≤ b.size) :
    ∃ k rest, place headerSize n (decide (n + 8 ≤ b.size)) b = ⟨k, true⟩ :: rest ∧
      (k = n ∨ k = n + 4) ∧
      (rest = [] ∧ k = b.size ∨
        ∃ j, rest = [⟨j, false⟩] ∧ k = n ∧ n + headerSize + j = b.size) := by
  have h4 := headerSize_eq
  by_cases hsplit : n + 8 ≤ b.size
  · refine ⟨n, [⟨b.size - n - headerSize, false⟩], ?_, Or.inl rfl, Or.inr ⟨_, rfl, rfl, by omega⟩⟩
    rw [place, if_pos (decide_eq_true hsplit)]
  · refine ⟨b.size, [], ?_, by omega, Or.inl ⟨rfl, rfl⟩⟩
    rw [place, if_neg (by simpa using hsplit)]

/-- **First fit.**  In every reachable heap, a request of at most `2 ^ 32 - 4` bytes, rounded up to a
multiple of four, returns null exactly when no free block is that large, and then nothing has changed.
Otherwise it gets the first one that is.  The payload handed out has that many bytes or four more, and
what is left beyond it is one free block behind it. -/
theorem kmalloc_first_fit (H : HeapArea) (s : KState) (h : KReach H s) (size : Word)
    (hsize : size.toNat ≤ 2 ^ 32 - 4) :
    ∃ bs p m, Layout s.mem H.start.toNat bs H.stop.toNat ∧ kmalloc H size s.mem = some (p, m) ∧
      (p = null ↔ ∀ b ∈ bs, b.used = false → b.size < (size.toNat + 3) / 4 * 4) ∧
      (p = null → m = s.mem) ∧
      (p ≠ null → ∃ pre b post k rest, bs = pre ++ b :: post ∧
        b.used = false ∧ (size.toNat + 3) / 4 * 4 ≤ b.size ∧
        (∀ c ∈ pre, c.used = false → c.size < (size.toNat + 3) / 4 * 4) ∧
        p.toNat = H.start.toNat + span headerSize pre + headerSize ∧
        Layout m H.start.toNat (pre ++ ⟨k, true⟩ :: (rest ++ post)) H.stop.toNat ∧
        (k = (size.toNat + 3) / 4 * 4 ∨ k = (size.toNat + 3) / 4 * 4 + 4) ∧
        (rest = [] ∧ k = b.size ∨ ∃ j, rest = [⟨j, false⟩] ∧ k = (size.toNat + 3) / 4 * 4 ∧
          k + headerSize + j = b.size)) := by
  obtain ⟨bs, hbs⟩ := h.inv
  have hcases := hbs.kmalloc_cases size
  rw [align4_of_le hsize] at hcases
  rcases hcases with ⟨hrun, hnone⟩ | ⟨pre, b, post, m, rfl, hfree, hle, hpre, hrun, hlay, -⟩
  · refine ⟨bs, null, s.mem, hbs.layout, hrun, ⟨fun _ b hb hfree => ?_, fun _ => rfl⟩, fun _ => rfl,
      fun hne => absurd rfl hne⟩
    exact (hnone b hb).resolve_left (by simp [hfree])
  · obtain ⟨hval, hne⟩ := hbs.payload_toNat
    obtain ⟨k, rest, hplace, hk, hrest⟩ := place_cases (b := b) ⟨_, Nat.mul_comm _ _⟩
      (hbs.sizes b (by simp)) hle
    rw [hplace, List.append_assoc, List.cons_append] at hlay
    refine ⟨_, _, m, hbs.layout, hrun, ⟨fun hnull => absurd hnull hne, fun hall => ?_⟩,
      fun hnull => absurd hnull hne, fun _ => ⟨pre, b, post, k, rest, rfl, hfree, hle, ?_, hval, hlay,
        hk, ?_⟩⟩
    · exact absurd (hall b (by simp) hfree) (Nat.not_lt.2 hle)
    · exact fun c hc hcfree => (hpre c hc).resolve_left (by simp [hcfree])
    · rcases hrest with hrest | ⟨j, hj, hkn, hsum⟩
      · exact Or.inl hrest
      · exact Or.inr ⟨j, hj, hkn, by rw [hkn]; exact hsum⟩

/-- Sixteen bytes on the heap of one page. -/
theorem kmalloc_first_fit_page : ∃ p m, kmalloc pageHeap 16 (kheapInit pageHeap fun _ => 0) = some (p, m) ∧
    (p = null → m = kheapInit pageHeap fun _ => 0) := by
  obtain ⟨-, p, m, -, hrun, -, hnull, -⟩ := kmalloc_first_fit pageHeap _ (.init fun _ => 0) 16 (by decide)
  exact ⟨p, m, hrun, hnull⟩

/-! ## Whether it is large enough -/

/-- The heap has a free block. -/
def HasFreeBlock (H : HeapArea) (m : Mem) : Prop :=
  ∃ bs, Layout m H.start.toNat bs H.stop.toNat ∧ ∃ b ∈ bs, b.used = false

/-- **A block as large as the request** is what a caller gets, exactly when the size can be rounded up
in 32 bits or there is nothing to get. -/
theorem kmalloc_large_enough_iff (H : HeapArea) (s : KState) (h : KReach H s) (size : Word) :
    (∀ p m, kmalloc H size s.mem = some (p, m) → p ≠ null → size.toNat ≤ payloadSize m p) ↔
      size.toNat ≤ 2 ^ 32 - 4 ∨ ¬ HasFreeBlock H s.mem := by
  obtain ⟨bs, hbs⟩ := h.inv
  have h4 := headerSize_eq
  have hfreeBlock : HasFreeBlock H s.mem ↔ ∃ b ∈ bs, b.used = false := by
    constructor
    · rintro ⟨cs, hcs, hfree⟩
      rwa [← hcs.unique hbs.layout]
    · exact fun hfree => ⟨bs, hbs.layout, hfree⟩
  rcases hbs.kmalloc_cases size with ⟨hrun, hnone⟩ |
    ⟨pre, b, post, m, rfl, hfree, hle, hpre, hrun, hlay, -⟩
  · refine iff_of_true (fun p m hk hne => ?_) ?_
    · rw [hrun] at hk
      exact absurd (Prod.mk.inj (Option.some.inj hk)).1.symm hne
    · by_cases hsize : size.toNat ≤ 2 ^ 32 - 4
      · exact Or.inl hsize
      · -- the request is for nothing, so it failed for want of any free block
        refine Or.inr fun hex => ?_
        obtain ⟨b, hb, hfree⟩ := hfreeBlock.1 hex
        rcases hnone b hb with hused | hlt
        · rw [hfree] at hused
          exact absurd hused (by decide)
        · rw [align4_of_lt (Nat.not_le.1 hsize)] at hlt
          exact Nat.not_lt_zero _ hlt
  · obtain ⟨hval, hne⟩ := hbs.payload_toNat
    obtain ⟨k, rest, hplace, hk, hrest⟩ := place_cases (b := b)
      (Nat.dvd_of_mod_eq_zero (align4_mod size)) (hbs.sizes b (by simp)) hle
    rw [hplace, List.append_assoc, List.cons_append] at hlay
    have hpayload : payloadSize m (BitVec.ofNat 32 (H.start.toNat + span headerSize pre + headerSize)) =
        k := by
      rw [payloadSize, show (BitVec.ofNat 32 (H.start.toNat + span headerSize pre + headerSize) - 4 :
        Word) = BitVec.ofNat 32 (H.start.toNat + span headerSize pre) by
          rw [BitVec.ofNat_add]; exact BitVec.add_sub_cancel _ _]
      exact (layout_append.1 hlay).2.1
    constructor
    · intro hall
      have hbig := hall _ m hrun hne
      rw [hpayload] at hbig
      by_contra hno
      have hlt := Nat.not_le.1 (not_or.1 hno).1
      rw [align4_of_lt hlt] at hk
      omega
    · rintro hor p m' hk' -
      rw [hrun] at hk'
      obtain ⟨rfl, rfl⟩ := Prod.mk.inj (Option.some.inj hk')
      have hsize := hor.resolve_right (not_not.2 (hfreeBlock.2 ⟨b, by simp, hfree⟩))
      rw [align4_of_le hsize] at hk
      have hround : ∀ n : Nat, n ≤ (n + 3) / 4 * 4 := by omega
      rw [hpayload]
      refine (hround _).trans ?_
      rcases hk with hk | hk
      · exact hk.ge
      · exact (Nat.le_add_right _ 4).trans hk.ge

theorem pageHeap_sixteen : (kmalloc pageHeap 16 (kheapInit pageHeap fun _ => 0)).isSome := by decide +kernel

/-- Sixteen bytes, on the heap of one page. -/
def pageSixteen : Ptr × Mem := (kmalloc pageHeap 16 (kheapInit pageHeap fun _ => 0)).get pageHeap_sixteen

/-- They can be rounded up. -/
theorem kmalloc_large_enough_page :
    kmalloc pageHeap 16 (kheapInit pageHeap fun _ => 0) = some pageSixteen ∧
      16 ≤ payloadSize pageSixteen.2 pageSixteen.1 := by
  have hrun : kmalloc pageHeap 16 (kheapInit pageHeap fun _ => 0) = some pageSixteen :=
    (Option.some_get pageHeap_sixteen).symm
  exact ⟨hrun, (kmalloc_large_enough_iff pageHeap _ (.init fun _ => 0) 16).2 (Or.inl (by decide)) _ _
    hrun (by decide +kernel)⟩

/-- The largest request of all, on the heap of one page. -/
def pageLargest : Ptr × Mem :=
  (kmalloc pageHeap 0xFFFFFFFF (kheapInit pageHeap fun _ => 0)).get (by decide +kernel)

/-- It is granted a block of no bytes. -/
theorem kmalloc_grants_nothing : KReach pageHeap ⟨kheapInit pageHeap fun _ => 0, []⟩ ∧
    kmalloc pageHeap 0xFFFFFFFF (kheapInit pageHeap fun _ => 0) = some pageLargest ∧
      pageLargest.1 ≠ null ∧ payloadSize pageLargest.2 pageLargest.1 < (0xFFFFFFFF : Word).toNat :=
  ⟨.init _, (Option.some_get (by decide +kernel)).symm, by decide +kernel, by decide +kernel⟩

/-! ## The order of frees -/

/-- `kfree` of each of `ps` in turn. -/
def kfreeAll (H : HeapArea) : List Ptr → Mem → Option Mem
  | [], m => some m
  | p :: ps, m => (kfree H p m).bind (kfreeAll H ps)

/-- What may be done with the heap later on. -/
inductive KOp where
  | malloc (size : Word)
  | free (p : Ptr)

/-- The calls `ops`, with the pointers that `kmalloc` returns on the way.  Only a live pointer may be
given back. -/
def KState.run (H : HeapArea) : List KOp → KState → Option (List Ptr × KState)
  | [], s => some ([], s)
  | .malloc size :: ops, s => do
    let (p, m) ← kmalloc H size s.mem
    let (ps, t) ← KState.run H ops ⟨m, if p = null then s.live else p :: s.live⟩
    some (p :: ps, t)
  | .free p :: ops, s =>
    if p ∈ s.live then do
      let m ← kfree H p s.mem
      KState.run H ops ⟨m, s.live.erase p⟩
    else none

theorem map_fst_push (p : Ptr) (x : Option (List Ptr × KState)) :
    (x.bind fun r => some (p :: r.1, r.2)).map Prod.fst = (x.map Prod.fst).map (p :: ·) := by
  cases x <;> rfl

namespace KInv

variable {H : HeapArea} {s t : KState} {bs cs : List Block}

/-- The blocks of a heap in order are determined by what is live. -/
theorem blocks_unique (h : KInv H s bs) (h' : KInv H t cs)
    (hlive : BlockList.live headerSize H.start.toNat bs = BlockList.live headerSize H.start.toNat cs) :
    bs = cs := by
  have hheader : 0 < headerSize := by decide
  refine h.adj.eq_of_live hheader h'.adj hlive ?_
  have hspan := h.layout.span_eq
  have hspan' := h'.layout.span_eq
  omega

/-- **Any order of frees** ends, and what stays live are the ranges that were not among them. -/
theorem kfreeAll (h : KInv H s bs) {ps : List Ptr} (hnodup : ps.Nodup) (hsub : ∀ p ∈ ps, p ∈ s.live) :
    ∃ m cs, RiscyOS.kfreeAll H ps s.mem = some m ∧ KInv H ⟨m, s.live.diff ps⟩ cs ∧
      BlockList.live headerSize H.start.toNat cs =
        (BlockList.live headerSize H.start.toNat bs).filter fun r => ∀ p ∈ ps, r.1 ≠ p.toNat := by
  induction ps generalizing s bs with
  | nil => exact ⟨s.mem, bs, rfl, h, by simp⟩
  | cons p ps ih =>
    obtain ⟨hp, hnodup⟩ := List.nodup_cons.1 hnodup
    obtain ⟨hpl, hsub⟩ := List.forall_mem_cons.1 hsub
    obtain ⟨m, cs, hrun, hinv, hlive, -⟩ := h.kfree_spec hpl
    have hsub' : ∀ q ∈ ps, q ∈ s.live.erase p := by
      intro q hq
      refine (List.mem_erase_of_ne ?_).2 (hsub q hq)
      rintro rfl
      exact hp hq
    obtain ⟨m', ds, hrun', hinv', hlive'⟩ := ih hinv hnodup hsub'
    refine ⟨m', ds, ?_, ?_, ?_⟩
    · rw [RiscyOS.kfreeAll, hrun]
      exact hrun'
    · rw [List.diff_cons]
      exact hinv'
    · rw [hlive', hlive, List.filter_filter]
      refine List.filter_congr fun r _ => ?_
      simp only [List.forall_mem_cons, Bool.decide_and, Bool.and_comm]

/-- A request finds the same block in both, and leaves the same blocks. -/
theorem malloc_same (h : KInv H s bs) (h' : KInv H t bs) (size : Word) :
    ∃ p m m' cs, kmalloc H size s.mem = some (p, m) ∧ kmalloc H size t.mem = some (p, m') ∧
      KInv H ⟨m, if p = null then s.live else p :: s.live⟩ cs ∧
      KInv H ⟨m', if p = null then t.live else p :: t.live⟩ cs := by
  have hnot : ∀ {l : List Block}, (∀ c ∈ l, c.used = true ∨ c.size < (align4 size).toNat) →
      ∀ c ∈ l, ¬ Suits (align4 size).toNat c := fun hall c hc => not_suits_iff.2 (hall c hc)
  rcases h.kmalloc_cases size with ⟨hrun, hnone⟩ | ⟨pre, b, post, m, rfl, hfree, hle, hpre, hrun, hlay, -⟩
  · rcases h'.kmalloc_cases size with ⟨hrun', -⟩ | ⟨pre, b, post, m', rfl, hfree, hle, -⟩
    · exact ⟨null, s.mem, t.mem, bs, hrun, hrun', by simpa using h, by simpa using h'⟩
    · exact absurd ⟨hfree, hle⟩ (hnot hnone b (by simp))
  · rcases h'.kmalloc_cases size with ⟨-, hnone⟩ |
      ⟨pre', b', post', m', hsplit, hfree', hle', hpre', hrun', hlay', -⟩
    · exact absurd ⟨hfree, hle⟩ (hnot hnone b (by simp))
    · obtain ⟨rfl, rfl, rfl⟩ := split_unique (P := Suits (align4 size).toNat) hsplit ⟨hfree, hle⟩
        ⟨hfree', hle'⟩ (hnot hpre) (hnot hpre')
      obtain ⟨cs, hinv⟩ := h.malloc hrun
      obtain ⟨ds, hinv'⟩ := h'.malloc hrun'
      obtain rfl := hinv.layout.unique hlay
      obtain rfl := hinv'.layout.unique hlay'
      exact ⟨_, m, m', _, hrun, hrun', hinv, hinv'⟩

/-- **From equal block lists** every later `kmalloc` returns the same pointer. -/
theorem run (ops : List KOp) (h : KInv H s bs) (h' : KInv H t bs) (hlive : s.live = t.live) :
    (KState.run H ops s).map Prod.fst = (KState.run H ops t).map Prod.fst := by
  induction ops generalizing s t bs with
  | nil => rfl
  | cons op ops ih =>
    cases op with
    | malloc size =>
      obtain ⟨p, m, m', cs, hrun, hrun', hinv, hinv'⟩ := h.malloc_same h' size
      rw [KState.run, KState.run, hrun, hrun']
      simp only [Option.bind_eq_bind, Option.bind_some]
      rw [map_fst_push, map_fst_push, ih hinv hinv' (by rw [hlive])]
    | free p =>
      rw [KState.run, KState.run, hlive]
      by_cases hp : p ∈ t.live
      · obtain ⟨m, cs, hrun, hinv, hcs, -⟩ := h.kfree_spec (p := p) (by rwa [hlive])
        obtain ⟨m', ds, hrun', hinv', hds, -⟩ := h'.kfree_spec hp
        obtain rfl := hinv.blocks_unique hinv' (hcs.trans hds.symm)
        rw [if_pos hp, if_pos hp, hrun, hrun']
        rw [hlive] at hinv
        exact ih hinv hinv' rfl
      · rw [if_neg hp, if_neg hp]

end KInv

/-- **The order of frees does not matter.**  From any reachable heap, freeing the live allocations `ps`
in the order of `ps` or of `qs` leaves the same blocks, and whatever is done later, `kmalloc` returns
the same pointers in both. -/
theorem kfree_order (H : HeapArea) (s : KState) (h : KReach H s) (ps qs : List Ptr) (hnodup : ps.Nodup)
    (hsub : ∀ p ∈ ps, p ∈ s.live) (hperm : ps.Perm qs) :
    ∃ m m' bs, kfreeAll H ps s.mem = some m ∧ kfreeAll H qs s.mem = some m' ∧
      Layout m H.start.toNat bs H.stop.toNat ∧ Layout m' H.start.toNat bs H.stop.toNat ∧
      ∀ ops : List KOp, (KState.run H ops ⟨m, s.live.diff ps⟩).map Prod.fst =
        (KState.run H ops ⟨m', s.live.diff qs⟩).map Prod.fst := by
  obtain ⟨bs, hbs⟩ := h.inv
  obtain ⟨m, cs, hrun, hinv, hlive⟩ := hbs.kfreeAll hnodup hsub
  obtain ⟨m', ds, hrun', hinv', hlive'⟩ := hbs.kfreeAll (hperm.nodup_iff.1 hnodup)
    fun p hp => hsub p (hperm.mem_iff.2 hp)
  have hsame : (fun r : Nat × Nat => decide (∀ p ∈ ps, r.1 ≠ p.toNat)) =
      fun r => decide (∀ p ∈ qs, r.1 ≠ p.toNat) := by
    funext r
    simp only [hperm.mem_iff]
  rw [hsame] at hlive
  obtain rfl := hinv.blocks_unique hinv' (hlive.trans hlive'.symm)
  exact ⟨m, m', cs, hrun, hrun', hinv.layout, hinv'.layout, fun ops =>
    hinv.run ops hinv' (hperm.diff_left s.live)⟩

/-- The two live allocations of `pageState`, freed in both orders. -/
theorem kfree_order_pageState : ∃ m m', kfreeAll pageHeap [0x1028, 0x1018] pageState.mem = some m ∧
    kfreeAll pageHeap [0x1018, 0x1028] pageState.mem = some m' ∧
      ∀ ops, (KState.run pageHeap ops ⟨m, pageState.live.diff [0x1028, 0x1018]⟩).map Prod.fst =
        (KState.run pageHeap ops ⟨m', pageState.live.diff [0x1018, 0x1028]⟩).map Prod.fst := by
  obtain ⟨m, m', -, hm, hm', -, -, hops⟩ := kfree_order pageHeap pageState pageState_reach
    [0x1028, 0x1018] [0x1018, 0x1028] (by decide) (fun p hp => hp) (by decide)
  exact ⟨m, m', hm, hm', hops⟩

end RiscyOS
