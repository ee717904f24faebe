import RiscyOS.Memory.SlabSpec

/-!
# Histories of a slab cache

A state of the cache is its memory together with the objects that are live: returned by `slab_get`
and not given back since.  `SlabReach` is everything that can happen: one `slab_alloc_new`, calls of
`slab_get`, calls of `slab_free` on live objects, each with an allocator that may fail, and in
between anything that the rest of the kernel does to memory that is not the cache's own, the live
objects included.

The invariant is `CacheRepr` together with `LiveOk`: the live objects are those of the nodes that are
on no free list, each once.
-/

set_option autoImplicit false

namespace RiscyOS

open Memory Allocator

/-! ## The loops -/

section Loops

variable {c : SlabShape} {s : SlabState} {slabs : List Ptr} {free : Ptr → List Nat}

/-- There are fewer slabs than addresses. -/
theorem linked_length_lt {next : Ptr → Ptr} {p : Ptr} {l : List Ptr}
    (h : Linked next (· = null) p l) : l.length < 2 ^ 32 := by
  have hnull : null ∉ l := fun hmem => h.not_stop_of_mem hmem rfl
  exact length_le_of_nodup (List.nodup_cons.2 ⟨hnull, h.nodup⟩)

/-- **The loop of `slab_get`** finds a slab with a free node, if there is one. -/
theorem findFree_spec (hok : ∀ b ∈ slabs, SlabOk c s b (free b)) {l : List Ptr} (hl : l ⊆ slabs)
    {p : Ptr} (hlist : Linked (fun b => s.load (slabNext b)) (· = null) p l) {fuel : Nat}
    (hfuel : l.length < fuel) :
    (∃ b ∈ l, free b ≠ [] ∧ findFree s fuel p = some b) ∨
      ((∀ b ∈ l, free b = []) ∧ findFree s fuel p = some null) := by
  induction l generalizing p fuel with
  | nil =>
    obtain ⟨fuel, rfl⟩ := Nat.exists_eq_succ_of_ne_zero (Nat.ne_of_gt hfuel)
    exact Or.inr ⟨fun b hb => absurd hb List.not_mem_nil, by rw [findFree, if_pos (show p = null from hlist)]⟩
  | cons b l ih =>
    obtain ⟨fuel, rfl⟩ := Nat.exists_eq_succ_of_ne_zero (Nat.ne_of_gt (Nat.zero_lt_of_lt hfuel))
    obtain ⟨rfl, hp, hlist⟩ := hlist
    have hslab := hok p (hl List.mem_cons_self)
    have hle := hslab.length_le
    have hpos : 0 < s.load (slabFreeObjects p) ↔ free p ≠ [] := by
      have : c.num < 2 ^ 32 := c.totalObjects.isLt
      rw [hslab.freeObjects, BitVec.lt_def, BitVec.toNat_ofNat, Nat.mod_eq_of_lt (by omega),
        ← List.length_pos_iff]
      rfl
    rw [findFree, if_neg hp]
    by_cases hfree : free p = []
    · rw [if_neg fun h => hpos.1 h hfree]
      rcases ih (fun x hx => hl (List.mem_cons_of_mem p hx)) hlist (Nat.lt_of_succ_lt_succ hfuel)
        with ⟨b, hb, hne, heq⟩ | ⟨hall, heq⟩
      · exact Or.inl ⟨b, List.mem_cons_of_mem p hb, hne, heq⟩
      · refine Or.inr ⟨fun b hb => ?_, heq⟩
        rcases List.mem_cons.1 hb with rfl | hb
        · exact hfree
        · exact hall b hb
    · rw [if_pos (hpos.2 hfree)]
      exact Or.inl ⟨p, List.mem_cons_self, hfree, rfl⟩

/-- The address range that `slab_free` compares with. -/
theorem inRange_iff {b obj : Ptr} (hb : b.toNat + c.size < 2 ^ 32) :
    (b + slabHeaderSize ≤ obj ∧
      obj < b + slabHeaderSize + (4 + c.objectSize) * c.totalObjects) ↔
    b.toNat + 20 ≤ obj.toNat ∧ obj.toNat < b.toNat + c.size := by
  have hsize : 20 ≤ c.size := Nat.le_add_right _ _
  have hstart : (b + slabHeaderSize).toNat = b.toNat + 20 := by
    rw [BitVec.toNat_add]
    change (_ + 20) % 2 ^ 32 = _
    exact Nat.mod_eq_of_lt (by omega)
  have hstop : (b + slabHeaderSize + (4 + c.objectSize) * c.totalObjects).toNat =
      b.toNat + c.size := by
    rw [BitVec.add_assoc, BitVec.toNat_add]
    change (_ + c.sizeWord.toNat) % 2 ^ 32 = _
    rw [SlabShape.sizeWord_toNat]
    exact Nat.mod_eq_of_lt hb
  rw [BitVec.le_def, BitVec.lt_def, hstart, hstop]

/-- **The outer loop of `slab_free`** finds the slab of an object. -/
theorem findOwner_spec (h : CacheRepr c s slabs free) {b : Ptr} (hb : b ∈ slabs) {i : Nat}
    (hi : i < c.num) {l : List Ptr} (hl : l ⊆ slabs) (hbl : b ∈ l) {p : Ptr}
    (hlist : Linked (fun b => s.load (slabNext b)) (· = null) p l) {fuel : Nat}
    (hfuel : l.length < fuel) : findOwner s (c.object b i) fuel p = some b := by
  have hto := SlabShape.object_toNat (h.sep.lt b hb) hi
  have hle := c.nodeOff_le hi
  have hpos := c.objectSize_pos
  induction l generalizing p fuel with
  | nil => exact absurd hbl List.not_mem_nil
  | cons q l ih =>
    obtain ⟨fuel, rfl⟩ := Nat.exists_eq_succ_of_ne_zero (Nat.ne_of_gt (Nat.zero_lt_of_lt hfuel))
    obtain ⟨rfl, hp, hlist⟩ := hlist
    have hpmem : p ∈ slabs := hl List.mem_cons_self
    have hslab := h.ok p hpmem
    rw [findOwner, if_neg hp, hslab.objectSize, hslab.totalObjects]
    by_cases hpb : p = b
    · rw [if_pos ((inRange_iff (h.sep.lt p hpmem)).2 ?_), hpb]
      have := c.le_nodeOff i
      rw [hto, hpb]
      exact ⟨by omega, by omega⟩
    · rw [if_neg fun hin => ?_]
      · exact ih (fun x hx => hl (List.mem_cons_of_mem p hx))
          ((List.mem_cons.1 hbl).resolve_left fun h => hpb h.symm) hlist
          (Nat.lt_of_succ_lt_succ hfuel)
      · have hrange := (inRange_iff (h.sep.lt p hpmem)).1 hin
        rw [hto] at hrange
        rcases h.sep.apart p hpmem b hb hpb with h | h <;> simp only [SlabShape.block] at h <;> omega

/-- The inner loop of `slab_free` visits the slabs one after another. -/
theorem scanFree_eq {l : List Ptr} {p : Ptr}
    (hlist : Linked (fun b => s.load (slabNext b)) (· = null) p l) {fuel : Nat}
    (hfuel : l.length < fuel) (v : FreeScan) :
    scanFree s fuel p v = some (l.foldl (FreeScan.visit s) v) := by
  induction l generalizing p fuel v with
  | nil =>
    obtain ⟨fuel, rfl⟩ := Nat.exists_eq_succ_of_ne_zero (Nat.ne_of_gt hfuel)
    rw [scanFree, if_pos (show p = null from hlist)]
    rfl
  | cons q l ih =>
    obtain ⟨fuel, rfl⟩ := Nat.exists_eq_succ_of_ne_zero (Nat.ne_of_gt (Nat.zero_lt_of_lt hfuel))
    obtain ⟨rfl, hp, hlist⟩ := hlist
    rw [scanFree, if_neg hp, ih hlist (Nat.lt_of_succ_lt_succ hfuel)]
    rfl

/-- The number of slabs all of whose nodes are free. -/
def idleSlabs (c : SlabShape) (free : Ptr → List Nat) (slabs : List Ptr) : Nat :=
  slabs.countP fun b => (free b).length = c.num

/-- The inner loop counts them. -/
theorem foldl_visit_count (hok : ∀ b ∈ slabs, SlabOk c s b (free b)) (v : FreeScan) :
    (slabs.foldl (FreeScan.visit s) v).fullyFreeCount =
      v.fullyFreeCount + idleSlabs c free slabs := by
  induction slabs generalizing v with
  | nil => rfl
  | cons b l ih =>
    have hall : s.load (slabFreeObjects b) = s.load (slabTotalObjects b) ↔
        (free b).length = c.num := (hok b List.mem_cons_self).idle_iff
    rw [List.foldl_cons, ih fun x hx => hok x (List.mem_cons_of_mem b hx), idleSlabs, idleSlabs,
      List.countP_cons]
    by_cases hb : (free b).length = c.num
    · rw [FreeScan.visit, if_pos (hall.2 hb), if_pos (decide_eq_true hb)]
      exact (Nat.add_assoc _ _ _).trans (by rw [Nat.add_comm 1])
    · rw [FreeScan.visit, if_neg (mt hall.1 hb), if_neg (mt of_decide_eq_true hb)]
      rfl

/-- Where nobody has all nodes free but did before, no slab becomes idle. -/
theorem idleSlabs_mono {free' : Ptr → List Nat}
    (h : ∀ b ∈ slabs, (free' b).length = c.num → (free b).length = c.num) :
    idleSlabs c free' slabs ≤ idleSlabs c free slabs :=
  List.countP_mono_left fun b hb hidle => decide_eq_true (h b hb (of_decide_eq_true hidle))

/-- One slab makes a difference of one. -/
theorem idleSlabs_update_le (hnodup : slabs.Nodup) (b : Ptr) (fr : List Nat) :
    idleSlabs c (Function.update free b fr) slabs ≤ idleSlabs c free slabs + 1 := by
  induction slabs with
  | nil => exact Nat.zero_le _
  | cons x l ih =>
    obtain ⟨hx, hl⟩ := List.nodup_cons.1 hnodup
    rw [idleSlabs, idleSlabs, List.countP_cons, List.countP_cons]
    by_cases hxb : x = b
    · subst hxb
      have hsame : idleSlabs c (Function.update free x fr) l ≤ idleSlabs c free l := by
        refine idleSlabs_mono fun y hy hidle => ?_
        rwa [Function.update_of_ne fun heq : y = x => hx (heq ▸ hy)] at hidle
      rw [idleSlabs, idleSlabs] at hsame
      split <;> split <;> omega
    · have hle := ih hl
      rw [idleSlabs, idleSlabs] at hle
      rw [Function.update_of_ne hxb]
      omega

/-- **What the inner loop finds**: with two slabs or more that are all free, the target is such a
slab, and its predecessor is the slab before it. -/
theorem foldl_visit_spec (s : SlabState) (l : List Ptr) :
    (l.foldl (FreeScan.visit s) ⟨0, null, null, null⟩).prev = l.getLast?.getD null ∧
    (1 ≤ (l.foldl (FreeScan.visit s) ⟨0, null, null, null⟩).fullyFreeCount →
      ∃ l₁ l₂ t, l = l₁ ++ t :: l₂ ∧ s.load (slabFreeObjects t) = s.load (slabTotalObjects t) ∧
        (l.foldl (FreeScan.visit s) ⟨0, null, null, null⟩).freeTarget = t ∧
        (l.foldl (FreeScan.visit s) ⟨0, null, null, null⟩).freeTargetPrev =
          l₁.getLast?.getD null ∧
        (2 ≤ (l.foldl (FreeScan.visit s) ⟨0, null, null, null⟩).fullyFreeCount → l₁ ≠ [])) := by
  induction l using List.reverseRecOn with
  | nil => exact ⟨rfl, fun h => absurd h (Nat.not_succ_le_zero 0)⟩
  | append_singleton l x ih =>
    obtain ⟨hprev, hfound⟩ := ih
    rw [List.foldl_concat]
    generalize l.foldl (FreeScan.visit s) ⟨0, null, null, null⟩ = v at hprev hfound ⊢
    by_cases hx : s.load (slabFreeObjects x) = s.load (slabTotalObjects x)
    · rw [FreeScan.visit, if_pos hx]
      refine ⟨by simp, fun _ => ⟨l, [], x, rfl, hx, rfl, hprev, fun hcount hl => ?_⟩⟩
      -- the count was at least one already, so there was a slab before
      obtain ⟨l₁, l₂, t, heq, -⟩ := hfound (Nat.le_of_succ_le_succ hcount)
      exact absurd (heq.symm.trans hl) (by simp)
    · rw [FreeScan.visit, if_neg hx]
      refine ⟨by simp, fun hcount => ?_⟩
      obtain ⟨l₁, l₂, t, heq, hrest⟩ := hfound hcount
      exact ⟨l₁, l₂ ++ [x], t, by rw [heq]; simp, hrest⟩

/-- **The scan of a cache**: the number of idle slabs is counted, and with two of them the target is
an idle slab that has a slab before it. -/
theorem CacheRepr.scan (h : CacheRepr c s slabs free) :
    ∃ v, scanFree s (2 ^ 32) s.head ⟨0, null, null, null⟩ = some v ∧
      v.fullyFreeCount = idleSlabs c free slabs ∧
      (2 ≤ v.fullyFreeCount → ∃ l x t l₂, slabs = l ++ x :: t :: l₂ ∧
        (free t).length = c.num ∧ v.freeTarget = t ∧ v.freeTargetPrev = x) := by
  refine ⟨_, scanFree_eq h.chain (linked_length_lt h.chain) _, ?_, fun hcount => ?_⟩
  · rw [foldl_visit_count h.ok, Nat.zero_add]
  · obtain ⟨l₁, l₂, t, hslabs, hfull, htarget, hprev, hne⟩ :=
      (foldl_visit_spec s slabs).2 (Nat.le_of_succ_le hcount)
    obtain ⟨l, x, rfl⟩ := (List.eq_nil_or_concat l₁).resolve_left (hne hcount)
    rw [List.concat_eq_append, List.getLast?_concat, Option.getD_some] at hprev
    rw [List.concat_eq_append, List.append_assoc, List.singleton_append] at hslabs
    have ht : t ∈ slabs := by
      rw [hslabs]
      simp
    exact ⟨l, x, t, l₂, hslabs, (h.ok t ht).idle_iff.1 hfull, htarget, hprev⟩

end Loops

/-! ## Dropping a slab -/

/-- **Dropping a slab** that is not the first. -/
theorem CacheRepr.drop {c : SlabShape} {s : SlabState} {free : Ptr → List Nat} {l₁ l₂ : List Ptr}
    {x t : Ptr} (h : CacheRepr c s (l₁ ++ x :: t :: l₂) free) (A : Allocator) {s' : SlabState}
    (hs' : s' = s.store (slabNext x) (s.load (slabNext t))) :
    CacheRepr c ⟨A.free t s'.heap, s'.head⟩ (l₁ ++ x :: l₂) free ∧
      Quiet c (l₁ ++ x :: l₂) s ⟨A.free t s'.heap, s'.head⟩ := by
  have hx : x ∈ l₁ ++ x :: t :: l₂ := by simp
  have ht : t ∈ l₁ ++ x :: t :: l₂ := by simp
  have hsub : ∀ b ∈ l₁ ++ x :: l₂, b ∈ l₁ ++ x :: t :: l₂ := by
    intro b hb
    simp only [List.mem_append, List.mem_cons] at hb ⊢
    tauto
  have hperm : (l₁ ++ x :: t :: l₂).Perm (t :: (l₁ ++ x :: l₂)) := by
    have hmid : (l₁ ++ [x] ++ t :: l₂).Perm (t :: (l₁ ++ [x] ++ l₂)) := List.perm_middle
    simpa using hmid
  have hblocks : s'.heap.blocks = s.heap.blocks := by rw [hs']; rfl
  rw [SlabShape.slabNext_eq (c := c), SlabShape.slabNext_eq (c := c)] at hs'
  have honly : OnlySlab c (l₁ ++ x :: t :: l₂) x s s' := by
    rw [hs']
    exact OnlySlab.refl.store h.sep hx (f := .next) trivial _
  have htmem : c.block t ∈ s'.heap.blocks := hblocks ▸ h.block_mem ht
  have huniq : ∀ r ∈ s'.heap.blocks, r.base = (c.block t).base → r = c.block t := by
    intro r hr hbase
    rw [hblocks] at hr
    obtain ⟨b, -, rfl⟩ := List.mem_map.1 (h.blocks.mem_iff.1 hr)
    exact congrArg c.block hbase
  obtain ⟨hfblocks, hkeep⟩ := (A.free_spec (c.block t) s'.heap htmem huniq).blocks_and_keeps
  -- the allocations that are left are those of the slabs that are left
  have hleft : (s'.heap.blocks.erase (c.block t)).Perm ((l₁ ++ x :: l₂).map c.block) := by
    have := ((hblocks ▸ h.blocks).trans (hperm.map c.block)).erase (c.block t)
    rwa [List.map_cons, List.erase_cons_head] at this
  have hmem : ∀ b ∈ l₁ ++ x :: l₂, c.block b ∈ s'.heap.blocks.erase (c.block t) :=
    fun b hb => hleft.mem_iff.2 (List.mem_map_of_mem hb)
  have hload : ∀ b ∈ l₁ ++ x :: l₂, ∀ f, c.Valid f →
      SlabState.load ⟨A.free t s'.heap, s'.head⟩ (c.addr b f) = s'.load (c.addr b f) :=
    fun b hb f hf => SlabShape.load_congr h.sep (hsub b hb) hf (hkeep _ (hmem b hb))
  have hsep : c.Separate (l₁ ++ x :: l₂) :=
    ⟨fun b hb => h.sep.ne_null b (hsub b hb), fun b hb => h.sep.lt b (hsub b hb),
      fun b hb b' hb' => h.sep.apart b (hsub b hb) b' (hsub b' hb')⟩
  have hsame : ∀ b ∈ l₁ ++ x :: l₂, b ≠ x → ∀ f, c.Valid f →
      SlabState.load ⟨A.free t s'.heap, s'.head⟩ (c.addr b f) = s.load (c.addr b f) :=
    fun b hb hbx f hf => (hload b hb f hf).trans (honly.loads b (hsub b hb) hbx f hf)
  refine ⟨⟨hsep, ?_, fun b hb => (h.ok b (hsub b hb)).frame fun f hf hne => ?_, ?_⟩,
    fun b hb i hi y hy => ?_⟩
  · rw [show s'.head = s.head by rw [hs']; rfl]
    refine h.chain.unlink ?_ fun y hy => ?_
    · rw [SlabShape.slabNext_eq (c := c), SlabShape.slabNext_eq (c := c)]
      refine (hload x (by simp) .next trivial).trans ?_
      rw [hs']
      exact load32_store32 _ _ _
    · rw [SlabShape.slabNext_eq (c := c)]
      have hyx : y ≠ x := by
        rintro rfl
        have hnodup := h.chain.nodup
        simp only [List.nodup_append, List.nodup_cons, List.mem_cons] at hnodup
        rcases List.mem_append.1 hy with hy | hy
        · exact hnodup.2.2 y hy y (Or.inl rfl) rfl
        · exact hnodup.2.1.1 (Or.inr hy)
      refine hsame y ?_ hyx .next trivial
      rcases List.mem_append.1 hy with hy | hy
      · exact List.mem_append_left _ hy
      · exact List.mem_append_right _ (List.mem_cons_of_mem x hy)
  · by_cases hbx : b = x
    · refine (hload b hb f hf).trans ?_
      rw [hs', hbx]
      exact SlabShape.load_store_of_ne h.sep hx .next f trivial hf hne
    · exact hsame b hb hbx f hf
  · exact (show (A.free t s'.heap).blocks = _ from hfblocks) ▸ hleft
  · exact (hkeep _ (hmem b hb) y (hy.has (hsep.lt b hb) hi)).trans
      (honly.quiet b (hsub b hb) i hi y hy)

/-! ## Live objects -/

/-- The live objects are those of the nodes that are not free, each once. -/
structure LiveOk (c : SlabShape) (slabs : List Ptr) (free : Ptr → List Nat) (live : List Ptr) :
    Prop where
  nodup : live.Nodup
  mem_iff : ∀ p, p ∈ live ↔ ∃ b ∈ slabs, ∃ i < c.num, i ∉ free b ∧ p = c.object b i

namespace LiveOk

variable {c : SlabShape} {slabs : List Ptr} {free : Ptr → List Nat} {live : List Ptr} {b : Ptr}
  {i : Nat}

/-- An object is live or its node is free. -/
theorem object_mem_iff (h : LiveOk c slabs free live) (hsep : c.Separate slabs) (hb : b ∈ slabs)
    (hi : i < c.num) : c.object b i ∈ live ↔ i ∉ free b := by
  rw [h.mem_iff]
  constructor
  · rintro ⟨b', hb', j, hj, hfree, heq⟩
    obtain ⟨rfl, rfl⟩ := SlabShape.object_inj hsep hb hb' hi hj heq
    exact hfree
  · intro hfree
    exact ⟨b, hb, i, hi, hfree, rfl⟩

/-- Taking a node makes its object live. -/
theorem take (h : LiveOk c slabs free live) (hsep : c.Separate slabs) (hb : b ∈ slabs)
    {rest : List Nat} (hfr : free b = i :: rest) (hnodup : (free b).Nodup) (hi : i < c.num) :
    c.object b i ∉ live ∧
      LiveOk c slabs (Function.update free b rest) (c.object b i :: live) := by
  rw [hfr, List.nodup_cons] at hnodup
  have hnot : c.object b i ∉ live := by
    rw [h.object_mem_iff hsep hb hi, hfr]
    exact fun hne => hne List.mem_cons_self
  refine ⟨hnot, List.nodup_cons.2 ⟨hnot, h.nodup⟩, fun p => ?_⟩
  rw [List.mem_cons, h.mem_iff]
  constructor
  · rintro (rfl | ⟨b', hb', j, hj, hfree, rfl⟩)
    · exact ⟨b, hb, i, hi, by rw [Function.update_self]; exact hnodup.1, rfl⟩
    · refine ⟨b', hb', j, hj, ?_, rfl⟩
      by_cases hbb : b' = b
      · rw [hbb, Function.update_self]
        rw [hbb, hfr] at hfree
        exact fun hj' => hfree (List.mem_cons_of_mem i hj')
      · rwa [Function.update_of_ne hbb]
  · rintro ⟨b', hb', j, hj, hfree, rfl⟩
    by_cases hbb : b' = b
    · subst hbb
      rw [Function.update_self] at hfree
      rcases eq_or_ne j i with rfl | hji
      · exact Or.inl rfl
      · refine Or.inr ⟨b', hb', j, hj, ?_, rfl⟩
        rw [hfr, List.mem_cons]
        exact fun hmem => hmem.elim hji hfree
    · rw [Function.update_of_ne hbb] at hfree
      exact Or.inr ⟨b', hb', j, hj, hfree, rfl⟩

/-- Putting a node back ends the life of its object. -/
theorem give (h : LiveOk c slabs free live) (hsep : c.Separate slabs) (hb : b ∈ slabs)
    (hi : i < c.num) :
    LiveOk c slabs (Function.update free b (i :: free b)) (live.erase (c.object b i)) := by
  refine ⟨h.nodup.erase _, fun p => ?_⟩
  rw [h.nodup.mem_erase_iff, h.mem_iff]
  constructor
  · rintro ⟨hne, b', hb', j, hj, hfree, rfl⟩
    refine ⟨b', hb', j, hj, ?_, rfl⟩
    by_cases hbb : b' = b
    · subst hbb
      rw [Function.update_self, List.mem_cons]
      rintro (rfl | hmem)
      · exact hne rfl
      · exact hfree hmem
    · rwa [Function.update_of_ne hbb]
  · rintro ⟨b', hb', j, hj, hfree, rfl⟩
    by_cases hbb : b' = b
    · subst hbb
      rw [Function.update_self, List.mem_cons, not_or] at hfree
      refine ⟨fun heq => hfree.1 ?_, b', hb', j, hj, hfree.2, rfl⟩
      exact (SlabShape.object_inj hsep hb' hb' hj hi heq).2
    · rw [Function.update_of_ne hbb] at hfree
      refine ⟨fun heq => hbb ?_, b', hb', j, hj, hfree, rfl⟩
      exact (SlabShape.object_inj hsep hb' hb hj hi heq).1

/-- A new slab has no live objects. -/
theorem cons (h : LiveOk c slabs free live) (hb : b ∉ slabs) :
    LiveOk c (b :: slabs) (Function.update free b (List.range c.num)) live := by
  refine ⟨h.nodup, fun p => ?_⟩
  rw [h.mem_iff]
  constructor
  · rintro ⟨b', hb', j, hj, hfree, rfl⟩
    refine ⟨b', List.mem_cons_of_mem b hb', j, hj, ?_, rfl⟩
    rwa [Function.update_of_ne fun heq : b' = b => hb (heq ▸ hb')]
  · rintro ⟨b', hb', j, hj, hfree, rfl⟩
    rcases List.mem_cons.1 hb' with rfl | hb'
    · rw [Function.update_self] at hfree
      exact absurd (List.mem_range.2 hj) hfree
    · rw [Function.update_of_ne fun heq : b' = b => hb (heq ▸ hb')] at hfree
      exact ⟨b', hb', j, hj, hfree, rfl⟩

/-- A slab all of whose nodes are free can go. -/
theorem drop {l₁ l₂ : List Ptr} {x t : Ptr} (h : LiveOk c (l₁ ++ x :: t :: l₂) free live)
    (ht : ∀ i < c.num, i ∈ free t) : LiveOk c (l₁ ++ x :: l₂) free live := by
  refine ⟨h.nodup, fun p => ?_⟩
  rw [h.mem_iff]
  constructor
  · rintro ⟨b, hb, i, hi, hfree, rfl⟩
    have hbt : b ≠ t := by
      rintro rfl
      exact hfree (ht i hi)
    refine ⟨b, ?_, i, hi, hfree, rfl⟩
    simp only [List.mem_append, List.mem_cons] at hb ⊢
    tauto
  · rintro ⟨b, hb, i, hi, hfree, rfl⟩
    refine ⟨b, ?_, i, hi, hfree, rfl⟩
    simp only [List.mem_append, List.mem_cons] at hb ⊢
    tauto

end LiveOk

/-! ## The two operations -/

section Operations

variable {c : SlabShape} {s : SlabState} {slabs : List Ptr} {free : Ptr → List Nat}
  {live : List Ptr}

/-- **The ways of `slab_get`**: it returns null with the cache as it was, takes the first free node of one of
the slabs, or has to add a slab and takes the first node of that. -/
theorem slabGet_cases (h : CacheRepr c s slabs free) (A : Allocator) :
    (∃ s', slabGet A s = some (null, s') ∧ CacheRepr c s' slabs free ∧ s'.head = s.head ∧
      s'.heap.blocks = s.heap.blocks ∧ Allocator.Keeps s.heap.blocks s.heap.mem s'.heap.mem) ∨
    (∃ b ∈ slabs, ∃ i rest s', free b = i :: rest ∧ slabGet A s = some (c.object b i, s') ∧
      CacheRepr c s' slabs (Function.update free b rest) ∧ Quiet c slabs s s') ∨
    ((∀ b ∈ slabs, free b = []) ∧ (A.malloc c.sizeWord s.heap).1 ≠ null ∧
      ∃ b rest s', b ∉ slabs ∧ List.range c.num = 0 :: rest ∧ slabGet A s = some (c.object b 0, s') ∧
        CacheRepr c s' (b :: slabs) (Function.update free b rest) ∧ Quiet c slabs s s') := by
  rw [slabGet]
  by_cases hhead : s.head = null
  · rw [if_pos hhead]
    exact Or.inl ⟨s, rfl, h, rfl, rfl, fun _ _ _ _ => rfl⟩
  rw [if_neg hhead]
  obtain ⟨l, hl, -⟩ := h.chain.exists_cons hhead
  have hmem : s.head ∈ slabs := hl ▸ List.mem_cons_self
  rcases findFree_spec h.ok (List.Subset.refl _) h.chain (linked_length_lt h.chain) with
    ⟨b, hb, hne, hfind⟩ | ⟨hall, hfind⟩
  · -- some slab has a free node
    obtain ⟨i, rest, hfr⟩ := List.exists_cons_of_ne_nil hne
    obtain ⟨hobj, hrepr, hquiet⟩ := h.take hb hfr
    rw [hfind]
    dsimp only
    rw [if_pos (h.sep.ne_null b hb)]
    exact Or.inr (Or.inl ⟨b, hb, i, rest, _, hfr, congrArg some (Prod.ext hobj rfl), hrepr, hquiet⟩)
  · -- the cache has to grow
    have hslab := h.ok _ hmem
    rw [hfind]
    dsimp only
    rw [if_neg fun hne => hne rfl, hslab.objectSize, hslab.totalObjects]
    generalize hr : slabAllocNew A c.objectSize c.totalObjects s = r
    rcases h.allocNew A hr with ⟨-, hnull, hrepr, hhead', hblocks, hkeep⟩ |
      ⟨hmalloc, hne, hnot, hrepr, hquiet⟩
    · rw [if_pos hnull]
      exact Or.inl ⟨r.2, rfl, hrepr, hhead', hblocks, hkeep⟩
    · rw [if_neg hne]
      have hb : r.1 ∈ r.1 :: slabs := List.mem_cons_self
      obtain ⟨n, hn⟩ := Nat.exists_eq_succ_of_ne_zero (Nat.ne_of_gt c.totalObjects_pos)
      have hrange : List.range c.num = 0 :: (List.range n).map Nat.succ := by
        rw [SlabShape.num, hn, List.range_succ_eq_map]
      have hfr : Function.update free r.1 (List.range c.num) r.1 = 0 :: (List.range n).map Nat.succ := by
        rw [Function.update_self, hrange]
      obtain ⟨hobj, hrepr', hquiet'⟩ := hrepr.take hb hfr
      rw [Function.update_idem] at hrepr'
      refine Or.inr (Or.inr ⟨hall, hmalloc, r.1, _, _, hnot, hrange, congrArg some (Prod.ext hobj rfl), hrepr',
        fun b hb i hi x hx => ?_⟩)
      exact (hquiet' b (List.mem_cons_of_mem _ hb) i hi x hx).trans (hquiet b hb i hi x hx)

/-- **`slab_get`** hands out a new object, or returns null with the cache as it was: when there is no
cache, or when nothing is free and no slab can be added. -/
theorem slabGet_spec (h : CacheRepr c s slabs free) (hlive : LiveOk c slabs free live)
    (A : Allocator) :
    ∃ p s', slabGet A s = some (p, s') ∧
      ((p = null ∧ CacheRepr c s' slabs free ∧ s'.head = s.head ∧
          s'.heap.blocks = s.heap.blocks ∧ Allocator.Keeps s.heap.blocks s.heap.mem s'.heap.mem) ∨
        (p ≠ null ∧ p ∉ live ∧
          (slabs ≠ [] → (∀ b ∈ slabs, free b = []) → (A.malloc c.sizeWord s.heap).1 ≠ null) ∧
          ∃ slabs' free', CacheRepr c s' slabs' free' ∧ LiveOk c slabs' free' (p :: live) ∧
            Quiet c slabs s s' ∧ idleSlabs c free' slabs' ≤ idleSlabs c free slabs)) := by
  rcases slabGet_cases h A with ⟨s', hget, hnull⟩ | ⟨b, hb, i, rest, s', hfr, hget, hrepr, hquiet⟩ |
    ⟨hall, hmalloc, b, rest, s', hnot, hrange, hget, hrepr, hquiet⟩
  · exact ⟨null, s', hget, Or.inl ⟨rfl, hnull⟩⟩
  · have hi : i < c.num := (h.ok b hb).lt i (by rw [hfr]; exact List.mem_cons_self)
    obtain ⟨hfresh, hlive'⟩ := hlive.take h.sep hb hfr (h.ok b hb).nodup hi
    have hne : free b ≠ [] := by simp [hfr]
    refine ⟨_, s', hget, Or.inr ⟨SlabShape.object_ne_null (h.sep.lt b hb) hi, hfresh,
      fun _ hall => absurd (hall b hb) hne, slabs, _, hrepr, hlive', hquiet, ?_⟩⟩
    refine idleSlabs_mono fun x hx hidle => ?_
    by_cases hxb : x = b
    · have hle := (h.ok b hb).length_le
      rw [hfr, List.length_cons] at hle
      rw [hxb, Function.update_self] at hidle
      omega
    · rwa [Function.update_of_ne hxb] at hidle
  · have hb : b ∈ b :: slabs := List.mem_cons_self
    have hfr : Function.update free b (List.range c.num) b = 0 :: rest := by
      rw [Function.update_self, hrange]
    have hnodup : (Function.update free b (List.range c.num) b).Nodup := by
      rw [Function.update_self]
      exact List.nodup_range
    obtain ⟨hfresh, hlive'⟩ := (hlive.cons hnot).take hrepr.sep hb hfr hnodup c.totalObjects_pos
    rw [Function.update_idem] at hlive'
    refine ⟨_, s', hget, Or.inr ⟨SlabShape.object_ne_null (hrepr.sep.lt _ hb) c.totalObjects_pos, hfresh,
      fun _ _ => hmalloc, _, _, hrepr, hlive', hquiet, ?_⟩⟩
    -- the new slab has lost a node already
    have hlen : rest.length + 1 = c.num := by
      rw [← List.length_cons (a := 0), ← hrange, List.length_range]
    rw [idleSlabs, List.countP_cons_of_neg]
    · refine idleSlabs_mono fun x hx hidle => ?_
      have hxr : x ≠ b := fun heq => hnot (heq ▸ hx)
      rwa [Function.update_of_ne hxr] at hidle
    · rw [Function.update_self, decide_eq_true_iff]
      omega

/-- **The ways of `slab_free`**: the node is put back, and if that makes two idle slabs one of them is
dropped. -/
theorem slabFree_cases (h : CacheRepr c s slabs free) (A : Allocator) {b : Ptr} (hb : b ∈ slabs) {i : Nat}
    (hi : i < c.num) (hfr : i ∉ free b) :
    ∃ s', slabFree A (c.object b i) s = some s' ∧
      (idleSlabs c (Function.update free b (i :: free b)) slabs ≤ 1 ∧
          CacheRepr c s' slabs (Function.update free b (i :: free b)) ∧ Quiet c slabs s s' ∨
        2 ≤ idleSlabs c (Function.update free b (i :: free b)) slabs ∧
          ∃ l x t l₂, slabs = l ++ x :: t :: l₂ ∧
            (Function.update free b (i :: free b) t).length = c.num ∧ (∀ j < c.num, j ∈
              Function.update free b (i :: free b) t) ∧
            CacheRepr c s' (l ++ x :: l₂) (Function.update free b (i :: free b)) ∧
            Quiet c (l ++ x :: l₂) s s') := by
  obtain ⟨hrepr, hquiet⟩ := h.give hb hi hfr
  rw [slabFree, findOwner_spec h hb hi (List.Subset.refl _) hb h.chain (linked_length_lt h.chain)]
  dsimp only
  rw [if_neg (h.sep.ne_null b hb)]
  generalize slabGive b (c.object b i) s = s' at hrepr hquiet ⊢
  obtain ⟨v, hscan, hcount, htarget⟩ := hrepr.scan
  rw [hscan]
  dsimp only
  by_cases htwo : 2 ≤ v.fullyFreeCount
  · obtain ⟨l, x, t, l₂, hslabs, hfull, ht, hx⟩ := htarget htwo
    rw [if_pos htwo, ht, hx]
    have hall := (hrepr.ok t (by simp [hslabs])).mem_of_length hfull
    subst hslabs
    obtain ⟨hdrop, hquiet'⟩ := hrepr.drop A rfl
    refine ⟨_, rfl, Or.inr ⟨hcount ▸ htwo, l, x, t, l₂, rfl, hfull, hall, hdrop, fun b' hb' j hj y hy => ?_⟩⟩
    refine (hquiet' b' hb' j hj y hy).trans (hquiet b' ?_ j hj y hy)
    simp only [List.mem_append, List.mem_cons] at hb' ⊢
    tauto
  · rw [if_neg htwo]
    exact ⟨_, rfl, Or.inl ⟨by omega, hrepr, hquiet⟩⟩

/-- **`slab_free`** of a live object puts its node back and changes no other object.  Of the slabs
that are idle then it leaves at most one. -/
theorem slabFree_spec (h : CacheRepr c s slabs free) (hlive : LiveOk c slabs free live)
    (A : Allocator) {p : Ptr} (hp : p ∈ live) :
    ∃ s', slabFree A p s = some s' ∧ ∃ slabs' free', CacheRepr c s' slabs' free' ∧
      LiveOk c slabs' free' (live.erase p) ∧ Quiet c slabs' s s' ∧
      (idleSlabs c free slabs ≤ 1 → idleSlabs c free' slabs' ≤ 1) := by
  obtain ⟨b, hb, i, hi, hfree, rfl⟩ := (hlive.mem_iff p).1 hp
  have hlive' := hlive.give h.sep hb hi
  have hidle : idleSlabs c (Function.update free b (i :: free b)) slabs ≤ idleSlabs c free slabs + 1 :=
    idleSlabs_update_le h.chain.nodup b _
  obtain ⟨s', hrun, ⟨hone, hrepr, hquiet⟩ | ⟨-, l, x, t, l₂, rfl, hfull, hall, hrepr, hquiet⟩⟩ :=
    slabFree_cases h A hb hi hfree
  · exact ⟨s', hrun, slabs, _, hrepr, hlive', hquiet, fun _ => hone⟩
  · refine ⟨s', hrun, l ++ x :: l₂, _, hrepr, hlive'.drop hall, hquiet, fun hone => ?_⟩
    simp only [idleSlabs, List.countP_append, List.countP_cons, hfull, decide_true, if_true] at hidle hone ⊢
    omega

end Operations

/-! ## Runs -/

/-- The states reached from one `slab_alloc_new`, with the live objects.  Between the calls anything
may happen to memory outside the cache's allocations, and to the live objects. -/
inductive SlabReach (c : SlabShape) : SlabState → List Ptr → Prop
  | new (A : Allocator) (m : Mem) :
      SlabReach c (slabAllocNew A c.objectSize c.totalObjects ⟨⟨m, []⟩, null⟩).2 []
  | get {s s' : SlabState} {live : List Ptr} {p : Ptr} (A : Allocator) (hs : SlabReach c s live)
      (hrun : slabGet A s = some (p, s')) :
      SlabReach c s' (if p = null then live else p :: live)
  | free {s s' : SlabState} {live : List Ptr} {p : Ptr} (A : Allocator) (hs : SlabReach c s live)
      (hp : p ∈ live) (hrun : slabFree A p s = some s') : SlabReach c s' (live.erase p)
  | other {s : SlabState} {live : List Ptr} (m : Mem) (hs : SlabReach c s live)
      (hm : ∀ r ∈ s.heap.blocks, ∀ x, r.Has x → (∀ p ∈ live, ¬ c.InObject p x) →
        m x = s.heap.mem x) : SlabReach c ⟨⟨m, s.heap.blocks⟩, s.head⟩ live

/-- What others do to memory is not seen in the fields. -/
theorem CacheRepr.other {c : SlabShape} {s : SlabState} {slabs : List Ptr} {free : Ptr → List Nat}
    {live : List Ptr} (h : CacheRepr c s slabs free) (hlive : LiveOk c slabs free live) {m : Mem}
    (hm : ∀ r ∈ s.heap.blocks, ∀ x, r.Has x → (∀ p ∈ live, ¬ c.InObject p x) →
      m x = s.heap.mem x) : CacheRepr c ⟨⟨m, s.heap.blocks⟩, s.head⟩ slabs free := by
  refine h.frame rfl rfl fun b hb f hf => ?_
  have hlt := h.sep.lt b hb
  have hle := SlabShape.off_le hf
  have haddr := SlabShape.addr_toNat hlt hf
  refine load32_congr_toNat (by rw [haddr]; omega) fun x hx hx' => ?_
  rw [haddr] at hx hx'
  refine hm _ (h.block_mem hb) x ⟨?_, ?_⟩ fun p hp hobj => ?_
  · simp only [SlabShape.block]
    omega
  · simp only [SlabShape.block]
    omega
  · -- a live object is apart from every field
    obtain ⟨b', hb', i, hi, -, rfl⟩ := (hlive.mem_iff p).1 hp
    have hle' := c.nodeOff_le hi
    rw [SlabShape.InObject, SlabShape.object_toNat (h.sep.lt b' hb') hi] at hobj
    by_cases hbb : b = b'
    · subst hbb
      have := SlabShape.off_object (c := c) f i
      omega
    · rcases h.sep.apart b hb b' hb' hbb with h | h <;> simp only [SlabShape.block] at h <;> omega

theorem SlabReach.inv {c : SlabShape} {s : SlabState} {live : List Ptr} (h : SlabReach c s live) :
    ∃ slabs free, CacheRepr c s slabs free ∧ LiveOk c slabs free live := by
  induction h with
  | new A m =>
    have hempty : CacheRepr c ⟨⟨m, []⟩, null⟩ [] fun _ => [] :=
      ⟨⟨by simp, by simp, by simp⟩, rfl, by simp, List.Perm.refl _⟩
    have hnone : LiveOk c [] (fun _ => []) [] := ⟨List.nodup_nil, by simp⟩
    rcases hempty.allocNew A rfl with ⟨-, -, hrepr, -⟩ | ⟨-, -, hnot, hrepr, -⟩
    · exact ⟨_, _, hrepr, hnone⟩
    · exact ⟨_, _, hrepr, hnone.cons hnot⟩
  | @get s s' live p A _ hrun ih =>
    obtain ⟨slabs, free, hrepr, hlive⟩ := ih
    obtain ⟨p', s'', hrun', hcases⟩ := slabGet_spec hrepr hlive A
    rw [hrun', Option.some.injEq, Prod.mk.injEq] at hrun
    obtain ⟨rfl, rfl⟩ := hrun
    rcases hcases with ⟨hp, hrepr', -⟩ | ⟨hp, -, -, slabs', free', hrepr', hlive', -, -⟩
    · rw [if_pos hp]
      exact ⟨slabs, free, hrepr', hlive⟩
    · rw [if_neg hp]
      exact ⟨slabs', free', hrepr', hlive'⟩
  | @free s s' live p A _ hp hrun ih =>
    obtain ⟨slabs, free, hrepr, hlive⟩ := ih
    obtain ⟨s'', hrun', slabs', free', hrepr', hlive', -⟩ := slabFree_spec hrepr hlive A hp
    rw [hrun', Option.some.injEq] at hrun
    subst hrun
    exact ⟨slabs', free', hrepr', hlive'⟩
  | other m _ hm ih =>
    obtain ⟨slabs, free, hrepr, hlive⟩ := ih
    exact ⟨slabs, free, hrepr.other hlive hm, hlive⟩

/-- **A slab cache keeps its books**, in every state reached.  The slabs are a list of allocations;
the free list of each has `free_objects` different nodes of it and ends in null; every node is free
or backs one live object; live objects lie in their slabs and apart from each other.  A `slab_get`
returns, with null and the cache as it was or with an object that was not live, and with null if
nothing is free and the heap has no room; a `slab_free` of a live object returns; and neither
changes a byte of another live object. -/
theorem slab_cache_invariant (c : SlabShape) (s : SlabState) (live : List Ptr)
    (h : SlabReach c s live) :
    ∃ slabs : List Ptr, ∃ free : Ptr → List Nat,
      Linked (fun b => s.load (slabNext b)) (· = null) s.head slabs ∧
      (∀ b ∈ slabs, c.block b ∈ s.heap.blocks) ∧
      (∀ b ∈ slabs,
        Linked (fun p => s.load (nodeNextFree p)) (· = null) (s.load (slabFreeList b))
          ((free b).map (c.node b)) ∧
        (s.load (slabFreeObjects b)).toNat = (free b).length ∧ (free b).Nodup ∧
        ∀ i ∈ free b, i < c.num) ∧
      (∀ b ∈ slabs, ∀ i < c.num, (i ∈ free b ∧ c.object b i ∉ live) ∨
        (i ∉ free b ∧ live.count (c.object b i) = 1)) ∧
      (∀ p ∈ live, ∃ b ∈ slabs, ∃ i < c.num, p = c.object b i ∧
        ∀ x, c.InObject p x → (c.block b).Has x) ∧
      (∀ p ∈ live, ∀ q ∈ live, p ≠ q → ∀ x, ¬ (c.InObject p x ∧ c.InObject q x)) ∧
      (∀ A : Allocator, ∃ p s', slabGet A s = some (p, s') ∧ p ∉ live ∧
        (∀ q ∈ live, ∀ x, c.InObject q x → s'.heap.mem x = s.heap.mem x) ∧
        (p = null → s'.head = s.head ∧ s'.heap.blocks = s.heap.blocks ∧
          ∀ b ∈ slabs, ∀ x, (c.block b).Has x → s'.heap.mem x = s.heap.mem x) ∧
        (slabs ≠ [] → (∀ b ∈ slabs, free b = []) → (A.malloc c.sizeWord s.heap).1 = null →
          p = null)) ∧
      (∀ (A : Allocator) (p : Ptr), p ∈ live → ∃ s', slabFree A p s = some s' ∧
        ∀ q ∈ live, q ≠ p → ∀ x, c.InObject q x → s'.heap.mem x = s.heap.mem x) := by
  obtain ⟨slabs, free, hrepr, hlive⟩ := h.inv
  have hsep := hrepr.sep
  have hnull : null ∉ live := by
    intro hmem
    obtain ⟨b, hb, i, hi, -, heq⟩ := (hlive.mem_iff null).1 hmem
    exact SlabShape.object_ne_null (hsep.lt b hb) hi heq.symm
  refine ⟨slabs, free, hrepr.chain, fun b hb => hrepr.block_mem hb, fun b hb => ?_,
    fun b hb i hi => ?_, fun p hp => ?_, fun p hp q hq hpq x hx => ?_, fun A => ?_,
    fun A p hp => ?_⟩
  · have hok := hrepr.ok b hb
    refine ⟨hok.freeList, ?_, hok.nodup, hok.lt⟩
    have hle := hok.length_le
    have hlt : c.num < 2 ^ 32 := c.totalObjects.isLt
    rw [hok.freeObjects, BitVec.toNat_ofNat, Nat.mod_eq_of_lt (by omega)]
  · have hiff := hlive.object_mem_iff hsep hb hi
    by_cases hfree : i ∈ free b
    · exact Or.inl ⟨hfree, fun hmem => hiff.1 hmem hfree⟩
    · exact Or.inr ⟨hfree, List.count_eq_one_of_mem hlive.nodup (hiff.2 hfree)⟩
  · obtain ⟨b, hb, i, hi, -, rfl⟩ := (hlive.mem_iff p).1 hp
    exact ⟨b, hb, i, hi, rfl, fun x hx => hx.has (hsep.lt b hb) hi⟩
  · obtain ⟨b, hb, i, hi, -, rfl⟩ := (hlive.mem_iff p).1 hp
    obtain ⟨b', hb', j, hj, -, rfl⟩ := (hlive.mem_iff q).1 hq
    exact SlabShape.object_apart hsep hb hb' hi hj hpq hx.1 hx.2
  · obtain ⟨p, s', hrun, hcases⟩ := slabGet_spec hrepr hlive A
    refine ⟨p, s', hrun, ?_⟩
    rcases hcases with ⟨hp, -, hhead, hblocks, hkeep⟩ | ⟨hp, hnot, hmalloc, -, -, -, -, hquiet, -⟩
    · refine ⟨hp ▸ hnull, fun q hq x hx => ?_, fun _ => ⟨hhead, hblocks, fun b hb =>
        hkeep _ (hrepr.block_mem hb)⟩, fun _ _ _ => hp⟩
      obtain ⟨b, hb, i, hi, -, rfl⟩ := (hlive.mem_iff q).1 hq
      exact hrepr.quiet_of_keeps hkeep b hb i hi x hx
    · refine ⟨hnot, fun q hq x hx => ?_, fun h => absurd h hp,
        fun hne hall hfail => absurd hfail (hmalloc hne hall)⟩
      obtain ⟨b, hb, i, hi, -, rfl⟩ := (hlive.mem_iff q).1 hq
      exact hquiet b hb i hi x hx
  · obtain ⟨s', hrun, slabs', free', hrepr', hlive', hquiet, -⟩ := slabFree_spec hrepr hlive A hp
    refine ⟨s', hrun, fun q hq hqp x hx => ?_⟩
    have hq' : q ∈ live.erase p := (hlive.nodup.mem_erase_iff).2 ⟨hqp, hq⟩
    obtain ⟨b, hb, i, hi, -, rfl⟩ := (hlive'.mem_iff q).1 hq'
    exact hquiet b hb i hi x hx

/-! ### A small cache

Two objects of five bytes to the slab, so that nodes lie at odd addresses.  Three are taken, which
adds a slab, and all are given back, which drops one. -/

/-- Its shape. -/
def pairShape : SlabShape := ⟨5, 2, by decide, by decide, by decide⟩

/-- The cache as it is created. -/
def pairNew : SlabState := (slabAllocNew Allocator.bump 5 2 ⟨⟨fun _ => 0, []⟩, null⟩).2

/-- After one `slab_get`. -/
def pairFirst : Ptr × SlabState := (slabGet Allocator.bump pairNew).get (by decide +kernel)

/-- After two. -/
def pairSecond : Ptr × SlabState := (slabGet Allocator.bump pairFirst.2).get (by decide +kernel)

/-- After three. -/
def pairThird : Ptr × SlabState := (slabGet Allocator.bump pairSecond.2).get (by decide +kernel)

/-- The second object given back. -/
def pairState : SlabState :=
  (slabFree Allocator.bump pairSecond.1 pairThird.2).get (by decide +kernel)

theorem pairState_reach : SlabReach pairShape pairState [0x103E, 0x1018] := by
  have e1 : slabGet Allocator.bump pairNew = some (0x1018, pairFirst.2) := by
    rw [← show pairFirst.1 = 0x1018 by decide +kernel]
    exact (Option.some_get (by decide +kernel)).symm
  have e2 : slabGet Allocator.bump pairFirst.2 = some (0x1021, pairSecond.2) := by
    rw [← show pairSecond.1 = 0x1021 by decide +kernel]
    exact (Option.some_get (by decide +kernel)).symm
  have e3 : slabGet Allocator.bump pairSecond.2 = some (0x103E, pairThird.2) := by
    rw [← show pairThird.1 = 0x103E by decide +kernel]
    exact (Option.some_get (by decide +kernel)).symm
  have e4 : slabFree Allocator.bump 0x1021 pairThird.2 = some pairState := by
    rw [← show pairSecond.1 = 0x1021 by decide +kernel]
    exact (Option.some_get (by decide +kernel)).symm
  have h0 : SlabReach pairShape pairNew [] := SlabReach.new Allocator.bump fun _ => 0
  have h1 := h0.get Allocator.bump e1
  rw [if_neg (by decide)] at h1
  have h2 := h1.get Allocator.bump e2
  rw [if_neg (by decide)] at h2
  have h3 := h2.get Allocator.bump e3
  rw [if_neg (by decide)] at h3
  exact h3.free Allocator.bump (by decide) e4

/-- The two live objects of that cache are apart, and the next `slab_get` touches neither. -/
theorem slab_cache_invariant_pairState :
    (∀ x, ¬ (pairShape.InObject 0x103E x ∧ pairShape.InObject 0x1018 x)) ∧
      ∃ p s', slabGet Allocator.bump pairState = some (p, s') ∧ p ≠ 0x1018 ∧
        ∀ x, pairShape.InObject 0x1018 x → s'.heap.mem x = pairState.heap.mem x := by
  obtain ⟨_, _, -, -, -, -, -, hapart, hget, -⟩ :=
    slab_cache_invariant pairShape pairState _ pairState_reach
  obtain ⟨p, s', hrun, hnot, hkeep, -⟩ := hget Allocator.bump
  exact ⟨hapart _ (by decide) _ (by decide) (by decide), p, s', hrun,
    fun h => hnot (by rw [h]; decide), hkeep _ (by decide)⟩

end RiscyOS
