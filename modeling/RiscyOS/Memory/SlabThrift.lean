import RiscyOS.Memory.SlabRuns

/-!
# A slab cache gives memory back

A cache grows when every object it has is in use, and `slab_free` returns a slab to the heap when two
have none in use.  `slabFreed` is the slab that is returned, with the one before it in the list, as the
second traversal of `slab_free` finds them.

What keeps a cache small is one number, the count of its idle slabs (`idleSlabs`).  A `slab_get` never
increases it, since the slab it may add loses an object at once; a `slab_free` increases it by one at
most, and takes one away when it has come to two.  So it is never above one between the calls, and
with no object in use, when all slabs are idle, there is one slab.
-/

set_option autoImplicit false

namespace RiscyOS

open Memory Allocator

/-- The slab that `slab_free` hands to `kfree`, if it does, and its predecessor: `free_target` and
`free_target_prev` at the end of the scan. -/
def slabFreed (obj : Ptr) (s : SlabState) : Option (Ptr × Ptr) := do
  let slab ← findOwner s obj (2 ^ 32) s.head
  if slab = null then none else
    let s := slabGive slab obj s
    let v ← scanFree s (2 ^ 32) s.head ⟨0, null, null, null⟩
    if 2 ≤ v.fullyFreeCount then some (v.freeTarget, v.freeTargetPrev) else none

/-- **`slabFreed` is what `slab_free` does**: with a slab to hand over, the heap is left as `kfree`
leaves it; with none, its blocks stay as they are. -/
theorem slabFree_freed (A : Allocator) {obj : Ptr} {s s' : SlabState}
    (h : slabFree A obj s = some s') :
    (slabFreed obj s = none ∧ s'.heap.blocks = s.heap.blocks) ∨
      ∃ t prev h₁, slabFreed obj s = some (t, prev) ∧ s'.heap = A.free t h₁ := by
  rw [slabFree] at h
  rw [slabFreed]
  cases hfind : findOwner s obj (2 ^ 32) s.head with
  | none =>
    rw [hfind] at h
    exact absurd h (by simp)
  | some slab =>
    rw [hfind] at h
    simp only [Option.bind_eq_bind, Option.bind_some] at h ⊢
    by_cases hnull : slab = null
    · rw [if_pos hnull] at h ⊢
      exact Or.inl ⟨rfl, Option.some.inj h ▸ rfl⟩
    rw [if_neg hnull] at h ⊢
    cases hscan : scanFree (slabGive slab obj s) (2 ^ 32) (slabGive slab obj s).head
        ⟨0, null, null, null⟩ with
    | none =>
      rw [hscan] at h
      exact absurd h (by simp)
    | some v =>
      rw [hscan] at h
      simp only [Option.bind_some] at h ⊢
      by_cases htwo : 2 ≤ v.fullyFreeCount
      · rw [if_pos htwo] at h ⊢
        exact Or.inr ⟨_, _, _, rfl, (congrArg SlabState.heap (Option.some.inj h)).symm⟩
      · rw [if_neg htwo] at h ⊢
        exact Or.inl ⟨rfl, Option.some.inj h ▸ rfl⟩

/-- **The slab handed over** comes after another one, and none of its objects is in use once the node
given back is on its free list. -/
theorem CacheRepr.freed {c : SlabShape} {s : SlabState} {slabs : List Ptr} {free : Ptr → List Nat}
    {live : List Ptr} (h : CacheRepr c s slabs free) (hlive : LiveOk c slabs free live) {p t prev : Ptr}
    (hp : p ∈ live) (hfreed : slabFreed p s = some (t, prev)) :
    ∃ l l₂, slabs = l ++ prev :: t :: l₂ ∧
      ∀ i < c.num, c.object t i ∈ live → c.object t i = p := by
  obtain ⟨b, hb, i, hi, hfree, rfl⟩ := (hlive.mem_iff p).1 hp
  obtain ⟨hrepr, -⟩ := h.give hb hi hfree
  rw [slabFreed, findOwner_spec h hb hi (List.Subset.refl _) hb h.chain
    (linked_length_lt h.chain)] at hfreed
  simp only [Option.bind_eq_bind, Option.bind_some] at hfreed
  rw [if_neg (h.sep.ne_null b hb)] at hfreed
  obtain ⟨v, hscan, -, htarget⟩ := hrepr.scan
  rw [hscan] at hfreed
  simp only [Option.bind_some] at hfreed
  by_cases htwo : 2 ≤ v.fullyFreeCount
  · obtain ⟨l, x, y, l₂, hslabs, hfull, ht, hx⟩ := htarget htwo
    rw [if_pos htwo, ht, hx, Option.some.injEq, Prod.mk.injEq] at hfreed
    obtain ⟨rfl, rfl⟩ := hfreed
    have hy : y ∈ slabs := by
      rw [hslabs]
      simp
    refine ⟨l, l₂, hslabs, fun j hj hmem => ?_⟩
    have hj' := (hrepr.ok y hy).mem_of_length hfull j hj
    have hused := (hlive.object_mem_iff h.sep hy hj).1 hmem
    by_cases hyb : y = b
    · subst hyb
      rw [Function.update_self, List.mem_cons] at hj'
      rw [hj'.resolve_right hused]
    · rw [Function.update_of_ne hyb] at hj'
      exact absurd hj' hused
  · rw [if_neg htwo] at hfreed
    exact absurd hfreed (by simp)

/-- **The invariant of a thrifty cache**: at most one slab is idle. -/
theorem SlabReach.thrifty {c : SlabShape} {s : SlabState} {live : List Ptr}
    (h : SlabReach c s live) :
    ∃ slabs free, CacheRepr c s slabs free ∧ LiveOk c slabs free live ∧
      idleSlabs c free slabs ≤ 1 := by
  induction h with
  | new A m =>
    have hempty : CacheRepr c ⟨⟨m, []⟩, null⟩ [] fun _ => [] :=
      ⟨⟨by simp, by simp, by simp⟩, rfl, by simp, List.Perm.refl _⟩
    have hnone : LiveOk c [] (fun _ => []) [] := ⟨List.nodup_nil, by simp⟩
    rcases hempty.allocNew A rfl with ⟨-, -, hrepr, -⟩ | ⟨-, -, hnot, hrepr, -⟩
    · exact ⟨_, _, hrepr, hnone, Nat.zero_le 1⟩
    · exact ⟨_, _, hrepr, hnone.cons hnot, List.countP_le_length⟩
  | @get s s' live p A _ hrun ih =>
    obtain ⟨slabs, free, hrepr, hlive, hidle⟩ := ih
    obtain ⟨p', s'', hrun', hcases⟩ := slabGet_spec hrepr hlive A
    rw [hrun', Option.some.injEq, Prod.mk.injEq] at hrun
    obtain ⟨rfl, rfl⟩ := hrun
    rcases hcases with ⟨hp, hrepr', -⟩ | ⟨hp, -, -, slabs', free', hrepr', hlive', -, hle⟩
    · rw [if_pos hp]
      exact ⟨slabs, free, hrepr', hlive, hidle⟩
    · rw [if_neg hp]
      exact ⟨slabs', free', hrepr', hlive', hle.trans hidle⟩
  | @free s s' live p A _ hp hrun ih =>
    obtain ⟨slabs, free, hrepr, hlive, hidle⟩ := ih
    obtain ⟨s'', hrun', slabs', free', hrepr', hlive', -, hle⟩ := slabFree_spec hrepr hlive A hp
    rw [hrun', Option.some.injEq] at hrun
    subst hrun
    exact ⟨slabs', free', hrepr', hlive', hle hidle⟩
  | other m _ hm ih =>
    obtain ⟨slabs, free, hrepr, hlive, hidle⟩ := ih
    exact ⟨slabs, free, hrepr.other hlive hm, hlive, hidle⟩

/-- **A slab cache gives memory back**, in every state reached from a slab that could be made.  At most
one slab is completely free; the slab that a `slab_free` hands to `kfree` is not the head of the list,
so that there is one before it, and holds no live object but the one being freed; and when no object
is live there is exactly one slab, completely free. -/
theorem slab_cache_thrifty (c : SlabShape) (s : SlabState) (live : List Ptr)
    (h : SlabReach c s live) (hmade : s.head ≠ null) :
    ∃ slabs : List Ptr, Linked (fun b => s.load (slabNext b)) (· = null) s.head slabs ∧
      (slabs.countP fun b => s.load (slabFreeObjects b) = s.load (slabTotalObjects b)) ≤ 1 ∧
      (∀ p ∈ live, ∀ (A : Allocator) (s' : SlabState), slabFree A p s = some s' →
        s'.heap.blocks = s.heap.blocks ∨
        ∃ t prev h₁, slabFreed p s = some (t, prev) ∧ s'.heap = A.free t h₁ ∧
          t ∈ slabs ∧ t ≠ s.head ∧ prev ∈ slabs ∧ prev ≠ null ∧
          ∀ q ∈ live, q ≠ p → ∀ x, c.InObject q x → ¬ (c.block t).Has x) ∧
      (live = [] → ∃ b, slabs = [b] ∧
        s.load (slabFreeObjects b) = s.load (slabTotalObjects b)) := by
  obtain ⟨slabs, free, hrepr, hlive, hidle⟩ := h.thrifty
  have hcount : (slabs.countP fun b => s.load (slabFreeObjects b) = s.load (slabTotalObjects b)) =
      idleSlabs c free slabs :=
    List.countP_congr fun b hb => by
      rw [decide_eq_true_iff, decide_eq_true_iff]
      exact (hrepr.ok b hb).idle_iff
  obtain ⟨rest, hslabs, -⟩ := hrepr.chain.exists_cons hmade
  refine ⟨slabs, hrepr.chain, hcount.trans_le hidle, fun p hp A s' hrun => ?_, fun hnone => ?_⟩
  · rcases slabFree_freed A hrun with ⟨-, hblocks⟩ | ⟨t, prev, h₁, hfreed, hheap⟩
    · exact Or.inl hblocks
    obtain ⟨l, l₂, heq, hobj⟩ := hrepr.freed hlive hp hfreed
    have hnodup := hrepr.chain.nodup
    have ht : t ∈ slabs := by
      rw [heq]
      simp
    have hprev : prev ∈ slabs := by
      rw [heq]
      simp
    refine Or.inr ⟨t, prev, h₁, hfreed, hheap, ht, fun hhead => ?_, hprev,
      hrepr.sep.ne_null prev hprev, fun q hq hqp x hx hin => ?_⟩
    · -- the head comes first, and the target does not
      rw [heq] at hslabs hnodup
      rcases l with _ | ⟨y, l⟩
      · obtain rfl : prev = s.head := (List.cons.inj hslabs).1
        rw [List.nil_append, List.nodup_cons, ← hhead] at hnodup
        exact hnodup.1 List.mem_cons_self
      · obtain rfl : y = s.head := (List.cons.inj hslabs).1
        rw [List.cons_append, List.nodup_cons, ← hhead] at hnodup
        exact hnodup.1 (by simp)
    · obtain ⟨b, hb, i, hi, -, rfl⟩ := (hlive.mem_iff q).1 hq
      have hin' := hx.has (hrepr.sep.lt b hb) hi
      by_cases hbt : b = t
      · subst hbt
        exact hqp (hobj i hi hq)
      · rcases hrepr.sep.apart b hb t ht hbt with h | h <;>
          simp only [Block.Has, SlabShape.block] at h hin hin' <;> omega
  · -- every slab is idle
    subst hnone
    have hall : ∀ b ∈ slabs, (free b).length = c.num := by
      intro b hb
      have hsub : List.range c.num ⊆ free b := fun i hi => by
        by_contra hfree
        exact List.not_mem_nil ((hlive.mem_iff _).2 ⟨b, hb, i, List.mem_range.1 hi, hfree, rfl⟩)
      have hle := (List.nodup_range.subperm hsub).length_le
      rw [List.length_range] at hle
      exact le_antisymm (hrepr.ok b hb).length_le hle
    have hlen : slabs.length ≤ 1 := by
      rwa [idleSlabs, List.countP_eq_length.2 fun b hb => decide_eq_true (hall b hb)] at hidle
    obtain rfl : rest = [] := by
      rw [hslabs, List.length_cons] at hlen
      exact List.eq_nil_of_length_eq_zero (by omega)
    exact ⟨s.head, hslabs, (hrepr.ok _ (hslabs ▸ List.mem_cons_self)).idle_iff.2
      (hall _ (hslabs ▸ List.mem_cons_self))⟩

/-! ## Giving back at once

An object that is given back before anything else happens leaves the cache as it was, if the cache had it.
One that a slab had to be added for leaves the slab. -/

/-- The loop of `slab_get` finds a slab. -/
def SlabState.HasFree (s : SlabState) : Prop := findFree s (2 ^ 32) s.head ≠ some null

instance (s : SlabState) : Decidable s.HasFree := inferInstanceAs (Decidable (_ ≠ _))

section GivenBack

variable {c : SlabShape} {s s' u : SlabState} {slabs : List Ptr} {free : Ptr → List Nat} {p : Ptr}

theorem CacheRepr.hasFree_iff (h : CacheRepr c s slabs free) : s.HasFree ↔ ∃ b ∈ slabs, free b ≠ [] := by
  rw [SlabState.HasFree]
  rcases findFree_spec h.ok (List.Subset.refl _) h.chain (linked_length_lt h.chain) with
    ⟨b, hb, hne, hfind⟩ | ⟨hall, hfind⟩
  · rw [hfind]
    exact iff_of_true (fun hnull => h.sep.ne_null b hb (Option.some.inj hnull)) ⟨b, hb, hne⟩
  · rw [hfind]
    refine iff_of_false (fun hne => hne rfl) ?_
    rintro ⟨b, hb, hne⟩
    exact hne (hall b hb)

/-- What the heap does outside its blocks is not seen. -/
theorem CacheRepr.keeps (h : CacheRepr c s slabs free) (hhead : u.head = s.head)
    (hblocks : u.heap.blocks = s.heap.blocks) (hkeep : Allocator.Keeps s.heap.blocks s.heap.mem u.heap.mem) :
    CacheRepr c u slabs free :=
  h.frame hhead hblocks fun _ hb _ hf => h.load_of_keeps hb hkeep hf

/-- A `slab_get` that returns null leaves the cache as it was. -/
theorem CacheRepr.get_null (h : CacheRepr c s slabs free) {A : Allocator} (hget : slabGet A s = some (null, s')) :
    CacheRepr c s' slabs free := by
  rcases slabGet_cases h A with ⟨s'', hget', hrepr, -⟩ | ⟨b, hb, i, rest, s'', hfr, hget', -⟩ |
    ⟨-, -, b, rest, s'', -, -, hget', hrepr, -⟩ <;>
    rw [hget', Option.some.injEq, Prod.mk.injEq] at hget <;> obtain ⟨hnull, rfl⟩ := hget
  · exact hrepr
  · have hi : i < c.num := (h.ok b hb).lt i (by rw [hfr]; exact List.mem_cons_self)
    exact absurd hnull (SlabShape.object_ne_null (h.sep.lt b hb) hi)
  · exact absurd hnull (SlabShape.object_ne_null (hrepr.sep.lt b List.mem_cons_self) c.totalObjects_pos)

/-- **`slab_get` and `slab_free`**, with only the heap at work in between. -/
theorem CacheRepr.give_back (h : CacheRepr c s slabs free) (hidle : idleSlabs c free slabs ≤ 1)
    (A : Allocator) (hget : slabGet A s = some (p, s')) (hp : p ≠ null) (hhead : u.head = s'.head)
    (hblocks : u.heap.blocks = s'.heap.blocks) (hkeep : Allocator.Keeps s'.heap.blocks s'.heap.mem u.heap.mem) :
    ∃ t, slabFree A p u = some t ∧ (s.HasFree → CacheRepr c t slabs free) ∧
      (¬ s.HasFree → ∃ b, b ∉ slabs ∧ CacheRepr c t (b :: slabs) (Function.update free b (List.range c.num))) := by
  rw [h.hasFree_iff]
  rcases slabGet_cases h A with ⟨s'', hget', -⟩ | ⟨b, hb, i, rest, s'', hfr, hget', hrepr, -⟩ |
    ⟨hall, -, b, rest, s'', hnot, hrange, hget', hrepr, -⟩ <;>
    rw [hget', Option.some.injEq, Prod.mk.injEq] at hget <;> obtain ⟨rfl, rfl⟩ := hget
  · exact absurd rfl hp
  · have hok := h.ok b hb
    have hnodup := hok.nodup
    rw [hfr] at hnodup
    have hfresh : i ∉ Function.update free b rest b := by
      rw [Function.update_self]
      exact (List.nodup_cons.1 hnodup).1
    -- the node goes back to where it was
    have hback : Function.update (Function.update free b rest) b (i :: Function.update free b rest b) =
        free := by
      rw [Function.update_idem, Function.update_self, ← hfr, Function.update_eq_self]
    obtain ⟨t, hfree, ⟨-, hrepr', -⟩ | ⟨htwo, -⟩⟩ := slabFree_cases (hrepr.keeps hhead hblocks hkeep) A hb
      (hok.lt i (by rw [hfr]; exact List.mem_cons_self)) hfresh
    · rw [hback] at hrepr'
      refine ⟨t, hfree, fun _ => hrepr', fun hnone => absurd ⟨b, hb, ?_⟩ hnone⟩
      rw [hfr]
      exact List.cons_ne_nil _ _
    · rw [hback] at htwo
      omega
  · have hb : b ∈ b :: slabs := List.mem_cons_self
    have hrest : (0 :: rest).Nodup := hrange ▸ List.nodup_range
    have hfresh : 0 ∉ Function.update free b rest b := by
      rw [Function.update_self]
      exact (List.nodup_cons.1 hrest).1
    obtain ⟨t, hfree, ⟨-, hrepr', -⟩ | ⟨htwo, -⟩⟩ := slabFree_cases (hrepr.keeps hhead hblocks hkeep) A hb
      c.totalObjects_pos hfresh
    · rw [Function.update_idem, Function.update_self, ← hrange] at hrepr'
      refine ⟨t, hfree, ?_, fun _ => ⟨b, hnot, hrepr'⟩⟩
      rintro ⟨x, hx, hne⟩
      exact absurd (hall x hx) hne
    · -- the old slabs have nothing free, so that the new one is the only one that can be idle
      have hold : idleSlabs c (Function.update (Function.update free b rest) b
          (0 :: Function.update free b rest b)) slabs = 0 := by
        refine List.countP_eq_zero.2 fun x hx hlen => ?_
        have hxb : x ≠ b := fun heq => hnot (heq ▸ hx)
        rw [decide_eq_true_iff, Function.update_of_ne hxb, Function.update_of_ne hxb, hall x hx] at hlen
        exact absurd hlen.symm (Nat.ne_of_gt c.totalObjects_pos)
      rw [idleSlabs, List.countP_cons] at htwo
      rw [idleSlabs] at hold
      rw [hold] at htwo
      split at htwo <;> omega

end GivenBack

/-! ### The small cache, emptied

The two objects that are left are given back, the one in the newer slab first.  The second time both
slabs are idle, and the older one goes. -/

/-- The first of them given back. -/
def pairFourth : SlabState := (slabFree Allocator.bump 0x103E pairState).get (by decide +kernel)

/-- And the second. -/
def pairEmpty : SlabState := (slabFree Allocator.bump 0x1018 pairFourth).get (by decide +kernel)

/-- The slab at `0x1026` is left, and its objects are free. -/
theorem slab_cache_thrifty_pairEmpty :
    slabFreed 0x1018 pairFourth = some (0x1000, 0x1026) ∧
      ∃ b, Linked (fun b => pairEmpty.load (slabNext b)) (· = null) 0x1026 [b] ∧
        pairEmpty.load (slabFreeObjects b) = pairEmpty.load (slabTotalObjects b) := by
  have e1 : slabFree Allocator.bump 0x103E pairState = some pairFourth :=
    (Option.some_get (by decide +kernel)).symm
  have e2 : slabFree Allocator.bump 0x1018 pairFourth = some pairEmpty :=
    (Option.some_get (by decide +kernel)).symm
  have hreach := (pairState_reach.free Allocator.bump (by decide) e1).free Allocator.bump
    (by decide) e2
  have hhead : pairEmpty.head = 0x1026 := by decide +kernel
  obtain ⟨slabs, hlist, -, -, hlast⟩ := slab_cache_thrifty pairShape pairEmpty _ hreach
    (by rw [hhead]; decide)
  obtain ⟨b, rfl, hfree⟩ := hlast (by decide)
  exact ⟨by decide +kernel, b, hhead ▸ hlist, hfree⟩

end RiscyOS
