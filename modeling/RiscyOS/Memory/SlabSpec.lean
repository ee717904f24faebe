import RiscyOS.Memory.Slab
import Mathlib.Data.List.Perm.Subperm
import Mathlib.Data.Fintype.Pi

/-!
# What a slab cache looks like in memory

`CacheRepr` relates the memory of a cache to the list of its slabs and, for each, the numbers of its free
nodes in the order of the free list.  Everything the cache writes is a *field*: a word of a header,
or the link word of a node.  Two fields of a cache are apart unless they are the same, and no field
overlaps an object (`load_store`, `store_object`), so an operation is a few stores to fields whose
effect on all other fields is known, and no object ever changes.

One lemma for each operation says what it does to the lists: taking a node (`CacheRepr.take`), putting
one back (`CacheRepr.give`), adding a slab (`CacheRepr.allocNew`) and dropping one (`CacheRepr.drop`); and one for
each loop says that it ends and what it finds.
-/

set_option autoImplicit false

namespace RiscyOS

open Memory Allocator

/-- What the slabs of a cache have in common.  The size of a slab, as `slab_alloc_new` computes it,
does not overflow. -/
structure SlabShape where
  objectSize : Word
  totalObjects : Word
  objectSize_pos : 1 ≤ objectSize.toNat
  totalObjects_pos : 1 ≤ totalObjects.toNat
  fits : 20 + (4 + objectSize.toNat) * totalObjects.toNat < 2 ^ 32

/-- The words of a slab that the cache uses itself. -/
inductive SlabField
  | next
  | freeList
  | objectSize
  | totalObjects
  | freeObjects
  | link (i : Nat)
  deriving DecidableEq

namespace SlabShape

variable (c : SlabShape)

/-- The number of objects in a slab. -/
abbrev num : Nat := c.totalObjects.toNat

/-- The bytes of a slab. -/
def size : Nat := 20 + (4 + c.objectSize.toNat) * c.num

/-- The offset of a node in its slab. -/
def nodeOff (i : Nat) : Nat := 20 + (4 + c.objectSize.toNat) * i

/-- The offset of a field. -/
def off : SlabField → Nat
  | .next => 0
  | .freeList => 4
  | .objectSize => 8
  | .totalObjects => 12
  | .freeObjects => 16
  | .link i => c.nodeOff i

/-- The field is there: its node is one of the slab's. -/
def Valid : SlabField → Prop
  | .link i => i < c.num
  | _ => True

/-- The address of a field. -/
def addr (b : Ptr) (f : SlabField) : Ptr := b + BitVec.ofNat 32 (c.off f)

/-- Node `i` of slab `b`. -/
def node (b : Ptr) (i : Nat) : Ptr := c.addr b (.link i)

/-- Object `i` of slab `b`. -/
def object (b : Ptr) (i : Nat) : Ptr := nodeUserData (c.node b i)

/-- `x` is a byte of the object at `p`. -/
def InObject (p x : Ptr) : Prop := p.toNat ≤ x.toNat ∧ x.toNat < p.toNat + c.objectSize.toNat

/-- The allocation of a slab. -/
def block (b : Ptr) : Block := ⟨b, c.size⟩

/-- The slabs are allocations of their own. -/
structure Separate (slabs : List Ptr) : Prop where
  ne_null : ∀ b ∈ slabs, b ≠ null
  lt : ∀ b ∈ slabs, b.toNat + c.size < 2 ^ 32
  apart : ∀ b ∈ slabs, ∀ b' ∈ slabs, b ≠ b' → (c.block b).Apart (c.block b')

/-! ## Offsets -/

theorem nodeOff_lt {i j : Nat} (h : i < j) :
    c.nodeOff i + 4 + c.objectSize.toNat ≤ c.nodeOff j := by
  have := Nat.mul_le_mul_left (4 + c.objectSize.toNat) (Nat.succ_le_of_lt h)
  rw [Nat.mul_succ] at this
  rw [nodeOff, nodeOff]
  omega

theorem nodeOff_le {i : Nat} (h : i < c.num) : c.nodeOff i + 4 + c.objectSize.toNat ≤ c.size :=
  c.nodeOff_lt h

theorem le_nodeOff (i : Nat) : 20 ≤ c.nodeOff i := Nat.le_add_right _ _

variable {c}

theorem off_le {f : SlabField} (hf : c.Valid f) : c.off f + 4 ≤ c.size := by
  have hpos := c.nodeOff_le c.totalObjects_pos
  have hzero := c.le_nodeOff 0
  cases f with
  | link i =>
    have := c.nodeOff_le hf
    rw [off]
    omega
  | _ =>
    rw [off]
    omega

/-- Different fields of a slab are apart. -/
theorem off_apart {f f' : SlabField} (hne : f ≠ f') :
    c.off f + 4 ≤ c.off f' ∨ c.off f' + 4 ≤ c.off f := by
  cases f with
  | link i =>
    cases f' with
    | link j =>
      rcases Nat.lt_trichotomy i j with h | rfl | h
      · have := c.nodeOff_lt h
        exact Or.inl (by rw [off, off]; omega)
      · exact absurd rfl hne
      · have := c.nodeOff_lt h
        exact Or.inr (by rw [off, off]; omega)
    | _ =>
      have := c.le_nodeOff i
      exact Or.inr (by rw [off, off]; omega)
  | _ =>
    cases f' with
    | link j =>
      have := c.le_nodeOff j
      exact Or.inl (by rw [off, off]; omega)
    | _ => first | exact absurd rfl hne | (rw [off, off]; omega)

/-- A field and an object of a slab are apart. -/
theorem off_object (f : SlabField) (i : Nat) :
    c.off f + 4 ≤ c.nodeOff i + 4 ∨ c.nodeOff i + 4 + c.objectSize.toNat ≤ c.off f := by
  cases f with
  | link j =>
    rcases Nat.lt_or_ge i j with h | h
    · exact Or.inr (c.nodeOff_lt h)
    · rcases Nat.eq_or_lt_of_le h with rfl | h
      · exact Or.inl le_rfl
      · have := c.nodeOff_lt h
        exact Or.inl (by rw [off]; omega)
  | _ =>
    have := c.le_nodeOff i
    exact Or.inl (by rw [off]; omega)

/-! ## Addresses -/

theorem addr_toNat {b : Ptr} {f : SlabField} (hb : b.toNat + c.size < 2 ^ 32) (hf : c.Valid f) :
    (c.addr b f).toNat = b.toNat + c.off f := by
  have := off_le hf
  rw [addr, BitVec.toNat_add, BitVec.toNat_ofNat, Nat.mod_eq_of_lt (by omega : c.off f < 2 ^ 32),
    Nat.mod_eq_of_lt (by omega)]

theorem object_toNat {b : Ptr} {i : Nat} (hb : b.toNat + c.size < 2 ^ 32) (hi : i < c.num) :
    (c.object b i).toNat = b.toNat + c.nodeOff i + 4 := by
  have hle := c.nodeOff_le hi
  have hnode : (c.node b i).toNat = b.toNat + c.nodeOff i := addr_toNat (f := .link i) hb hi
  rw [object, nodeUserData, BitVec.toNat_add, hnode]
  change (_ + 4) % 2 ^ 32 = _
  exact Nat.mod_eq_of_lt (by omega)

theorem slabNext_eq (b : Ptr) : slabNext b = c.addr b .next := (BitVec.add_zero b).symm

/-- Between two objects there is the link of the higher one. -/
theorem object_order {slabs : List Ptr} (hsep : c.Separate slabs) {b b' : Ptr} (hb : b ∈ slabs)
    (hb' : b' ∈ slabs) {i i' : Nat} (hi : i < c.num) (hi' : i' < c.num)
    (hne : ¬ (b = b' ∧ i = i')) :
    (c.object b i).toNat + c.objectSize.toNat + 4 ≤ (c.object b' i').toNat ∨
      (c.object b' i').toNat + c.objectSize.toNat + 4 ≤ (c.object b i).toNat := by
  rw [object_toNat (hsep.lt b hb) hi, object_toNat (hsep.lt b' hb') hi']
  have hle := c.nodeOff_le hi
  have hle' := c.nodeOff_le hi'
  by_cases hbb : b = b'
  · subst hbb
    rcases Nat.lt_or_gt_of_ne fun h => hne ⟨rfl, h⟩ with hlt | hlt
    · have := c.nodeOff_lt hlt
      omega
    · have := c.nodeOff_lt hlt
      omega
  · rcases hsep.apart b hb b' hb' hbb with h | h <;> simp only [block] at h <;> omega

/-- Objects are told apart by their slab and number. -/
theorem object_inj {slabs : List Ptr} (hsep : c.Separate slabs) {b b' : Ptr} (hb : b ∈ slabs)
    (hb' : b' ∈ slabs) {i i' : Nat} (hi : i < c.num) (hi' : i' < c.num)
    (h : c.object b i = c.object b' i') : b = b' ∧ i = i' := by
  by_contra hne
  have horder := object_order hsep hb hb' hi hi' hne
  rw [h] at horder
  omega

/-- Different objects have no byte in common. -/
theorem object_apart {slabs : List Ptr} (hsep : c.Separate slabs) {b b' x : Ptr} (hb : b ∈ slabs)
    (hb' : b' ∈ slabs) {i i' : Nat} (hi : i < c.num) (hi' : i' < c.num)
    (hne : c.object b i ≠ c.object b' i') (hx : c.InObject (c.object b i) x)
    (hx' : c.InObject (c.object b' i') x) : False := by
  have horder := object_order hsep hb hb' hi hi' (by rintro ⟨rfl, rfl⟩; exact hne rfl)
  rw [InObject] at hx hx'
  omega

theorem object_ne_null {b : Ptr} {i : Nat} (hb : b.toNat + c.size < 2 ^ 32) (hi : i < c.num) :
    c.object b i ≠ null := by
  intro h
  have hto := object_toNat hb hi
  rw [h] at hto
  change 0 = _ at hto
  omega

theorem node_ne_null {b : Ptr} {i : Nat} (hb : b.toNat + c.size < 2 ^ 32) (hi : i < c.num) :
    c.node b i ≠ null := by
  intro h
  have hto : (c.node b i).toNat = b.toNat + c.nodeOff i := addr_toNat (f := .link i) hb hi
  have := c.le_nodeOff i
  rw [h] at hto
  change 0 = _ at hto
  omega

/-- The bytes of an object are in its slab. -/
theorem InObject.has {b x : Ptr} {i : Nat} (hb : b.toNat + c.size < 2 ^ 32) (hi : i < c.num)
    (hx : c.InObject (c.object b i) x) : (c.block b).Has x := by
  have hle := c.nodeOff_le hi
  rw [InObject, object_toNat hb hi] at hx
  exact ⟨by simp only [block]; omega, by simp only [block]; omega⟩

/-! ## Loads and stores -/

section Stores

variable {slabs : List Ptr} (hsep : c.Separate slabs) {b b' : Ptr} {f f' : SlabField}
  {s : SlabState} {v : Word}

include hsep

/-- **A store to a field** is seen by that field only. -/
theorem load_store (hb : b ∈ slabs) (hb' : b' ∈ slabs) (hf : c.Valid f) (hf' : c.Valid f') :
    (s.store (c.addr b f) v).load (c.addr b' f') =
      if b' = b ∧ f' = f then v else s.load (c.addr b' f') := by
  have hle := off_le hf
  have hle' := off_le hf'
  have hlt := hsep.lt b hb
  have hlt' := hsep.lt b' hb'
  split
  · rename_i h
    obtain ⟨rfl, rfl⟩ := h
    exact load32_store32 _ _ _
  · rename_i hne
    refine load32_store32_of_toNat (by rw [addr_toNat hlt hf]; omega)
      (by rw [addr_toNat hlt' hf']; omega) ?_
    rw [addr_toNat hlt hf, addr_toNat hlt' hf']
    by_cases hbb : b = b'
    · subst hbb
      have := off_apart (c := c) fun h : f = f' => hne ⟨rfl, h.symm⟩
      omega
    · rcases hsep.apart b hb b' hb' hbb with h | h <;> simp only [block] at h <;> omega

theorem load_store_self (hb : b ∈ slabs) {g : SlabField} (hf : c.Valid f) (hg : c.Valid g) :
    (s.store (c.addr b f) v).load (c.addr b g) = if g = f then v else s.load (c.addr b g) := by
  rw [load_store hsep hb hb hf hg]
  exact if_congr (and_iff_right rfl) rfl rfl

theorem load_store_of_ne (hb : b ∈ slabs) (f g : SlabField) (hf : c.Valid f) (hg : c.Valid g)
    (hne : g ≠ f) : (s.store (c.addr b f) v).load (c.addr b g) = s.load (c.addr b g) := by
  rw [load_store_self hsep hb hf hg, if_neg hne]

/-- **A store to a field changes no object.** -/
theorem store_object (hb : b ∈ slabs) (hb' : b' ∈ slabs) (hf : c.Valid f) {i : Nat}
    (hi : i < c.num) {x : Ptr} (hx : c.InObject (c.object b' i) x) :
    (s.store (c.addr b f) v).heap.mem x = s.heap.mem x := by
  have hle := off_le hf
  have hle' := c.nodeOff_le hi
  have hlt := hsep.lt b hb
  have hlt' := hsep.lt b' hb'
  rw [InObject, object_toNat hlt' hi] at hx
  refine store32_of_toNat (by rw [addr_toNat hlt hf]; omega) ?_
  rw [addr_toNat hlt hf]
  by_cases hbb : b = b'
  · subst hbb
    have := off_object (c := c) f i
    omega
  · rcases hsep.apart b hb b' hb' hbb with h | h <;> simp only [block] at h <;> omega

/-- A field is in its slab's allocation. -/
theorem load_congr {m : Mem} (hb : b ∈ slabs) (hf : c.Valid f)
    (h : ∀ x, (c.block b).Has x → m x = s.heap.mem x) :
    load32 m (c.addr b f) = s.load (c.addr b f) := by
  have hle := off_le hf
  have hlt := hsep.lt b hb
  refine load32_congr_toNat (by rw [addr_toNat hlt hf]; omega) fun x hx hx' => h x ?_
  rw [addr_toNat hlt hf] at hx hx'
  exact ⟨by simp only [block]; omega, by simp only [block]; omega⟩

end Stores

end SlabShape

/-! ## The representation -/

/-- Slab `b` with free nodes `fr`, in the order of its free list. -/
structure SlabOk (c : SlabShape) (s : SlabState) (b : Ptr) (fr : List Nat) : Prop where
  objectSize : s.load (slabObjectSize b) = c.objectSize
  totalObjects : s.load (slabTotalObjects b) = c.totalObjects
  freeObjects : s.load (slabFreeObjects b) = BitVec.ofNat 32 fr.length
  freeList : Linked (fun p => s.load (nodeNextFree p)) (· = null) (s.load (slabFreeList b))
    (fr.map (c.node b))
  nodup : fr.Nodup
  lt : ∀ i ∈ fr, i < c.num

/-- **The representation**: the slabs, and the free nodes of each. -/
structure CacheRepr (c : SlabShape) (s : SlabState) (slabs : List Ptr) (free : Ptr → List Nat) :
    Prop where
  sep : c.Separate slabs
  chain : Linked (fun b => s.load (slabNext b)) (· = null) s.head slabs
  ok : ∀ b ∈ slabs, SlabOk c s b (free b)
  blocks : s.heap.blocks.Perm (slabs.map c.block)

/-- No object of the slabs differs between the two. -/
def Quiet (c : SlabShape) (slabs : List Ptr) (s s' : SlabState) : Prop :=
  ∀ b ∈ slabs, ∀ i < c.num, ∀ x, c.InObject (c.object b i) x → s'.heap.mem x = s.heap.mem x

namespace SlabOk

variable {c : SlabShape} {s s' : SlabState} {b : Ptr} {fr : List Nat}

theorem length_le (h : SlabOk c s b fr) : fr.length ≤ c.num := by
  have hsub : fr ⊆ List.range c.num := fun i hi => List.mem_range.2 (h.lt i hi)
  simpa using (h.nodup.subperm hsub).length_le

/-- The two counts in the header say whether every node is free. -/
theorem idle_iff (h : SlabOk c s b fr) :
    s.load (slabFreeObjects b) = s.load (slabTotalObjects b) ↔ fr.length = c.num := by
  have hle := h.length_le
  have hlt : c.num < 2 ^ 32 := c.totalObjects.isLt
  rw [h.freeObjects, h.totalObjects, ← BitVec.toNat_inj, BitVec.toNat_ofNat,
    Nat.mod_eq_of_lt (by omega)]

/-- A slab with as many free nodes as nodes has all of them free. -/
theorem mem_of_length (h : SlabOk c s b fr) (hlen : fr.length = c.num) :
    ∀ i < c.num, i ∈ fr := by
  have hsub : fr ⊆ List.range c.num := fun i hi => List.mem_range.2 (h.lt i hi)
  have hperm : fr.Perm (List.range c.num) :=
    (h.nodup.subperm hsub).perm_of_length_le (by rw [List.length_range, hlen])
  exact fun i hi => hperm.mem_iff.2 (List.mem_range.2 hi)

/-- Only the fields of the slab matter, and of these not the link to the next slab. -/
theorem frame (h : SlabOk c s b fr)
    (hsame : ∀ f, c.Valid f → f ≠ .next → s'.load (c.addr b f) = s.load (c.addr b f)) :
    SlabOk c s' b fr := by
  refine ⟨(hsame .objectSize trivial (by decide)).trans h.objectSize,
    (hsame .totalObjects trivial (by decide)).trans h.totalObjects,
    (hsame .freeObjects trivial (by decide)).trans h.freeObjects, ?_, h.nodup, h.lt⟩
  rw [show s'.load (slabFreeList b) = s.load (slabFreeList b) from
    hsame .freeList trivial (by decide)]
  refine h.freeList.congr fun p hp => ?_
  obtain ⟨i, hi, rfl⟩ := List.mem_map.1 hp
  exact hsame (.link i) (h.lt i hi) (by simp)

end SlabOk

/-! ## Stores to one slab -/

/-- The two states differ in fields of slab `b` only, and perhaps in the head. -/
structure OnlySlab (c : SlabShape) (slabs : List Ptr) (b : Ptr) (s s' : SlabState) : Prop where
  blocks : s'.heap.blocks = s.heap.blocks
  loads : ∀ b' ∈ slabs, b' ≠ b → ∀ f, c.Valid f → s'.load (c.addr b' f) = s.load (c.addr b' f)
  quiet : Quiet c slabs s s'

namespace OnlySlab

variable {c : SlabShape} {slabs : List Ptr} {b : Ptr} {s s' s'' : SlabState}

theorem refl : OnlySlab c slabs b s s :=
  ⟨rfl, fun _ _ _ _ _ => rfl, fun _ _ _ _ _ _ => rfl⟩

theorem trans (h : OnlySlab c slabs b s s') (h' : OnlySlab c slabs b s' s'') :
    OnlySlab c slabs b s s'' := by
  refine ⟨h'.blocks.trans h.blocks, fun b' hb' hne f hf => ?_, fun b' hb' i hi x hx => ?_⟩
  · rw [h'.loads b' hb' hne f hf, h.loads b' hb' hne f hf]
  · rw [h'.quiet b' hb' i hi x hx, h.quiet b' hb' i hi x hx]

theorem store (h : OnlySlab c slabs b s s') (hsep : c.Separate slabs) (hb : b ∈ slabs)
    {f : SlabField} (hf : c.Valid f) (v : Word) : OnlySlab c slabs b s (s'.store (c.addr b f) v) := by
  refine h.trans ⟨rfl, fun b' hb' hne f' hf' => ?_, fun b' hb' i hi x hx => ?_⟩
  · rw [SlabShape.load_store hsep hb hb' hf hf', if_neg fun h => hne h.1]
  · exact SlabShape.store_object hsep hb hb' hf hi hx

end OnlySlab

namespace CacheRepr

variable {c : SlabShape} {s s' : SlabState} {slabs : List Ptr} {free : Ptr → List Nat} {b : Ptr}

/-- An operation on one slab leaves the rest of the cache as it is. -/
theorem update (h : CacheRepr c s slabs free) (honly : OnlySlab c slabs b s s')
    (hhead : s'.head = s.head) (hnext : s'.load (slabNext b) = s.load (slabNext b)) {fr : List Nat}
    (hok : SlabOk c s' b fr) : CacheRepr c s' slabs (Function.update free b fr) := by
  refine ⟨h.sep, ?_, fun b' hb' => ?_, honly.blocks ▸ h.blocks⟩
  · rw [hhead]
    refine h.chain.congr fun b' hb' => ?_
    by_cases hbb : b' = b
    · rw [hbb, hnext]
    · rw [SlabShape.slabNext_eq (c := c)]
      exact honly.loads b' hb' hbb .next trivial
  · by_cases hbb : b' = b
    · rw [hbb, Function.update_self]
      exact hok
    · rw [Function.update_of_ne hbb]
      exact (h.ok b' hb').frame fun f hf _ => honly.loads b' hb' hbb f hf

/-- **Taking a node.** -/
theorem take (h : CacheRepr c s slabs free) (hb : b ∈ slabs) {i : Nat} {rest : List Nat}
    (hfr : free b = i :: rest) :
    (slabTake b s).1 = c.object b i ∧
      CacheRepr c (slabTake b s).2 slabs (Function.update free b rest) ∧
      Quiet c slabs s (slabTake b s).2 := by
  have hok := h.ok b hb
  rw [hfr] at hok
  have hsep := h.sep
  obtain ⟨hnode, -, hlist⟩ := hok.freeList
  have hload : ∀ f, c.Valid f → (slabTake b s).2.load (c.addr b f) =
      if f = .freeObjects then s.load (slabFreeObjects b) - 1
      else if f = .freeList then s.load (c.node b i) else s.load (c.addr b f) := by
    intro f hf
    rw [slabTake, hnode]
    change ((s.store (c.addr b .freeList) _).store (c.addr b .freeObjects) _).load _ = _
    rw [SlabShape.load_store_self hsep hb (f := .freeObjects) trivial hf,
      SlabShape.load_store_self hsep hb (f := .freeList) trivial hf]
    refine if_congr Iff.rfl (congrArg (· - 1) ?_) rfl
    change (s.store (c.addr b .freeList) _).load (c.addr b .freeObjects) = _
    rw [SlabShape.load_store_of_ne hsep hb .freeList .freeObjects trivial trivial (by decide)]
    rfl
  have honly : OnlySlab c slabs b s (slabTake b s).2 :=
    (OnlySlab.refl.store hsep hb (f := .freeList) trivial _).store hsep hb (f := .freeObjects)
      trivial _
  refine ⟨by rw [slabTake, hnode]; rfl, h.update honly rfl ?_ ?_, honly.quiet⟩
  · rw [SlabShape.slabNext_eq (c := c)]
    exact hload .next trivial
  · refine ⟨(hload .objectSize trivial).trans hok.objectSize,
      (hload .totalObjects trivial).trans hok.totalObjects, ?_, ?_, (List.nodup_cons.1 hok.nodup).2,
      fun j hj => hok.lt j (List.mem_cons_of_mem i hj)⟩
    · refine (hload .freeObjects trivial).trans ?_
      rw [if_pos rfl, hok.freeObjects, List.length_cons, BitVec.ofNat_add]
      exact BitVec.add_sub_cancel _ _
    · rw [show (slabTake b s).2.load (slabFreeList b) = s.load (c.node b i) from
        hload .freeList trivial]
      refine Linked.congr hlist fun p hp => ?_
      obtain ⟨j, hj, rfl⟩ := List.mem_map.1 hp
      exact hload (.link j) (hok.lt j (List.mem_cons_of_mem i hj))

/-- **Putting a node back.** -/
theorem give (h : CacheRepr c s slabs free) (hb : b ∈ slabs) {i : Nat} (hi : i < c.num)
    (hfr : i ∉ free b) :
    CacheRepr c (slabGive b (c.object b i) s) slabs (Function.update free b (i :: free b)) ∧
      Quiet c slabs s (slabGive b (c.object b i) s) := by
  have hok := h.ok b hb
  have hsep := h.sep
  have hnode : c.object b i - 4 = c.node b i := BitVec.add_sub_cancel _ _
  have hload : ∀ f, c.Valid f → (slabGive b (c.object b i) s).load (c.addr b f) =
      if f = .freeObjects then s.load (slabFreeObjects b) + 1
      else if f = .freeList then c.node b i
      else if f = .link i then s.load (slabFreeList b) else s.load (c.addr b f) := by
    intro f hf
    rw [slabGive, hnode]
    change (((s.store (c.addr b (.link i)) _).store (c.addr b .freeList) _).store
      (c.addr b .freeObjects) _).load _ = _
    rw [SlabShape.load_store_self hsep hb (f := .freeObjects) trivial hf,
      SlabShape.load_store_self hsep hb (f := .freeList) trivial hf,
      SlabShape.load_store_self hsep hb (f := .link i) hi hf]
    refine if_congr Iff.rfl (congrArg (· + 1) ?_) rfl
    change ((s.store (c.addr b (.link i)) _).store (c.addr b .freeList) _).load
      (c.addr b .freeObjects) = _
    rw [SlabShape.load_store_of_ne hsep hb .freeList .freeObjects trivial trivial (by decide),
      SlabShape.load_store_of_ne hsep hb (.link i) .freeObjects hi trivial (by simp)]
    rfl
  have honly : OnlySlab c slabs b s (slabGive b (c.object b i) s) := by
    rw [slabGive, hnode]
    exact ((OnlySlab.refl.store hsep hb (f := .link i) hi _).store hsep hb (f := .freeList)
      trivial _).store hsep hb (f := .freeObjects) trivial _
  refine ⟨h.update honly rfl ?_ ?_, honly.quiet⟩
  · rw [SlabShape.slabNext_eq (c := c)]
    exact hload .next trivial
  · refine ⟨(hload .objectSize trivial).trans hok.objectSize,
      (hload .totalObjects trivial).trans hok.totalObjects, ?_, ⟨hload .freeList trivial, ?_, ?_⟩,
      List.nodup_cons.2 ⟨hfr, hok.nodup⟩, fun j hj => ?_⟩
    · refine (hload .freeObjects trivial).trans ?_
      rw [if_pos rfl, hok.freeObjects, List.length_cons, BitVec.ofNat_add]
      rfl
    · exact SlabShape.node_ne_null (hsep.lt b hb) hi
    · -- the node points at what was the first, and the others as before
      have hlink := hload (.link i) hi
      rw [if_neg (by simp), if_neg (by simp), if_pos rfl] at hlink
      change Linked _ _ ((slabGive b (c.object b i) s).load (c.addr b (.link i))) _
      rw [hlink]
      refine hok.freeList.congr fun p hp => ?_
      obtain ⟨j, hj, rfl⟩ := List.mem_map.1 hp
      have hji : j ≠ i := fun h => hfr (h ▸ hj)
      refine (hload (.link j) (hok.lt j hj)).trans ?_
      rw [if_neg (by simp), if_neg (by simp), if_neg (by simpa using hji)]
      rfl
    · rcases List.mem_cons.1 hj with rfl | hj
      · exact hi
      · exact hok.lt j hj

end CacheRepr

/-! ## Adding a slab -/

namespace SlabShape

variable {c : SlabShape}

/-- The size of a slab, as `slab_alloc_new` computes it. -/
def sizeWord (c : SlabShape) : Word := slabHeaderSize + (4 + c.objectSize) * c.totalObjects

theorem sizeWord_toNat : c.sizeWord.toNat = c.size := by
  have hfits := c.fits
  have hmul : 4 + c.objectSize.toNat ≤ (4 + c.objectSize.toNat) * c.num :=
    Nat.le_mul_of_pos_right _ c.totalObjects_pos
  have hadd : (4 + c.objectSize).toNat = 4 + c.objectSize.toNat := by
    rw [BitVec.toNat_add]
    change (4 + _) % 2 ^ 32 = _
    exact Nat.mod_eq_of_lt (by rw [num] at hmul; omega)
  rw [sizeWord, BitVec.toNat_add, BitVec.toNat_mul, hadd, size, num,
    Nat.mod_eq_of_lt (by omega : (4 + c.objectSize.toNat) * c.totalObjects.toNat < 2 ^ 32)]
  exact Nat.mod_eq_of_lt hfits

theorem node_succ (b : Ptr) (i : Nat) : c.node b i + (4 + c.objectSize) = c.node b (i + 1) := by
  have hoff : c.nodeOff (i + 1) = c.nodeOff i + (4 + c.objectSize.toNat) := by
    rw [nodeOff, nodeOff, Nat.mul_succ, ← Nat.add_assoc]
  rw [node, node, addr, addr, off, off, hoff, BitVec.ofNat_add, BitVec.ofNat_add 4,
    BitVec.ofNat_toNat, BitVec.setWidth_eq, BitVec.add_assoc]
  rfl

theorem node_zero (b : Ptr) : c.node b 0 = b + slabHeaderSize := by
  rw [node, addr, off, nodeOff, Nat.mul_zero]
  rfl

end SlabShape

/-- **The loop of `slab_alloc_new`** links `k` nodes from node `j` on. -/
theorem linkNodes_spec {c : SlabShape} {slabs : List Ptr} (hsep : c.Separate slabs) {b : Ptr}
    (hb : b ∈ slabs) (k : Nat) (j : Nat) (hk : j + k < c.num) (s : SlabState) :
    (linkNodes (4 + c.objectSize) k (c.node b j) s).1 = c.node b (j + k) ∧
    OnlySlab c slabs b s (linkNodes (4 + c.objectSize) k (c.node b j) s).2 ∧
    (linkNodes (4 + c.objectSize) k (c.node b j) s).2.head = s.head ∧
    (∀ i, j ≤ i → i < j + k →
      (linkNodes (4 + c.objectSize) k (c.node b j) s).2.load (c.node b i) = c.node b (i + 1)) ∧
    (∀ f, c.Valid f → (∀ i, j ≤ i → f ≠ .link i) →
      (linkNodes (4 + c.objectSize) k (c.node b j) s).2.load (c.addr b f) =
        s.load (c.addr b f)) ∧
    (∀ i < j, (linkNodes (4 + c.objectSize) k (c.node b j) s).2.load (c.node b i) =
      s.load (c.node b i)) := by
  induction k generalizing j s with
  | zero => exact ⟨rfl, .refl, rfl, fun i hi hlt => by omega, fun _ _ _ => rfl, fun _ _ => rfl⟩
  | succ k ih =>
    have hj : c.Valid (.link j) := show j < c.num by omega
    obtain ⟨hlast, honly, hhead, hlinks, hfields, hbefore⟩ := ih (j + 1) (by omega)
      (s.store (c.node b j) (c.node b (j + 1)))
    rw [linkNodes, SlabShape.node_succ]
    refine ⟨hlast.trans (by rw [Nat.add_right_comm, Nat.add_assoc]),
      (OnlySlab.refl.store hsep hb hj _).trans honly, hhead, fun i hi hlt => ?_,
      fun f hf hne => ?_, fun i hi => ?_⟩
    · rcases Nat.eq_or_lt_of_le hi with rfl | hi
      · refine (hbefore j (Nat.lt_succ_self j)).trans ?_
        exact (SlabShape.load_store_self hsep hb hj hj).trans (if_pos rfl)
      · exact hlinks i hi (by omega)
    · refine (hfields f hf fun i hi => hne i (by omega)).trans ?_
      exact (SlabShape.load_store_self hsep hb hj hf).trans (if_neg (hne j le_rfl))
    · refine (hbefore i (by omega)).trans ?_
      refine (SlabShape.load_store_self hsep hb hj (show c.Valid (.link i) from ?_)).trans
        (if_neg ?_)
      · exact show i < c.num by omega
      · simp only [SlabField.link.injEq]
        omega

namespace CacheRepr

variable {c : SlabShape} {s s' : SlabState} {slabs : List Ptr} {free : Ptr → List Nat} {b : Ptr}

theorem block_mem (h : CacheRepr c s slabs free) (hb : b ∈ slabs) : c.block b ∈ s.heap.blocks :=
  h.blocks.mem_iff.2 (List.mem_map_of_mem hb)

/-- Bytes outside the allocations of the slabs do not matter. -/
theorem load_of_keeps (h : CacheRepr c s slabs free) (hb : b ∈ slabs)
    (hkeep : Allocator.Keeps s.heap.blocks s.heap.mem s'.heap.mem) {f : SlabField} (hf : c.Valid f) :
    s'.load (c.addr b f) = s.load (c.addr b f) :=
  SlabShape.load_congr h.sep hb hf (hkeep _ (h.block_mem hb))

theorem quiet_of_keeps (h : CacheRepr c s slabs free)
    (hkeep : Allocator.Keeps s.heap.blocks s.heap.mem s'.heap.mem) : Quiet c slabs s s' :=
  fun b hb _ hi x hx => hkeep _ (h.block_mem hb) x (hx.has (h.sep.lt b hb) hi)

theorem frame (h : CacheRepr c s slabs free) (hhead : s'.head = s.head)
    (hblocks : s'.heap.blocks = s.heap.blocks)
    (hloads : ∀ b ∈ slabs, ∀ f, c.Valid f → s'.load (c.addr b f) = s.load (c.addr b f)) :
    CacheRepr c s' slabs free := by
  refine ⟨h.sep, ?_, fun b hb => (h.ok b hb).frame fun f hf _ => hloads b hb f hf,
    hblocks ▸ h.blocks⟩
  rw [hhead]
  refine h.chain.congr fun b hb => ?_
  rw [SlabShape.slabNext_eq (c := c)]
  exact hloads b hb .next trivial

/-- A block the allocator hands out is a slab apart from the others. -/
theorem separate_cons (h : CacheRepr c s slabs free) (hb : b ≠ null)
    (hend : b.toNat + c.size < 2 ^ 32)
    (hfresh : ∀ r ∈ s.heap.blocks, (c.block b).Apart r) : c.Separate (b :: slabs) := by
  have hapart : ∀ b' ∈ slabs, (c.block b).Apart (c.block b') :=
    fun b' hb' => hfresh _ (h.block_mem hb')
  refine ⟨fun b' hb' => ?_, fun b' hb' => ?_, fun b' hb' b'' hb'' hne => ?_⟩
  · rcases List.mem_cons.1 hb' with rfl | hb'
    · exact hb
    · exact h.sep.ne_null b' hb'
  · rcases List.mem_cons.1 hb' with rfl | hb'
    · exact hend
    · exact h.sep.lt b' hb'
  · rcases List.mem_cons.1 hb' with h' | h' <;> rcases List.mem_cons.1 hb'' with h'' | h''
    · exact absurd (h'.trans h''.symm) hne
    · exact h' ▸ hapart b'' h''
    · exact h'' ▸ (hapart b' h').symm
    · exact h.sep.apart b' h' b'' h'' hne

theorem notMem_of_fresh (h : CacheRepr c s slabs free)
    (hfresh : ∀ r ∈ s.heap.blocks, (c.block b).Apart r) : b ∉ slabs := by
  intro hb
  have hsize : 20 ≤ c.size := Nat.le_add_right _ _
  rcases hfresh _ (h.block_mem hb) with h | h <;> simp only [SlabShape.block] at h <;> omega

end CacheRepr

/-- The header that `slab_alloc_new` writes. -/
def initHeader (c : SlabShape) (slab : Ptr) (s : SlabState) : SlabState :=
  let s := s.store (c.addr slab .objectSize) c.objectSize
  let s := s.store (c.addr slab .totalObjects) c.totalObjects
  let s := s.store (c.addr slab .freeObjects) c.totalObjects
  let s := s.store (c.addr slab .next) s.head
  SlabState.store ⟨s.heap, slab⟩ (c.addr slab .freeList) (c.node slab 0)

/-- The fields of that header. -/
theorem initHeader_load {c : SlabShape} {slabs : List Ptr} (hsep : c.Separate slabs) {b : Ptr}
    (hb : b ∈ slabs) (s : SlabState) :
    (initHeader c b s).load (c.addr b .objectSize) = c.objectSize ∧
    (initHeader c b s).load (c.addr b .totalObjects) = c.totalObjects ∧
    (initHeader c b s).load (c.addr b .freeObjects) = c.totalObjects ∧
    (initHeader c b s).load (c.addr b .next) = s.head ∧
    (initHeader c b s).load (c.addr b .freeList) = c.node b 0 := by
  -- a later store is to another field
  have hne := fun (t : SlabState) v f g (hf : c.Valid f) (hg : c.Valid g) (h : g ≠ f) =>
    SlabShape.load_store_of_ne hsep (s := t) (v := v) hb f g hf hg h
  rw [initHeader]
  refine ⟨?_, ?_, ?_, ?_, load32_store32 _ _ _⟩
  · refine (hne _ _ .freeList .objectSize trivial trivial (by decide)).trans ?_
    refine (hne _ _ .next .objectSize trivial trivial (by decide)).trans ?_
    refine (hne _ _ .freeObjects .objectSize trivial trivial (by decide)).trans ?_
    refine (hne _ _ .totalObjects .objectSize trivial trivial (by decide)).trans ?_
    exact load32_store32 _ _ _
  · refine (hne _ _ .freeList .totalObjects trivial trivial (by decide)).trans ?_
    refine (hne _ _ .next .totalObjects trivial trivial (by decide)).trans ?_
    refine (hne _ _ .freeObjects .totalObjects trivial trivial (by decide)).trans ?_
    exact load32_store32 _ _ _
  · refine (hne _ _ .freeList .freeObjects trivial trivial (by decide)).trans ?_
    refine (hne _ _ .next .freeObjects trivial trivial (by decide)).trans ?_
    exact load32_store32 _ _ _
  · refine (hne _ _ .freeList .next trivial trivial (by decide)).trans ?_
    exact load32_store32 _ _ _

theorem initHeader_onlySlab {c : SlabShape} {slabs : List Ptr} (hsep : c.Separate slabs) {b : Ptr}
    (hb : b ∈ slabs) (s : SlabState) : OnlySlab c slabs b s (initHeader c b s) := by
  have hstart : OnlySlab c slabs b s s := .refl
  have hsizes := ((hstart.store hsep hb (f := .objectSize) trivial c.objectSize).store hsep hb
    (f := .totalObjects) trivial c.totalObjects).store hsep hb (f := .freeObjects) trivial
    c.totalObjects
  have hnext := hsizes.store hsep hb (f := .next) trivial s.head
  -- the new head is not in the heap
  have hhead : OnlySlab c slabs b s ⟨_, b⟩ := ⟨hnext.blocks, hnext.loads, hnext.quiet⟩
  exact hhead.store hsep hb (f := .freeList) trivial (c.node b 0)

theorem slabAllocNew_eq (c : SlabShape) (A : Allocator) (s : SlabState) :
    slabAllocNew A c.objectSize c.totalObjects s =
      let b := (A.malloc c.sizeWord s.heap).1
      let s₀ : SlabState := ⟨(A.malloc c.sizeWord s.heap).2, s.head⟩
      let r := linkNodes (4 + c.objectSize) (c.num - 1) (c.node b 0) (initHeader c b s₀)
      if b = null then (null, s₀) else (b, r.2.store r.1 null) := by
  have hpred : (c.totalObjects - 1).toNat = c.num - 1 := by
    have hpos := c.totalObjects_pos
    have := c.totalObjects.isLt
    rw [BitVec.toNat_sub]
    change (2 ^ 32 - 1 + _) % 2 ^ 32 = _
    rw [SlabShape.num]
    omega
  rw [slabAllocNew, hpred]
  simp only [SlabShape.slabNext_eq (c := c), ← SlabShape.node_zero (c := c)]
  rfl

/-- A fresh slab: all its nodes are free, in order. -/
theorem slabOk_fresh {c : SlabShape} {slabs : List Ptr} (hsep : c.Separate slabs) {b : Ptr}
    (hb : b ∈ slabs) (s : SlabState) {r : Ptr × SlabState}
    (hr : r = linkNodes (4 + c.objectSize) (c.num - 1) (c.node b 0) (initHeader c b s)) :
    OnlySlab c slabs b s (r.2.store r.1 null) ∧ (r.2.store r.1 null).head = b ∧
      (r.2.store r.1 null).load (slabNext b) = s.head ∧
      SlabOk c (r.2.store r.1 null) b (List.range c.num) := by
  have hpos : 0 < c.num := c.totalObjects_pos
  have hlt : c.num - 1 < c.num := by omega
  obtain ⟨hlast, honly, hhead, hlinks, hfields, -⟩ :=
    linkNodes_spec hsep hb (c.num - 1) 0 (by omega) (initHeader c b s)
  obtain ⟨hos, hto, hfo, hnx, hfl⟩ := initHeader_load hsep hb s
  rw [← hr, Nat.zero_add] at hlast
  rw [← hr] at honly hhead hlinks hfields
  have hvalid : c.Valid (.link (c.num - 1)) := hlt
  rw [hlast]
  -- the last store is to the last link
  have hload : ∀ g, c.Valid g → g ≠ .link (c.num - 1) →
      (r.2.store (c.node b (c.num - 1)) null).load (c.addr b g) = r.2.load (c.addr b g) :=
    fun g hg hne => SlabShape.load_store_of_ne hsep hb _ g hvalid hg hne
  have hheader : ∀ g, c.Valid g → (∀ i, g ≠ .link i) →
      (r.2.store (c.node b (c.num - 1)) null).load (c.addr b g) =
        (initHeader c b s).load (c.addr b g) :=
    fun g hg hne => (hload g hg (hne _)).trans (hfields g hg fun i _ => hne i)
  refine ⟨((initHeader_onlySlab hsep hb s).trans honly).store hsep hb hvalid null, hhead, ?_,
    (hheader .objectSize trivial (by simp)).trans hos,
    (hheader .totalObjects trivial (by simp)).trans hto, ?_, ?_, List.nodup_range,
    fun i hi => List.mem_range.1 hi⟩
  · rw [SlabShape.slabNext_eq (c := c)]
    exact (hheader .next trivial (by simp)).trans hnx
  · refine (hheader .freeObjects trivial (by simp)).trans (hfo.trans ?_)
    rw [List.length_range, SlabShape.num, BitVec.ofNat_toNat, BitVec.setWidth_eq]
  · rw [show (r.2.store (c.node b (c.num - 1)) null).load (slabFreeList b) = c.node b 0 from
      (hheader .freeList trivial (by simp)).trans hfl]
    refine Linked.range (c.node b) hpos (fun i hi => ?_) ?_ fun i hi =>
      SlabShape.node_ne_null (hsep.lt b hb) hi
    · refine (hload (.link i) (show i < c.num by omega) ?_).trans
        (hlinks i (Nat.zero_le i) (by omega))
      simp only [Ne, SlabField.link.injEq]
      omega
    · exact load32_store32 _ _ _

/-- **`slab_alloc_new`** adds a slab with all nodes free at the front, or fails and leaves the cache
as it was. -/
theorem CacheRepr.allocNew {c : SlabShape} {s : SlabState} {slabs : List Ptr}
    {free : Ptr → List Nat} (h : CacheRepr c s slabs free) (A : Allocator)
    {r : Ptr × SlabState} (hr : slabAllocNew A c.objectSize c.totalObjects s = r) :
    ((A.malloc c.sizeWord s.heap).1 = null ∧ r.1 = null ∧ CacheRepr c r.2 slabs free ∧
      r.2.head = s.head ∧ r.2.heap.blocks = s.heap.blocks ∧
      Allocator.Keeps s.heap.blocks s.heap.mem r.2.heap.mem) ∨
    ((A.malloc c.sizeWord s.heap).1 ≠ null ∧ r.1 ≠ null ∧ r.1 ∉ slabs ∧
      CacheRepr c r.2 (r.1 :: slabs) (Function.update free r.1 (List.range c.num)) ∧
      Quiet c slabs s r.2) := by
  rw [slabAllocNew_eq] at hr
  obtain ⟨hkeep, hfail | ⟨hp, hend, hfresh, hblocks⟩⟩ :=
    (A.malloc_spec c.sizeWord s.heap).fail_or_ok
  · rw [show (A.malloc c.sizeWord s.heap).1 = null from hfail.1] at hr ⊢
    rw [if_pos rfl] at hr
    subst hr
    refine Or.inl ⟨rfl, rfl, h.frame rfl hfail.2 fun b hb f hf => ?_, rfl, hfail.2, hkeep⟩
    exact h.load_of_keeps hb hkeep hf
  · rw [SlabShape.sizeWord_toNat] at hend hfresh hblocks
    generalize A.malloc c.sizeWord s.heap = q at hr hkeep hp hend hfresh hblocks ⊢
    have hsep := h.separate_cons hp hend hfresh
    obtain ⟨honly, hhead, hnext, hok⟩ := slabOk_fresh hsep List.mem_cons_self ⟨q.2, s.head⟩ rfl
    have hnot := h.notMem_of_fresh hfresh
    dsimp only at hr
    rw [if_neg (show q.1 ≠ null from hp)] at hr
    subst hr
    -- what the old slabs hold is what they held before the request
    have hold : ∀ b ∈ slabs, b ≠ q.1 := fun b hb hbp => hnot (hbp ▸ hb)
    have hloads : ∀ b ∈ slabs, ∀ f, c.Valid f → _ = s.load (c.addr b f) := fun b hb f hf =>
      (honly.loads b (List.mem_cons_of_mem q.1 hb) (hold b hb) f hf).trans
        (h.load_of_keeps hb hkeep hf)
    refine Or.inr ⟨hp, hp, hnot, ⟨hsep, ?_, fun b hb => ?_, ?_⟩, fun b hb i hi x hx => ?_⟩
    · rw [hhead]
      refine ⟨rfl, hp, ?_⟩
      dsimp only
      rw [hnext]
      refine h.chain.congr fun b hb => ?_
      rw [SlabShape.slabNext_eq (c := c)]
      exact hloads b hb .next trivial
    · rcases List.mem_cons.1 hb with rfl | hb
      · rw [Function.update_self]
        exact hok
      · rw [Function.update_of_ne (hold b hb)]
        exact (h.ok b hb).frame fun f hf _ => hloads b hb f hf
    · rw [honly.blocks, hblocks]
      exact h.blocks.cons (c.block q.1)
    · exact (honly.quiet b (List.mem_cons_of_mem q.1 hb) i hi x hx).trans
        (h.quiet_of_keeps hkeep b hb i hi x hx)

end RiscyOS
