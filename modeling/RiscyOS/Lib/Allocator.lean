import RiscyOS.Lib.Memory

/-!
# What an allocator promises

The contract between a client and whatever hands out memory to it.  A `Heap` is the memory together
with the blocks handed out to the client and not given back.  `Malloc` is what a request may do:
fail, or hand out a block that is apart from those; either way the client's blocks keep their bytes,
while the rest of memory is the allocator's to write.  `Free` is the same for giving back.

Nothing is said about when a request fails, or where blocks lie; one thing is, that a block ends
before the end of the address space, so that the address one past it can be compared with.

An `Allocator` is a pair of functions that keep the contract.  A client that is given a different
one for every call is a client of an allocator that fails as it likes.
-/

set_option autoImplicit false

namespace Allocator

open Memory

/-- A block: where it is and how long. -/
structure Block where
  base : Word
  size : Nat
  deriving DecidableEq

/-- `x` is a byte of the block. -/
def Block.Has (r : Block) (x : Word) : Prop :=
  r.base.toNat ≤ x.toNat ∧ x.toNat < r.base.toNat + r.size

/-- The blocks have no byte in common. -/
def Block.Apart (r r' : Block) : Prop :=
  r.base.toNat + r.size ≤ r'.base.toNat ∨ r'.base.toNat + r'.size ≤ r.base.toNat

/-- The memory, and the blocks handed out. -/
structure Heap where
  mem : Mem
  blocks : List Block

/-- The blocks of `l` hold the same in both memories. -/
def Keeps (l : List Block) (m m' : Mem) : Prop := ∀ r ∈ l, ∀ x, r.Has x → m' x = m x

/-- **A request** for `size` bytes: the pointer returned, and the heap after it. -/
inductive Malloc (size : Word) (h : Heap) : Word → Heap → Prop
  | fail {m : Mem} (hm : Keeps h.blocks h.mem m) : Malloc size h 0 ⟨m, h.blocks⟩
  | ok {p : Word} {m : Mem} (hp : p ≠ 0) (hend : p.toNat + size.toNat < 2 ^ 32)
      (hfresh : ∀ r ∈ h.blocks, Block.Apart ⟨p, size.toNat⟩ r) (hm : Keeps h.blocks h.mem m) :
      Malloc size h p ⟨m, ⟨p, size.toNat⟩ :: h.blocks⟩

theorem Malloc.fail_or_ok {size p : Word} {h h' : Heap} (hm : Malloc size h p h') :
    Keeps h.blocks h.mem h'.mem ∧ (p = 0 ∧ h'.blocks = h.blocks ∨
      p ≠ 0 ∧ p.toNat + size.toNat < 2 ^ 32 ∧ (∀ r ∈ h.blocks, Block.Apart ⟨p, size.toNat⟩ r) ∧
        h'.blocks = ⟨p, size.toNat⟩ :: h.blocks) := by
  cases hm with
  | fail hm => exact ⟨hm, Or.inl ⟨rfl, rfl⟩⟩
  | ok hp hend hfresh hm => exact ⟨hm, Or.inr ⟨hp, hend, hfresh, rfl⟩⟩

/-- **Giving back** a block. -/
inductive Free (r : Block) (h : Heap) : Heap → Prop
  | mk {m : Mem} (hm : Keeps (h.blocks.erase r) h.mem m) : Free r h ⟨m, h.blocks.erase r⟩

theorem Free.blocks_and_keeps {r : Block} {h h' : Heap} (hf : Free r h h') :
    h'.blocks = h.blocks.erase r ∧ Keeps (h.blocks.erase r) h.mem h'.mem := by
  cases hf with
  | mk hm => exact ⟨rfl, hm⟩

end Allocator

/-- An allocator that keeps its promises.  What is given back is named by its address, so there has
to be one block only at that address. -/
structure Allocator where
  malloc : Memory.Word → Allocator.Heap → Memory.Word × Allocator.Heap
  free : Memory.Word → Allocator.Heap → Allocator.Heap
  malloc_spec : ∀ size h, Allocator.Malloc size h (malloc size h).1 (malloc size h).2
  free_spec : ∀ r h, r ∈ h.blocks → (∀ r' ∈ h.blocks, r'.base = r.base → r' = r) →
    Allocator.Free r h (free r.base h)

namespace Allocator

/-! ## A simple allocator

It hands out what follows the last block, as long as there is room. -/

open Memory

/-- The end of the last block, and `0x1000` if there is none. -/
def top (l : List Block) : Nat := l.foldr (fun r n => max n (r.base.toNat + r.size)) 0x1000

theorem le_top {l : List Block} {r : Block} (hr : r ∈ l) : r.base.toNat + r.size ≤ top l := by
  induction l with
  | nil => exact absurd hr List.not_mem_nil
  | cons r' l ih =>
    rcases List.mem_cons.1 hr with rfl | hr
    · exact le_max_right _ _
    · exact (ih hr).trans (le_max_left _ _)

theorem top_pos (l : List Block) : 0 < top l := by
  induction l with
  | nil => decide
  | cons r l ih => exact lt_of_lt_of_le ih (le_max_left _ _)

/-- The request. -/
def bumpMalloc (size : Word) (h : Heap) : Word × Heap :=
  if top h.blocks + size.toNat < 2 ^ 32 then
    (BitVec.ofNat 32 (top h.blocks),
      ⟨h.mem, ⟨BitVec.ofNat 32 (top h.blocks), size.toNat⟩ :: h.blocks⟩)
  else (0, h)

/-- Giving back. -/
def bumpFree (p : Word) (h : Heap) : Heap :=
  match h.blocks.find? (·.base = p) with
  | some r => ⟨h.mem, h.blocks.erase r⟩
  | none => h

/-- The two of them. -/
def bump : Allocator where
  malloc := bumpMalloc
  free := bumpFree
  malloc_spec := by
    intro size h
    rw [bumpMalloc]
    split
    · rename_i hroom
      have hto : (BitVec.ofNat 32 (top h.blocks)).toNat = top h.blocks := by
        rw [BitVec.toNat_ofNat, Nat.mod_eq_of_lt (by omega)]
      refine .ok (fun h0 => ?_) (by rwa [hto]) (fun r hr => Or.inr ?_) fun _ _ _ _ => rfl
      · have hpos := top_pos h.blocks
        exact absurd (hto.symm.trans (congrArg BitVec.toNat h0)) (Nat.ne_of_gt hpos)
      · rw [hto]
        exact le_top hr
    · exact .fail fun _ _ _ _ => rfl
  free_spec := by
    intro r h hr huniq
    rw [bumpFree]
    cases hfind : h.blocks.find? (·.base = r.base) with
    | none =>
      rw [List.find?_eq_none] at hfind
      exact absurd (hfind r hr) (by simp)
    | some r' =>
      have hbase := List.find?_some hfind
      rw [huniq r' (List.mem_of_find?_eq_some hfind) (by simpa using hbase)]
      exact .mk fun _ _ _ _ => rfl

end Allocator
