import RiscyOS.Process
import RiscyOS.Lib.Linked
import RiscyOS.Lib.Allocator

/-!
# Slab caches

`kernel/slab_allocator.c`.  A slab is one allocation: a header of five words, and then the nodes, each
a link word in front of an object.  The free nodes of a slab are a list through their link words,
and the slabs of a cache are a list through their headers.  `slab_get` takes the first node of the
first slab that has one, or adds a slab at the front; `slab_free` finds the slab by address, puts
the node back, and gives a slab back to the heap when two have nothing but free nodes.

The heap is an `Allocator`.  Accesses are at any address, aligned or not, as object sizes are.  The
loops over the slabs have fuel, `none` being a loop that has not ended after `2 ^ 32` rounds.
-/

set_option autoImplicit false

namespace RiscyOS

open Memory Allocator

/-! ## The layout -/

/-- `sizeof(slab_header_t)`. -/
def slabHeaderSize : Word := 20

/-- `&slab->next`. -/
def slabNext (slab : Ptr) : Ptr := slab

/-- `&slab->free_list`. -/
def slabFreeList (slab : Ptr) : Ptr := slab + 4

/-- `&slab->object_size`. -/
def slabObjectSize (slab : Ptr) : Ptr := slab + 8

/-- `&slab->total_objects`. -/
def slabTotalObjects (slab : Ptr) : Ptr := slab + 12

/-- `&slab->free_objects`. -/
def slabFreeObjects (slab : Ptr) : Ptr := slab + 16

/-- `&node->next_free`. -/
def nodeNextFree (node : Ptr) : Ptr := node

/-- `node->user_data`. -/
def nodeUserData (node : Ptr) : Ptr := node + 4

/-- The heap, and the variable that `head` points to. -/
structure SlabState where
  heap : Heap
  head : Ptr

namespace SlabState

/-- A load. -/
def load (s : SlabState) (a : Ptr) : Word := load32 s.heap.mem a

/-- A store. -/
def store (s : SlabState) (a : Ptr) (v : Word) : SlabState :=
  { s with heap := { s.heap with mem := store32 s.heap.mem a v } }

end SlabState

/-! ## `slab_alloc_new` -/

/-- The loop that links the nodes, `n` times from `currentNode` on: the last node is returned. -/
def linkNodes (nodeSize : Word) : Nat → Ptr → SlabState → Ptr × SlabState
  | 0, currentNode, s => (currentNode, s)
  | n + 1, currentNode, s =>
    let nextNode := currentNode + nodeSize
    linkNodes nodeSize n nextNode (s.store (nodeNextFree currentNode) nextNode)

/-- `slab_alloc_new`. -/
def slabAllocNew (A : Allocator) (objectSize numObjects : Word) (s : SlabState) : Ptr × SlabState :=
  let nodeSize := 4 + objectSize
  let slabSize := slabHeaderSize + nodeSize * numObjects
  let mem := (A.malloc slabSize s.heap).1
  let s := { s with heap := (A.malloc slabSize s.heap).2 }
  if mem = null then (null, s) else
    let slab := mem
    let s := s.store (slabObjectSize slab) objectSize
    let s := s.store (slabTotalObjects slab) numObjects
    let s := s.store (slabFreeObjects slab) numObjects
    let s := s.store (slabNext slab) s.head
    let s := { s with head := slab }
    let currentNode := mem + slabHeaderSize
    let s := s.store (slabFreeList slab) currentNode
    let r := linkNodes nodeSize (numObjects - 1).toNat currentNode s
    (slab, r.2.store (nodeNextFree r.1) null)

/-! ## `slab_get` -/

/-- The loop of `slab_get`: the first slab with a free object, or null. -/
def findFree (s : SlabState) : Nat → Ptr → Option Ptr
  | 0, _ => none
  | fuel + 1, slab =>
    if slab = null then some null
    else if 0 < s.load (slabFreeObjects slab) then some slab
    else findFree s fuel (s.load (slabNext slab))

/-- Taking the first free node of a slab. -/
def slabTake (slab : Ptr) (s : SlabState) : Ptr × SlabState :=
  let node := s.load (slabFreeList slab)
  let s := s.store (slabFreeList slab) (s.load (nodeNextFree node))
  let s := s.store (slabFreeObjects slab) (s.load (slabFreeObjects slab) - 1)
  (nodeUserData node, s)

/-- `slab_get`. -/
def slabGet (A : Allocator) (s : SlabState) : Option (Ptr × SlabState) :=
  if s.head = null then some (null, s) else
    match findFree s (2 ^ 32) s.head with
    | none => none
    | some slab =>
      if slab ≠ null then some (slabTake slab s) else
        let r := slabAllocNew A (s.load (slabObjectSize s.head))
          (s.load (slabTotalObjects s.head)) s
        if r.1 = null then some (null, r.2) else some (slabTake r.1 r.2)

/-! ## `slab_free` -/

/-- The outer loop of `slab_free`: the slab that `obj` is in, or null. -/
def findOwner (s : SlabState) (obj : Ptr) : Nat → Ptr → Option Ptr
  | 0, _ => none
  | fuel + 1, slab =>
    if slab = null then some null else
      let start := slab + slabHeaderSize
      let stop := start + (4 + s.load (slabObjectSize slab)) * s.load (slabTotalObjects slab)
      if start ≤ obj ∧ obj < stop then some slab
      else findOwner s obj fuel (s.load (slabNext slab))

/-- Putting the node of `obj` back. -/
def slabGive (slab obj : Ptr) (s : SlabState) : SlabState :=
  let node := obj - 4
  let s := s.store (nodeNextFree node) (s.load (slabFreeList slab))
  let s := s.store (slabFreeList slab) node
  s.store (slabFreeObjects slab) (s.load (slabFreeObjects slab) + 1)

/-- The variables of the inner loop of `slab_free`. -/
structure FreeScan where
  fullyFreeCount : Nat
  prev : Ptr
  freeTarget : Ptr
  freeTargetPrev : Ptr
  deriving DecidableEq

/-- The body of that loop. -/
def FreeScan.visit (s : SlabState) (v : FreeScan) (tmp : Ptr) : FreeScan :=
  if s.load (slabFreeObjects tmp) = s.load (slabTotalObjects tmp) then
    ⟨v.fullyFreeCount + 1, tmp, tmp, v.prev⟩
  else { v with prev := tmp }

/-- The inner loop of `slab_free`. -/
def scanFree (s : SlabState) : Nat → Ptr → FreeScan → Option FreeScan
  | 0, _, _ => none
  | fuel + 1, tmp, v =>
    if tmp = null then some v
    else scanFree s fuel (s.load (slabNext tmp)) (v.visit s tmp)

/-- `slab_free`. -/
def slabFree (A : Allocator) (obj : Ptr) (s : SlabState) : Option SlabState :=
  match findOwner s obj (2 ^ 32) s.head with
  | none => none
  | some slab =>
    if slab = null then some s else
      let s := slabGive slab obj s
      match scanFree s (2 ^ 32) s.head ⟨0, null, null, null⟩ with
      | none => none
      | some v =>
        if 2 ≤ v.fullyFreeCount then
          let s := s.store (slabNext v.freeTargetPrev) (s.load (slabNext v.freeTarget))
          some { s with heap := A.free v.freeTarget s.heap }
        else some s

end RiscyOS
