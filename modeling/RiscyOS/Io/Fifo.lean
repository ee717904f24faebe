import RiscyOS.Lib.Record

/-!
# The byte FIFO

`fifo_enqueue` and `fifo_dequeue` of `lib/fifo.s`, on the `FIFO` struct, against a bounded queue.

* `fifoEnqueue`, `fifoDequeue` — the two routines, on the memory.
* `Represents` — the queue a struct stands for: from the head to the tail, around the buffer.
* `FifoRefines` — a history of calls does to the memory what it does to a bounded queue.

The enqueue branches out on `bne head, next`, where the comment asks for `tail == head`: a byte is
stored only into a *full* buffer.  An empty one with at least two slots is never full, so nothing ever
gets in (`fifoEnqueue_empty`), and `fifo_refines_iff` follows: only the histories without an enqueue are
those of a queue.
-/

set_option autoImplicit false

namespace RiscyOS

open Memory

/-! ## The struct -/

def fifoBase : Nat := 0
def fifoHead : Nat := 4
def fifoTail : Nat := 5
def fifoSize : Nat := 6

/-- `lb`: the byte at offset `i`, sign-extended. -/
def lb (m : Mem) (p : Word) (i : Nat) : Word := (byte m p i).signExtend 32

/-! ## The routines -/

/-- `fifo_enqueue`.  `BitVec`'s remainder by zero is the dividend, as `remu`'s is. -/
def fifoEnqueue (m : Mem) (a0 a1 : Word) : Mem :=
  let t0 := word m a0 fifoBase
  let t1 := lb m a0 fifoHead
  let t2 := lb m a0 fifoTail
  let t3 := lb m a0 fifoSize
  let t4 := t0 + t2
  let t2 := (t2 + 1) % t3
  -- bne t1, t2, fifo_push_exit
  if t1 ≠ t2 then m else setByte (store8 m t4 (a1.setWidth 8)) a0 fifoTail (t2.setWidth 8)

/-- `fifo_dequeue`: the memory, and the byte in `a0`. -/
def fifoDequeue (m : Mem) (a0 : Word) : Mem × Word :=
  let t0 := word m a0 fifoBase
  let t1 := lb m a0 fifoHead
  let t2 := lb m a0 fifoTail
  if t1 = t2 then (m, 0)
  else
    let t2 := lb m a0 fifoSize
    let a0 := lb m (t1 + t0) 0
    let t1 := (t1 + 1) % t2
    -- a0 is the byte by now, so the new head is stored through it, and as a word
    (setWord m a0 fifoHead t1, a0)

/-! ## The bounded queue -/

/-- A call of one of the two. -/
inductive FifoOp where
  | enqueue (a1 : Word)
  | dequeue
  deriving DecidableEq

/-- **The queue a FIFO stands for**: the bytes from its head up to its tail, around the buffer. -/
structure Represents (m : Mem) (p : Word) (q : List Byte) : Prop where
  head_lt : (byte m p fifoHead).toNat < (byte m p fifoSize).toNat
  tail_lt : (byte m p fifoTail).toNat < (byte m p fifoSize).toNat
  length_eq : q.length = ((byte m p fifoTail).toNat + (byte m p fifoSize).toNat -
    (byte m p fifoHead).toNat) % (byte m p fifoSize).toNat
  bytes : ∀ i, (h : i < q.length) → m (word m p fifoBase +
    BitVec.ofNat 32 (((byte m p fifoHead).toNat + i) % (byte m p fifoSize).toNat)) = q[i]

/-- What a FIFO may write: its buffer, its head and its tail. -/
def fifoSpans (m : Mem) (p : Word) : List Span :=
  [⟨word m p fifoBase, (byte m p fifoSize).toNat⟩, part p fifoHead 1, part p fifoTail 1]

/-- One slot stays free, and a byte too many is ignored. -/
def offer (size : Nat) (q : List Byte) (b : Byte) : List Byte :=
  if q.length < size - 1 then q ++ [b] else q

/-- **A history of calls is that of a bounded queue** which holds `q` to begin with. -/
def FifoRefines (p : Word) : List FifoOp → Mem → List Byte → Prop
  | [], m, q => Represents m p q
  | .enqueue a1 :: ops, m, q =>
    let m' := fifoEnqueue m p a1
    Represents m p q ∧ Alters (fifoSpans m p) m m' ∧
      FifoRefines p ops m' (offer (byte m p fifoSize).toNat q (a1.setWidth 8))
  | .dequeue :: ops, m, q =>
    let r := fifoDequeue m p
    Represents m p q ∧ Alters (fifoSpans m p) m r.1 ∧ r.2.setWidth 8 = q.head?.getD 0 ∧
      FifoRefines p ops r.1 q.tail

/-! ## An empty FIFO stays empty -/

/-- Head and tail are at the start of a buffer with a slot to spare. -/
structure FifoEmpty (m : Mem) (p : Word) : Prop where
  head_eq : byte m p fifoHead = 0
  tail_eq : byte m p fifoTail = 0
  le_size : 2 ≤ (byte m p fifoSize).toNat
  size_le : (byte m p fifoSize).toNat ≤ 127

variable {m : Mem} {p : Word}

theorem FifoRefines.represents {q : List Byte} : ∀ {ops : List FifoOp}, FifoRefines p ops m q →
    Represents m p q
  | [], h => h
  | .enqueue _ :: _, h => h.1
  | .dequeue :: _, h => h.1

theorem lb_zero {i : Nat} (h : byte m p i = 0) : lb m p i = 0 := by
  rw [lb, h]
  rfl

/-- **Nothing gets into an empty FIFO**: the slot after the tail is not the head. -/
theorem fifoEnqueue_empty (h : FifoEmpty m p) (a1 : Word) : fifoEnqueue m p a1 = m := by
  have hsize : (lb m p fifoSize).toNat = (byte m p fifoSize).toNat := by
    have hle := h.size_le
    rw [lb, BitVec.toNat_signExtend, BitVec.msb_eq_decide, decide_eq_false (by omega)]
    simp only [Bool.false_eq_true, if_false, Nat.add_zero, BitVec.toNat_setWidth]
    omega
  have hne : lb m p fifoHead ≠ (lb m p fifoTail + 1) % lb m p fifoSize := by
    rw [lb_zero h.head_eq, lb_zero h.tail_eq]
    intro heq
    have hmod := congrArg BitVec.toNat heq
    rw [BitVec.toNat_umod, hsize] at hmod
    have hone : (0 + 1 : Word).toNat % (byte m p fifoSize).toNat = 1 := Nat.mod_eq_of_lt h.le_size
    rw [hone] at hmod
    exact absurd hmod (by decide)
  exact if_pos hne

/-- So there is nothing to take out either. -/
theorem fifoDequeue_empty (h : FifoEmpty m p) : fifoDequeue m p = (m, 0) :=
  if_pos (by rw [lb_zero h.head_eq, lb_zero h.tail_eq])

theorem FifoEmpty.represents (h : FifoEmpty m p) : Represents m p [] := by
  have hpos := h.le_size
  have hhead : (byte m p fifoHead).toNat = 0 := by rw [h.head_eq]; rfl
  have htail : (byte m p fifoTail).toNat = 0 := by rw [h.tail_eq]; rfl
  refine ⟨by omega, by omega, ?_, fun i hi => absurd hi (Nat.not_lt_zero i)⟩
  rw [hhead, htail, Nat.zero_add, Nat.sub_zero, Nat.mod_self]
  exact List.length_nil

/-- An empty FIFO holds nothing else. -/
theorem FifoEmpty.eq_nil (h : FifoEmpty m p) {q : List Byte} (hq : Represents m p q) : q = [] := by
  rw [← List.length_eq_zero_iff, hq.length_eq, h.represents.length_eq.symm]
  exact List.length_nil

/-- **The byte FIFO is a bounded queue** exactly for the histories that put nothing into it. -/
theorem fifo_refines_iff (m : Mem) (p : Word) (h : FifoEmpty m p) (ops : List FifoOp) :
    FifoRefines p ops m [] ↔ ∀ op ∈ ops, op = .dequeue := by
  induction ops with
  | nil => exact iff_of_true h.represents (by simp)
  | cons op ops ih =>
    rw [List.forall_mem_cons]
    cases op with
    | enqueue a1 =>
      refine iff_of_false ?_ fun hall => absurd hall.1 (by simp)
      rintro ⟨-, -, hrest⟩
      rw [fifoEnqueue_empty h] at hrest
      -- the queue has the byte, the memory has not
      have hnil := h.eq_nil hrest.represents
      have hroom : ([] : List Byte).length < (byte m p fifoSize).toNat - 1 := by
        have := h.le_size
        rw [List.length_nil]
        omega
      rw [offer, if_pos hroom] at hnil
      exact absurd hnil (by simp)
    | dequeue =>
      rw [← ih, FifoRefines, fifoDequeue_empty h]
      constructor
      · exact fun hall => ⟨rfl, hall.2.2.2⟩
      · exact fun hall => ⟨h.represents, .refl _ _, rfl, hall.2⟩

/-! ## An example -/

/-- The struct of the receive queue as `tty_init` leaves it, at `0x1000`, with its buffer at `0x2000`. -/
def rxMem : Mem :=
  setByte (setByte (setByte (setWord (fun _ => 0) 0x1000 fifoBase 0x2000) 0x1000 fifoHead 0) 0x1000
    fifoTail 0) 0x1000 fifoSize 100

theorem rxMem_empty : FifoEmpty rxMem 0x1000 :=
  ⟨by decide +kernel, by decide +kernel, by decide +kernel, by decide +kernel⟩

/-- Asked twice for a byte, it has none to give. -/
theorem fifo_refines_rxMem : FifoRefines 0x1000 [.dequeue, .dequeue] rxMem [] :=
  (fifo_refines_iff rxMem 0x1000 rxMem_empty _).2 (by decide)

/-- One byte is offered to a queue of a hundred, and lost. -/
theorem fifo_drops_byte :
    FifoEmpty rxMem 0x1000 ∧ ¬ FifoRefines 0x1000 [.enqueue 65, .dequeue] rxMem [] := by
  refine ⟨rxMem_empty, ?_⟩
  rintro ⟨-, -, hrest⟩
  rw [fifoEnqueue_empty rxMem_empty] at hrest
  have hnil := rxMem_empty.eq_nil hrest.represents
  exact absurd hnil (by decide +kernel)

end RiscyOS
