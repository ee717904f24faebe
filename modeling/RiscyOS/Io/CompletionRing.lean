import RiscyOS.Io.Scheduler
import RiscyOS.Lib.RingBuffer

/-!
# The completion ring

`sd_irsq_handler` puts the status of a transfer on `g_sd_irq_ring` and `io_sched_pump` takes it off.  The
scheduler never has more than one transfer going on, and the handler never writes anything but 0, so in
`RiscyOS.Io.Scheduler` there is little to see of the ring.  Here it is on its own, for any status and with
as many completions pending as it has slots.

* `IrqRing.push`, `IrqRing.pop` — what the two functions do to the ring, which is all they do to it
  (`sdIrsqHandler_ring`, `ioSchedPumpTest_ring`).
* `IrqRun` — any number of either, in any order, with at most `IRQ_RING_SIZE` completions pending.
* `irq_ring_fifo` — then the ring is a queue.  The counters go around at 256, and may do so at any time.
-/

set_option autoImplicit false

namespace RiscyOS

open Memory RingBuffer

/-! ## The ring -/

/-- `sd_irsq_handler` behind the `switch`, with any status. -/
def IrqRing.push (ring : IrqRing) (status : Byte) : IrqRing :=
  let idx := irqIdx ring.head
  ⟨ring.head + 1, ring.tail, fun i => if i = idx then status else ring.status i⟩

/-- `io_sched_pump`, from the test of the loop to the call of the callback: the status and what is left.
`none` is an empty ring. -/
def IrqRing.pop (ring : IrqRing) : Option (Byte × IrqRing) :=
  if ring.head ≠ ring.tail then
    some (ring.status (irqIdx ring.tail), ⟨ring.head, ring.tail + 1, ring.status⟩)
  else none

section Model

variable {κ σ : Type} (s : IoState κ σ)

theorem sdIrsqHandler_ring : (sdIrsqHandler s).gSdIrqRing = s.gSdIrqRing.push 0 := by
  rw [sdIrsqHandler]
  split <;> rfl

/-- The pump hands the status to the callback, or leaves. -/
theorem ioSchedPumpTest_ring : ioSchedPumpTest s = match s.gSdIrqRing.pop with
    | none => { s with pump := .outside }
    | some (status, ring) =>
      let req := s.gIoSched.inFlight
      { s with
        gSdIrqRing := ring
        gIoSched.inFlight := null
        gIoSched.state := .idle
        pump := .callback req
        log := { s.log with
          called := s.log.called ++ [⟨(s.req req).callback, (s.req req).ctx, status, s.rx⟩] } } := by
  rw [ioSchedPumpTest, IrqRing.pop]
  split <;> rfl

end Model

/-! ## Runs -/

/-- **A run**, with the statuses pushed and those popped so far.  The ring is empty to begin with, wherever
its counters are, and never has more than `IRQ_RING_SIZE` completions pending. -/
inductive IrqRun : IrqRing → List Byte → List Byte → Prop
  | start (counter : Byte) (status : Byte → Byte) : IrqRun ⟨counter, counter, status⟩ [] []
  | push {ring : IrqRing} {pushed popped : List Byte} (h : IrqRun ring pushed popped) (status : Byte)
      (hroom : pushed.length - popped.length < irqRingSize.toNat) :
      IrqRun (ring.push status) (pushed ++ [status]) popped
  | pop {ring ring' : IrqRing} {pushed popped : List Byte} {status : Byte} (h : IrqRun ring pushed popped)
      (hpop : ring.pop = some (status, ring')) : IrqRun ring' pushed (popped ++ [status])

/-- **The ring is a FIFO**: the statuses are popped in the order in which they have been pushed, the counters
are as far apart as completions are pending, and it is seen as empty when none is. -/
structure IrqFifo (ring : IrqRing) (pushed popped : List Byte) : Prop where
  order : popped <+: pushed
  pending : (ring.head - ring.tail).toNat = pushed.length - popped.length
  empty : ring.pop = none ↔ pushed = popped

/-! ## The queue in the ring -/

/-- The ring holds the queue. -/
def IrqRing.Holds (ring : IrqRing) (q : List Byte) : Prop := RingBuffer.Holds 3 ring.head ring.tail ring.status q

namespace IrqRing

variable {ring ring' : IrqRing} {q : List Byte} {status : Byte}

theorem irqIdx_eq (counter : Byte) : irqIdx counter = slot 3 counter := rfl

theorem Holds.push (h : ring.Holds q) (hroom : q.length < irqRingSize.toNat) :
    (ring.push status).Holds (q ++ [status]) :=
  RingBuffer.Holds.push h (by decide) hroom status

theorem Holds.pop_none (h : ring.Holds q) : ring.pop = none ↔ q = [] := by
  rw [← RingBuffer.Holds.eq_iff h (by decide), pop]
  by_cases heq : ring.head = ring.tail
  · rw [if_neg (not_not.2 heq)]
    exact iff_of_true rfl heq
  · rw [if_pos heq]
    exact iff_of_false (Option.some_ne_none _) heq

/-- What is popped is the first of the queue. -/
theorem Holds.pop_some (h : ring.Holds q) (hpop : ring.pop = some (status, ring')) :
    ∃ q', q = status :: q' ∧ ring'.Holds q' := by
  cases q with
  | nil =>
    rw [h.pop_none.2 rfl] at hpop
    cases hpop
  | cons v q' =>
    obtain ⟨hfirst, hrest⟩ := RingBuffer.Holds.pop h
    have hne : ring.head ≠ ring.tail := fun heq =>
      List.cons_ne_nil v q' ((RingBuffer.Holds.eq_iff h (by decide)).1 heq)
    rw [pop, if_pos hne, irqIdx_eq, hfirst, Option.some.injEq, Prod.mk.injEq] at hpop
    obtain ⟨rfl, rfl⟩ := hpop
    exact ⟨q', rfl, hrest⟩

end IrqRing

/-- **Along a run** the ring holds what has been pushed and not been popped. -/
theorem IrqRun.holds {ring : IrqRing} {pushed popped : List Byte} (h : IrqRun ring pushed popped) :
    ∃ q, pushed = popped ++ q ∧ ring.Holds q := by
  induction h with
  | start counter status => exact ⟨[], rfl, RingBuffer.Holds.empty counter status⟩
  | push h status hroom ih =>
    obtain ⟨q, rfl, hq⟩ := ih
    rw [List.length_append, Nat.add_sub_cancel_left] at hroom
    exact ⟨q ++ [status], List.append_assoc _ _ _, hq.push hroom⟩
  | pop h hpop ih =>
    obtain ⟨q, rfl, hq⟩ := ih
    obtain ⟨q', rfl, hq'⟩ := hq.pop_some hpop
    exact ⟨q', (List.append_cons _ _ _), hq'⟩

/-- **The completion ring is a FIFO**, however long the run is and whenever its counters wrap around. -/
theorem irq_ring_fifo {ring : IrqRing} {pushed popped : List Byte} (h : IrqRun ring pushed popped) :
    IrqFifo ring pushed popped := by
  obtain ⟨q, rfl, hq⟩ := h.holds
  refine ⟨List.prefix_append _ _, ?_, ?_⟩
  · rw [List.length_append, Nat.add_sub_cancel_left]
    exact RingBuffer.Holds.sub_toNat hq (by decide)
  · rw [hq.pop_none, List.append_right_eq_self]

/-- Two completions are pending when the counter of the interrupts goes around, and one is taken. -/
theorem irq_ring_fifo_wraps :
    ∃ ring : IrqRing, ring.head = 1 ∧ ring.tail = 0 ∧ IrqFifo ring [5, 7] [5] := by
  have hstart : IrqRun ⟨255, 255, fun _ => 0⟩ [] [] := .start _ _
  have hpushed := (hstart.push 5 (by decide)).push 7 (by decide)
  exact ⟨_, rfl, rfl, irq_ring_fifo (hpushed.pop rfl)⟩

end RiscyOS
