import RiscyOS.Io.Scheduler

/-!
# What the scheduler keeps

One invariant, `IoInv`, carries everything.  The queue is a linked list `q` whose last node is
`queue_tail`; it holds, in order, exactly the requests submitted and not yet issued; and the
scheduler is in one of three phases.  *Idle*, nothing is in flight and nothing is being read;
*reading*, the oldest unanswered request is at the card and the ring is empty; *completed*, its
sector is in the buffer and its status is the one entry of the ring.  In the idle phase the queue
is empty, except while a callback runs: there the pump has not looked at the queue yet.
-/

set_option autoImplicit false

namespace RiscyOS

open Memory

section Spec

variable {κ σ : Type} {disk : Word → σ} {s s' : IoState κ σ} {q : List Ptr}

/-- A request as it was submitted. -/
def IoReq.entry (r : IoReq κ) : Word × κ × Ptr := (r.lba, r.callback, r.ctx)

/-- The callback of a request, invoked as it should be: with status zero and the request's own
sector in the buffer. -/
def properCall (disk : Word → σ) (r : Word × κ × Ptr) : IoCall κ σ :=
  ⟨r.2.1, r.2.2, 0, some (disk r.1)⟩

/-- Nothing is going on at the card. -/
structure IoRest (s : IoState κ σ) : Prop where
  state : s.gIoSched.state = .idle
  flight : s.gIoSched.inFlight = null
  reading : s.reading = none
  ring : s.gSdIrqRing.head = s.gSdIrqRing.tail
  issued : s.log.issued.length = s.log.called.length
  completions : s.log.completions = s.log.called.length

/-- The oldest unanswered request is in flight. -/
structure IoFlight (s : IoState κ σ) (q : List Ptr) : Prop where
  state : s.gIoSched.state = .busy
  flight : s.gIoSched.inFlight ≠ null
  held : s.gIoSched.inFlight ∈ s.held
  notMem : s.gIoSched.inFlight ∉ q
  issued : s.log.issued.length = s.log.called.length + 1
  entry : s.log.submitted[s.log.called.length]? = some (s.req s.gIoSched.inFlight).entry

/-- The card is transferring the sector of the request in flight. -/
structure IoReading (s : IoState κ σ) : Prop where
  reading : s.reading = some (s.req s.gIoSched.inFlight).lba
  sd : s.sdState = .waitRead
  ring : s.gSdIrqRing.head = s.gSdIrqRing.tail
  completions : s.log.completions = s.log.called.length

/-- The sector of the request in flight has arrived and the pump has not seen it. -/
structure IoCompleted (disk : Word → σ) (s : IoState κ σ) : Prop where
  reading : s.reading = none
  rx : s.rx = some (disk (s.req s.gIoSched.inFlight).lba)
  ring : s.gSdIrqRing.head = s.gSdIrqRing.tail + 1
  status : s.gSdIrqRing.status (irqIdx s.gSdIrqRing.tail) = 0
  completions : s.log.completions = s.log.called.length + 1

/-- What holds of the queue and the log in every phase, with `q` the requests waiting. -/
structure IoQueue (disk : Word → σ) (s : IoState κ σ) (q : List Ptr) : Prop where
  /-- The queue is linked through the `next` fields. -/
  linked : Linked (fun p => (s.req p).next) (· = null) s.gIoSched.queueHead q
  /-- Its last node is the tail. -/
  tail : s.gIoSched.queueTail = q.getLastD null
  /-- What waits is in the scheduler's hands. -/
  held : ∀ p ∈ q, p ∈ s.held
  /-- What waits is what has been submitted and not issued, in order. -/
  waiting : q.map (fun p => (s.req p).entry) = s.log.submitted.drop s.log.issued.length
  /-- What has been issued is what was submitted first. -/
  issued : s.log.issued = (s.log.submitted.take s.log.issued.length).map (·.1)
  /-- The callbacks invoked are those of the first requests, each with its own sector. -/
  called : s.log.called = (s.log.submitted.take s.log.called.length).map (properCall disk)
  /-- A request whose callback runs is in nobody's way. -/
  running : ∀ r, s.pump = .callback r → r ∈ s.held ∧ r ∉ q ∧ r ≠ s.gIoSched.inFlight

/-- The three phases. -/
def IoPhase (disk : Word → σ) (s : IoState κ σ) (q : List Ptr) : Prop :=
  (IoRest s ∧ ((∀ r, s.pump ≠ .callback r) → q = [])) ∨
    (IoFlight s q ∧ (IoReading s ∨ IoCompleted disk s))

/-- **The invariant** of the scheduler. -/
def IoInv (disk : Word → σ) (s : IoState κ σ) : Prop :=
  ∃ q, IoQueue disk s q ∧ IoPhase disk s q

/-! ## Issuing -/

theorem IoQueue.issued_le (h : IoQueue disk s q) :
    s.log.issued.length ≤ s.log.submitted.length := by
  have hlen := congrArg List.length h.issued
  rw [List.length_map, List.length_take] at hlen
  omega

theorem IoQueue.called_le (h : IoQueue disk s q) :
    s.log.called.length ≤ s.log.submitted.length := by
  have hlen := congrArg List.length h.called
  rw [List.length_map, List.length_take] at hlen
  omega

/-- `io_sched_issue_next` on a queue that is not empty. -/
theorem ioSchedIssueNext_of_ne (h : s.gIoSched.queueHead ≠ null) :
    ioSchedIssueNext s =
      let req := s.gIoSched.queueHead
      let next := (s.req req).next
      { s with
        gIoSched := ⟨next, if next = null then null else s.gIoSched.queueTail, req, .busy⟩
        sdState := .waitRead
        reading := some (s.req req).lba
        rx := none
        log := { s.log with issued := s.log.issued ++ [(s.req req).lba] } } := by
  rw [ioSchedIssueNext, if_neg h]
  simp only
  split <;> rfl

/-- Without its first request, the queue still ends in its tail. -/
theorem queueTail_issueNext {r next tail : Ptr} {f : Ptr → Ptr}
    (hlink : Linked f (· = null) next q) (htail : tail = (r :: q).getLastD null) :
    (if next = null then null else tail) = q.getLastD null := by
  cases q with
  | nil => rw [if_pos (show next = null from hlink)]; rfl
  | cons a q =>
    obtain ⟨ha, hane, -⟩ := hlink
    have hne : next ≠ null := by
      rw [show next = a from ha]
      exact hane
    rw [if_neg hne, htail]
    rfl

/-- **Issuing the oldest request.**  From rest with requests waiting, the first of them goes to the
card. -/
theorem IoQueue.issueNext {r : Ptr} (h : IoQueue disk s (r :: q)) (hrest : IoRest s) :
    IoQueue disk (ioSchedIssueNext s) q ∧ IoFlight (ioSchedIssueNext s) q ∧
      IoReading (ioSchedIssueNext s) := by
  obtain ⟨hhead, hr, hlink⟩ := h.linked
  have hnd := List.nodup_cons.1 h.linked.nodup
  have hwait := h.waiting
  rw [List.map_cons] at hwait
  -- the request issued is the next one submitted
  have hget : s.log.submitted[s.log.issued.length]? = some (s.req r).entry := by
    rw [← List.head?_drop, ← hwait, List.head?_cons]
  have htail : (if (s.req r).next = null then null else s.gIoSched.queueTail) =
      q.getLastD null := queueTail_issueNext hlink h.tail
  rw [ioSchedIssueNext_of_ne (by rw [hhead]; exact hr), hhead]
  refine ⟨⟨hlink, htail, fun p hp => h.held p (List.mem_cons_of_mem r hp), ?_, ?_, h.called, ?_⟩,
    ⟨rfl, hr, h.held r List.mem_cons_self, hnd.1, ?_, ?_⟩, ⟨rfl, rfl, hrest.ring, hrest.completions⟩⟩
  · rw [List.length_append, List.length_singleton, ← List.drop_drop, ← hwait]
    rfl
  · rw [List.length_append, List.length_singleton, List.take_add_one, List.map_append, ← h.issued,
      hget]
    rfl
  · intro a ha
    obtain ⟨hheld, hmem, -⟩ := h.running a ha
    exact ⟨hheld, fun hq => hmem (List.mem_cons_of_mem r hq), fun har => hmem (har ▸ List.mem_cons_self)⟩
  · rw [List.length_append, List.length_singleton, hrest.issued]
  · rw [← hrest.issued]
    exact hget

/-! ## Queueing -/

/-- The state in which `io_sched_submit` asks whether the scheduler is idle: the request is at the
end of the queue. -/
def ioLink (req : Ptr) (s : IoState κ σ) : IoState κ σ :=
  let s := s.setNext req null
  let s := if s.gIoSched.queueTail ≠ null then s.setNext s.gIoSched.queueTail req
    else { s with gIoSched.queueHead := req }
  { s with gIoSched.queueTail := req }

/-- The same for `ioPost`. -/
def ioEnqueue (req : Ptr) (lba : Word) (callback : κ) (ctx : Ptr) (s : IoState κ σ) :
    IoState κ σ :=
  ioLink req { s with
    req := fun a => if a = req then ⟨lba, callback, ctx, (s.req a).next⟩ else s.req a
    held := req :: s.held
    log := { s.log with submitted := s.log.submitted ++ [(lba, callback, ctx)] } }

/-- Linking a request in changes two `next` fields, and the head and the tail of the queue. -/
theorem ioLink_eq (req : Ptr) (s : IoState κ σ) : ioLink req s = { s with
    gIoSched := ⟨if s.gIoSched.queueTail ≠ null then s.gIoSched.queueHead else req, req,
      s.gIoSched.inFlight, s.gIoSched.state⟩
    req := (ioLink req s).req } := by
  by_cases ht : s.gIoSched.queueTail = null <;> simp [ioLink, IoState.setNext, ht]

section Enqueue

variable {req : Ptr} {lba : Word} {callback : κ} {ctx : Ptr}

theorem ioPost_eq : ioPost req lba callback ctx s =
    if s.gIoSched.state = .idle then ioSchedIssueNext (ioEnqueue req lba callback ctx s)
    else ioEnqueue req lba callback ctx s := by
  have hstate : (ioEnqueue req lba callback ctx s).gIoSched.state = s.gIoSched.state := by
    rw [ioEnqueue, ioLink_eq]
  rw [← hstate]
  rfl

theorem ioEnqueue_eq : ioEnqueue req lba callback ctx s = { s with
    gIoSched := ⟨if s.gIoSched.queueTail ≠ null then s.gIoSched.queueHead else req, req,
      s.gIoSched.inFlight, s.gIoSched.state⟩
    req := (ioEnqueue req lba callback ctx s).req
    held := req :: s.held
    log := { s.log with submitted := s.log.submitted ++ [(lba, callback, ctx)] } } := by
  rw [ioEnqueue, ioLink_eq]

/-- The request itself. -/
theorem ioEnqueue_req_self (h : s.gIoSched.queueTail ≠ req) :
    (ioEnqueue req lba callback ctx s).req req = ⟨lba, callback, ctx, null⟩ := by
  by_cases ht : s.gIoSched.queueTail = null <;> simp [ioEnqueue, ioLink, IoState.setNext, ht, h.symm]

/-- The old last node now points at the request. -/
theorem ioEnqueue_req_tail (h : s.gIoSched.queueTail ≠ req) (ht : s.gIoSched.queueTail ≠ null) :
    (ioEnqueue req lba callback ctx s).req s.gIoSched.queueTail =
      { s.req s.gIoSched.queueTail with next := req } := by
  simp [ioEnqueue, ioLink, IoState.setNext, ht, h]

/-- Nothing else is touched. -/
theorem ioEnqueue_req_of_ne {a : Ptr} (ha : a ≠ req)
    (hat : s.gIoSched.queueTail ≠ null → a ≠ s.gIoSched.queueTail) :
    (ioEnqueue req lba callback ctx s).req a = s.req a := by
  by_cases ht : s.gIoSched.queueTail = null
  · simp [ioEnqueue, ioLink, IoState.setNext, ht, ha]
  · simp [ioEnqueue, ioLink, IoState.setNext, ht, ha, hat ht]

/-- A request already in the scheduler's hands keeps its data. -/
theorem entry_ioEnqueue {a : Ptr} (ha : a ≠ req) :
    ((ioEnqueue req lba callback ctx s).req a).entry = (s.req a).entry := by
  by_cases hat : s.gIoSched.queueTail ≠ null ∧ a = s.gIoSched.queueTail
  · obtain ⟨ht, rfl⟩ := hat
    rw [ioEnqueue_req_tail ha ht]
    rfl
  · rw [ioEnqueue_req_of_ne ha fun ht hc => hat ⟨ht, hc⟩]

/-- What queueing does to a linked queue: the request becomes its last node. -/
theorem linked_ioEnqueue
    (hlinked : Linked (fun p => (s.req p).next) (· = null) s.gIoSched.queueHead q)
    (htail : s.gIoSched.queueTail = q.getLastD null) (hreq : req ≠ null)
    (hmem : ∀ p ∈ q, p ≠ req) :
    Linked (fun p => ((ioEnqueue req lba callback ctx s).req p).next) (· = null)
        (ioEnqueue req lba callback ctx s).gIoSched.queueHead (q ++ [req]) ∧
      (ioEnqueue req lba callback ctx s).req req = ⟨lba, callback, ctx, null⟩ := by
  have htreq : s.gIoSched.queueTail ≠ req := by
    rw [htail, List.getLastD_eq_getLast?]
    cases hq : q.getLast? with
    | none => exact hreq.symm
    | some a => exact hmem a (List.mem_of_getLast? hq)
  have hself : (ioEnqueue req lba callback ctx s).req req = ⟨lba, callback, ctx, null⟩ :=
    ioEnqueue_req_self htreq
  refine ⟨?_, hself⟩
  have hhead : (ioEnqueue req lba callback ctx s).gIoSched.queueHead =
      if s.gIoSched.queueTail ≠ null then s.gIoSched.queueHead else req := by
    rw [ioEnqueue_eq]
  rw [hhead]
  by_cases hq : q = []
  · rw [if_neg (not_not.2 (by rw [htail, hq]; rfl)), hq]
    exact ⟨rfl, hreq, congrArg IoReq.next hself⟩
  · have ht : s.gIoSched.queueTail = q.getLast hq := by
      rw [htail, List.getLastD_eq_getLast?, List.getLast?_eq_some_getLast hq, Option.getD_some]
    have htn : s.gIoSched.queueTail ≠ null :=
      hlinked.not_stop_of_mem (ht ▸ List.getLast_mem hq)
    rw [if_pos htn]
    refine hlinked.concat hq ?_ (fun y hy hne => ?_) hreq ?_
    · simp only [← ht, ioEnqueue_req_tail htreq htn]
    · simp only [ioEnqueue_req_of_ne (hmem y hy) fun _ => ht ▸ hne]
    · simp only [hself]

/-- **Queueing a request** puts it behind the others. -/
theorem IoQueue.enqueue (h : IoQueue disk s q) (hreq : req ≠ null) (hfresh : req ∉ s.held) :
    IoQueue disk (ioEnqueue req lba callback ctx s) (q ++ [req]) := by
  have hmem : ∀ p ∈ q, p ≠ req := fun p hp heq => hfresh (heq ▸ h.held p hp)
  obtain ⟨hlink, hself⟩ : _ ∧ (ioEnqueue req lba callback ctx s).req req = _ :=
    linked_ioEnqueue h.linked h.tail hreq hmem
  have hwait : (q ++ [req]).map (fun p => ((ioEnqueue req lba callback ctx s).req p).entry) =
      (s.log.submitted ++ [(lba, callback, ctx)]).drop s.log.issued.length := by
    rw [List.map_append, List.map_congr_left fun a ha => entry_ioEnqueue (hmem a ha), h.waiting,
      List.map_singleton, hself, List.drop_append_of_le_length h.issued_le]
    rfl
  rw [ioEnqueue_eq] at hlink ⊢
  refine ⟨hlink, ?_, fun p hp => ?_, hwait, ?_, ?_, fun r hr => ?_⟩
  · rw [List.getLastD_eq_getLast?, List.getLast?_concat, Option.getD_some]
  · rcases List.mem_append.1 hp with hp | hp
    · exact List.mem_cons_of_mem req (h.held p hp)
    · exact List.mem_cons.2 (Or.inl (List.mem_singleton.1 hp))
  · simpa only [List.take_append_of_le_length h.issued_le] using h.issued
  · simpa only [List.take_append_of_le_length h.called_le] using h.called
  · obtain ⟨hheld, hq, hne⟩ := h.running r hr
    refine ⟨List.mem_cons_of_mem req hheld, fun hc => ?_, hne⟩
    rcases List.mem_append.1 hc with hc | hc
    · exact hq hc
    · exact hfresh (List.mem_singleton.1 hc ▸ hheld)

/-- Queueing leaves the request in flight alone. -/
theorem IoFlight.enqueue (h : IoFlight s q) (hfresh : req ∉ s.held) :
    IoFlight (ioEnqueue req lba callback ctx s) (q ++ [req]) ∧
      ((ioEnqueue req lba callback ctx s).req s.gIoSched.inFlight).lba =
        (s.req s.gIoSched.inFlight).lba := by
  have hne : s.gIoSched.inFlight ≠ req := fun heq => hfresh (heq ▸ h.held)
  have hentry : ((ioEnqueue req lba callback ctx s).req s.gIoSched.inFlight).entry =
      (s.req s.gIoSched.inFlight).entry := entry_ioEnqueue hne
  have hlt := (List.getElem?_eq_some_iff.1 h.entry).1
  refine ⟨?_, congrArg (·.1) hentry⟩
  rw [ioEnqueue_eq]
  refine ⟨h.state, h.flight, List.mem_cons_of_mem req h.held, fun hc => ?_, h.issued, ?_⟩
  · rcases List.mem_append.1 hc with hc | hc
    · exact h.notMem hc
    · exact hne (List.mem_singleton.1 hc)
  · rw [hentry, List.getElem?_append_left hlt]
    exact h.entry

/-- **Submitting** keeps the invariant, from outside and from inside a callback. -/
theorem IoInv.post (h : IoInv disk s) (hreq : req ≠ null) (hfresh : req ∉ s.held) :
    IoInv disk (ioPost req lba callback ctx s) := by
  obtain ⟨q, hqueue, hphase⟩ := h
  have henq : IoQueue disk (ioEnqueue req lba callback ctx s) (q ++ [req]) :=
    hqueue.enqueue hreq hfresh
  rw [ioPost_eq]
  rcases hphase with ⟨hrest, -⟩ | ⟨hflight, hcard⟩
  · have hrest' : IoRest (ioEnqueue req lba callback ctx s) := by
      rw [ioEnqueue_eq]
      exact ⟨hrest.state, hrest.flight, hrest.reading, hrest.ring, hrest.issued, hrest.completions⟩
    rw [if_pos hrest.state]
    -- the oldest of the queue, which is the request itself if nothing was waiting
    obtain ⟨r, q', hq'⟩ := List.exists_cons_of_ne_nil (List.append_ne_nil_of_right_ne_nil q (List.cons_ne_nil req []))
    obtain ⟨hq, hf, hr⟩ := (hq' ▸ henq).issueNext hrest'
    exact ⟨q', hq, Or.inr ⟨hf, Or.inl hr⟩⟩
  · rw [if_neg (by rw [hflight.state]; decide)]
    obtain ⟨hf, hlba⟩ := @IoFlight.enqueue _ _ _ _ req lba callback ctx hflight hfresh
    refine ⟨q ++ [req], henq, Or.inr ⟨hf, ?_⟩⟩
    rcases hcard with hr | hc
    · left
      rw [ioEnqueue_eq]
      exact ⟨by rw [hr.reading, hlba], hr.sd, hr.ring, hr.completions⟩
    · right
      rw [ioEnqueue_eq]
      exact ⟨hc.reading, by rw [hc.rx, hlba], hc.ring, hc.status, hc.completions⟩

end Enqueue

/-! ## The other events -/

/-- **The completion interrupt** of the read in progress. -/
theorem IoInv.irq {lba : Word} (h : IoInv disk s) (hread : s.reading = some lba) :
    IoInv disk { sdIrsqHandler { s with reading := none, rx := some (disk lba) } with
      log := { s.log with completions := s.log.completions + 1 } } := by
  obtain ⟨q, hqueue, hphase⟩ := h
  rcases hphase with ⟨hrest, -⟩ | ⟨hflight, hr | hc⟩
  · rw [hrest.reading] at hread
    exact absurd hread (by simp)
  · rw [hr.reading, Option.some.injEq] at hread
    subst hread
    simp only [sdIrsqHandler, hr.sd, sdTailRead]
    refine ⟨q, ⟨hqueue.linked, hqueue.tail, hqueue.held, hqueue.waiting, hqueue.issued,
      hqueue.called, hqueue.running⟩, Or.inr ⟨⟨hflight.state, hflight.flight, hflight.held,
        hflight.notMem, hflight.issued, hflight.entry⟩, Or.inr ⟨rfl, rfl, ?_, ?_, ?_⟩⟩⟩
    · rw [hr.ring]
    · simp only [hr.ring, if_true]
    · rw [hr.completions]
  · rw [hc.reading] at hread
    exact absurd hread (by simp)

/-- Moving the pump, with the requests waiting still in the scheduler's hands. -/
theorem IoQueue.move {held : List Ptr} {pc : PumpPc} (h : IoQueue disk s q)
    (hheld : ∀ p ∈ q, p ∈ held) (hpc : ∀ r, pc ≠ .callback r) :
    IoQueue disk { s with held := held, pump := pc } q :=
  ⟨h.linked, h.tail, hheld, h.waiting, h.issued, h.called, fun r hr => absurd hr (hpc r)⟩

theorem IoRest.move {held : List Ptr} {pc : PumpPc} (h : IoRest s) :
    IoRest { s with held := held, pump := pc } :=
  ⟨h.state, h.flight, h.reading, h.ring, h.issued, h.completions⟩

theorem IoFlight.move {held : List Ptr} {pc : PumpPc} (h : IoFlight s q)
    (hheld : s.gIoSched.inFlight ∈ held) : IoFlight { s with held := held, pump := pc } q :=
  ⟨h.state, h.flight, hheld, h.notMem, h.issued, h.entry⟩

/-- What the card is doing does not depend on the pump. -/
theorem move_card {held : List Ptr} {pc : PumpPc} (h : IoReading s ∨ IoCompleted disk s) :
    IoReading { s with held := held, pump := pc } ∨
      IoCompleted disk { s with held := held, pump := pc } :=
  h.imp (fun h => ⟨h.reading, h.sd, h.ring, h.completions⟩)
    fun h => ⟨h.reading, h.rx, h.ring, h.status, h.completions⟩

/-- The pump moves between places that are not callbacks. -/
theorem IoInv.move {pc : PumpPc} (h : IoInv disk s) (hs : ∀ r, s.pump ≠ .callback r)
    (hpc : ∀ r, pc ≠ .callback r) : IoInv disk { s with pump := pc } := by
  obtain ⟨q, hqueue, hphase⟩ := h
  refine ⟨q, hqueue.move hqueue.held hpc, ?_⟩
  rcases hphase with ⟨hrest, hq⟩ | ⟨hflight, hcard⟩
  · exact Or.inl ⟨hrest.move, fun _ => hq hs⟩
  · exact Or.inr ⟨hflight.move hflight.held, move_card hcard⟩

theorem ne_callback_outside (r : Ptr) : PumpPc.outside ≠ .callback r := nofun

theorem ne_callback_loop (r : Ptr) : PumpPc.loop ≠ .callback r := nofun

/-- **A completion is seen.**  With a status on the ring, the pump enters the callback of the oldest
unanswered request, with its own sector in the buffer. -/
theorem IoInv.enter (h : IoInv disk s) (hne : s.gSdIrqRing.head ≠ s.gSdIrqRing.tail) :
    IoInv disk (ioSchedPumpTest s) := by
  obtain ⟨q, hqueue, hphase⟩ := h
  rw [ioSchedPumpTest, if_pos hne]
  rcases hphase with ⟨hrest, -⟩ | ⟨hflight, hr | hc⟩
  · exact absurd hrest.ring hne
  · exact absurd hr.ring hne
  · simp only
    refine ⟨q, ⟨hqueue.linked, hqueue.tail, hqueue.held, hqueue.waiting, hqueue.issued, ?_, ?_⟩,
      Or.inl ⟨⟨rfl, rfl, hc.reading, hc.ring, ?_, ?_⟩, fun hcb => absurd rfl (hcb _)⟩⟩
    · rw [List.length_append, List.length_singleton, List.take_add_one, List.map_append,
        ← hqueue.called, hflight.entry, hc.status, hc.rx]
      rfl
    · intro r hr
      injection hr with hr
      subst hr
      exact ⟨hflight.held, hflight.notMem, hflight.flight⟩
    · rw [List.length_append, List.length_singleton]
      exact hflight.issued
    · rw [List.length_append, List.length_singleton]
      exact hc.completions

/-- Issuing does not depend on where the pump is. -/
theorem ioSchedIssueNext_move {pc : PumpPc} :
    { ioSchedIssueNext s with pump := pc } = ioSchedIssueNext { s with pump := pc } := by
  by_cases h : s.gIoSched.queueHead = null
  · simp only [ioSchedIssueNext, if_pos h]
  · rw [ioSchedIssueNext_of_ne h, @ioSchedIssueNext_of_ne _ _ { s with pump := pc } h]

theorem ioSchedPumpReturn_eq {r : Ptr} : ioSchedPumpReturn r s =
    let s₁ := { s with held := s.held.filter (· ≠ r), pump := .loop }
    if s.gIoSched.state = .idle ∧ s.gIoSched.queueHead ≠ null then ioSchedIssueNext s₁ else s₁ := by
  rw [ioSchedPumpReturn]
  by_cases h : s.gIoSched.state = .idle ∧ s.gIoSched.queueHead ≠ null
  · simp only [if_pos h, ioSchedIssueNext_move]
  · simp only [if_neg h]

/-- **The callback returns** to the pump, which frees the request and, if the callback left the
scheduler idle with requests waiting, issues the oldest. -/
theorem IoInv.ret {r : Ptr} (h : IoInv disk s) (hpump : s.pump = .callback r) :
    IoInv disk (ioSchedPumpReturn r s) := by
  obtain ⟨q, hqueue, hphase⟩ := h
  obtain ⟨-, hrq, hrf⟩ := hqueue.running r hpump
  have hkept : ∀ p ∈ s.held, p ≠ r → p ∈ s.held.filter (· ≠ r) := fun p hp hne =>
    List.mem_filter.2 ⟨hp, by simpa using hne⟩
  have hqueue' := hqueue.move
    (fun p hp => hkept p (hqueue.held p hp) fun heq => hrq (heq ▸ hp)) ne_callback_loop
  rw [ioSchedPumpReturn_eq]
  rcases hphase with ⟨hrest, -⟩ | ⟨hflight, hcard⟩
  · by_cases hhead : s.gIoSched.queueHead = null
    · rw [if_neg fun hc => hc.2 hhead]
      have hq : q = [] := hqueue.linked.unique hhead
      exact ⟨q, hqueue', Or.inl ⟨hrest.move, fun _ => hq⟩⟩
    · rw [if_pos ⟨hrest.state, hhead⟩]
      obtain ⟨q', rfl, -⟩ := hqueue.linked.exists_cons hhead
      obtain ⟨hq, hf, hr⟩ := hqueue'.issueNext hrest.move
      exact ⟨q', hq, Or.inr ⟨hf, Or.inl hr⟩⟩
  · rw [if_neg fun hc => absurd (hflight.state.symm.trans hc.1) (by decide)]
    exact ⟨q, hqueue', Or.inr ⟨hflight.move (hkept _ hflight.held hrf.symm), move_card hcard⟩⟩

/-- **The initial state.** -/
theorem IoInv.init (ring : IrqRing) (req : Ptr → IoReq κ) (rx : Option σ) :
    IoInv disk (.init ring req rx) :=
  ⟨[], ⟨rfl, rfl, nofun, rfl, rfl, rfl, nofun⟩,
    Or.inl ⟨⟨rfl, rfl, rfl, rfl, rfl, rfl⟩, fun _ => rfl⟩⟩

/-! ## One event, and any number of them -/

/-- What an event can be, and what it does. -/
theorem ioStep_cases {e : IoEvent κ} (h : ioStep disk e s = some s') :
    (∃ req lba callback ctx, e = .submit req lba callback ctx ∧ s.pump ≠ .loop ∧ req ≠ null ∧
      req ∉ s.held ∧ s' = ioPost req lba callback ctx s) ∨
    (∃ lba, e = .irq ∧ s.reading = some lba ∧
      s' = { sdIrsqHandler { s with reading := none, rx := some (disk lba) } with
        log := { s.log with completions := s.log.completions + 1 } }) ∨
    (e = .pump ∧ s.pump = .outside ∧ s' = { s with pump := .loop }) ∨
    (e = .test ∧ s.pump = .loop ∧ s' = ioSchedPumpTest s) ∨
    (∃ r, e = .ret ∧ s.pump = .callback r ∧ s' = ioSchedPumpReturn r s) := by
  cases e with
  | submit req lba callback ctx =>
    rw [ioStep, Option.ite_none_right_eq_some] at h
    obtain ⟨⟨hp, hreq, hfresh⟩, h⟩ := h
    exact Or.inl ⟨req, lba, callback, ctx, rfl, hp, hreq, hfresh, (Option.some.inj h).symm⟩
  | irq =>
    rw [ioStep] at h
    split at h
    · rename_i lba hread
      exact Or.inr (Or.inl ⟨lba, rfl, hread, (Option.some.inj h).symm⟩)
    · exact absurd h (by simp)
  | pump =>
    rw [ioStep, Option.ite_none_right_eq_some] at h
    obtain ⟨hp, h⟩ := h
    exact Or.inr (Or.inr (Or.inl ⟨rfl, hp, (Option.some.inj h).symm⟩))
  | test =>
    rw [ioStep, Option.ite_none_right_eq_some] at h
    obtain ⟨hp, h⟩ := h
    exact Or.inr (Or.inr (Or.inr (Or.inl ⟨rfl, hp, (Option.some.inj h).symm⟩)))
  | ret =>
    rw [ioStep] at h
    split at h
    · rename_i r hp
      exact Or.inr (Or.inr (Or.inr (Or.inr ⟨r, rfl, hp, (Option.some.inj h).symm⟩)))
    · exact absurd h (by simp)

/-- **Every event keeps the invariant.** -/
theorem IoInv.step {e : IoEvent κ} (h : IoInv disk s) (hs : ioStep disk e s = some s') :
    IoInv disk s' := by
  obtain ⟨req, lba, callback, ctx, rfl, -, hreq, hfresh, rfl⟩ | ⟨lba, rfl, hread, rfl⟩ |
    ⟨rfl, hp, rfl⟩ | ⟨rfl, hp, rfl⟩ | ⟨r, rfl, hp, rfl⟩ := ioStep_cases hs
  · exact h.post hreq hfresh
  · exact h.irq hread
  · exact h.move (hp ▸ ne_callback_outside) ne_callback_loop
  · by_cases hne : s.gSdIrqRing.head = s.gSdIrqRing.tail
    · rw [ioSchedPumpTest, if_neg (not_not.2 hne)]
      exact h.move (hp ▸ ne_callback_loop) ne_callback_outside
    · exact h.enter hne
  · exact h.ret hp

/-- **Every reachable state satisfies the invariant.** -/
theorem IoReach.inv (h : IoReach disk s) : IoInv disk s := by
  induction h with
  | init ring req rx => exact .init ring req rx
  | step _ hs ih => exact ih.step hs

end Spec

end RiscyOS
