import RiscyOS.Io.SchedulerFaults

/-!
# What the scheduler keeps whatever the card does

`IoInv` is about a card that answers.  The part of it that is about the queue alone survives every
fault: reads that do not start, interrupts nobody asked for, sectors read behind the scheduler's
back.  `SchedShape s q` is that part, with `q` the requests waiting, and `SchedHolds s rs` says
which callbacks the scheduler owes: `rs` are those of the request in flight and of the queue, in
order.  A submission adds one at the end, the pump takes the first, and nothing else changes them.

The one thing a fault can do is to give the pump a completion with nothing in flight; then it follows
a null pointer, and there is nothing to say about what comes after.
-/

set_option autoImplicit false

namespace RiscyOS

open Memory

section Shape

variable {κ σ : Type} {disk : Word → σ} {s s' : IoState κ σ} {q : List Ptr}
  {rs : List (κ × Ptr)}

/-- The queue and the request in flight are well formed. -/
structure SchedShape (s : IoState κ σ) (q : List Ptr) : Prop where
  linked : Linked (fun p => (s.req p).next) (· = null) s.gIoSched.queueHead q
  tail : s.gIoSched.queueTail = q.getLastD null
  held : ∀ p ∈ q, p ∈ s.held
  flight : s.gIoSched.inFlight ≠ null → s.gIoSched.inFlight ∈ s.held ∧ s.gIoSched.inFlight ∉ q
  state : s.gIoSched.state = .idle ↔ s.gIoSched.inFlight = null
  running : ∀ r, s.pump = .callback r → r ∈ s.held ∧ r ∉ q ∧ r ≠ s.gIoSched.inFlight

/-- The callback of a request, with its context. -/
def IoReq.closure (r : IoReq κ) : κ × Ptr := (r.callback, r.ctx)

/-- The request in flight, if there is one, and then those waiting. -/
def IoState.unanswered (s : IoState κ σ) (q : List Ptr) : List Ptr :=
  if s.gIoSched.inFlight = null then q else s.gIoSched.inFlight :: q

/-- **The scheduler owes the callbacks `rs`.** -/
def SchedHolds (s : IoState κ σ) (rs : List (κ × Ptr)) : Prop :=
  ∃ q, SchedShape s q ∧ (s.unanswered q).map (fun p => (s.req p).closure) = rs

theorem closure_of_entry {r r' : IoReq κ} (h : r.entry = r'.entry) : r.closure = r'.closure :=
  congrArg Prod.snd h

/-! ## Issuing and queueing -/

/-- `io_sched_issue_next` as far as the scheduler sees it. -/
theorem ioSchedIssueNextWith_sched {resp : SdResponse} (h : s.gIoSched.queueHead ≠ null) :
    let req := s.gIoSched.queueHead
    let next := (s.req req).next
    (ioSchedIssueNextWith resp s).gIoSched =
        ⟨next, if next = null then null else s.gIoSched.queueTail, req, .busy⟩ ∧
      (ioSchedIssueNextWith resp s).req = s.req ∧ (ioSchedIssueNextWith resp s).held = s.held ∧
      (ioSchedIssueNextWith resp s).pump = s.pump := by
  rw [ioSchedIssueNextWith, if_neg h]
  cases resp <;> by_cases hn : (s.req s.gIoSched.queueHead).next = null <;>
    simp [sdStartReadWith, sdStartRead, hn]

/-- **Issuing** only moves the first request from the queue into flight. -/
theorem SchedHolds.issueNext {resp : SdResponse} (h : SchedHolds s rs)
    (hidle : s.gIoSched.inFlight = null) (hhead : s.gIoSched.queueHead ≠ null) :
    SchedHolds (ioSchedIssueNextWith resp s) rs := by
  obtain ⟨q, hshape, hrs⟩ := h
  obtain ⟨q', rfl, hlink⟩ := hshape.linked.exists_cons hhead
  obtain ⟨hsched, hreq, hheld, hpump⟩ := @ioSchedIssueNextWith_sched κ σ s resp hhead
  obtain ⟨hnotMem, -⟩ := List.nodup_cons.1 hshape.linked.nodup
  refine ⟨q', ⟨?_, ?_, ?_, ?_, ?_, ?_⟩, ?_⟩
  · rw [hsched, hreq]
    exact hlink
  · rw [hsched]
    exact queueTail_issueNext hlink hshape.tail
  · rw [hheld]
    exact fun p hp => hshape.held p (List.mem_cons_of_mem _ hp)
  · rw [hsched, hheld]
    exact fun _ => ⟨hshape.held _ List.mem_cons_self, hnotMem⟩
  · rw [hsched]
    simp [hhead]
  · intro r hr
    rw [hpump] at hr
    obtain ⟨hmem, hq, -⟩ := hshape.running r hr
    rw [hsched, hheld]
    exact ⟨hmem, fun hc => hq (List.mem_cons_of_mem _ hc), fun hc => hq (hc ▸ List.mem_cons_self)⟩
  · rw [← hrs, IoState.unanswered, IoState.unanswered, hsched, hreq, if_pos hidle, if_neg hhead]

/-- Queueing a request puts its callback behind the others. -/
theorem SchedHolds.enqueue {req : Ptr} {lba : Word} {callback : κ} {ctx : Ptr}
    (h : SchedHolds s rs) (hreq : req ≠ null) (hfresh : req ∉ s.held) :
    SchedHolds (ioEnqueue req lba callback ctx s) (rs ++ [(callback, ctx)]) := by
  obtain ⟨q, hshape, hrs⟩ := h
  have hmem : ∀ p ∈ q, p ≠ req := fun p hp heq => hfresh (heq ▸ hshape.held p hp)
  have hflight : s.gIoSched.inFlight ≠ null → s.gIoSched.inFlight ≠ req :=
    fun hf heq => hfresh (heq ▸ (hshape.flight hf).1)
  obtain ⟨hlink, hself⟩ : _ ∧ (ioEnqueue req lba callback ctx s).req req = _ :=
    linked_ioEnqueue hshape.linked hshape.tail hreq hmem
  -- what the scheduler held already keeps its callbacks
  have hkeep : (s.unanswered q).map (fun p => ((ioEnqueue req lba callback ctx s).req p).closure) =
      rs := by
    rw [← hrs]
    refine List.map_congr_left fun p hp => closure_of_entry (entry_ioEnqueue ?_)
    by_cases hf : s.gIoSched.inFlight = null
    · rw [IoState.unanswered, if_pos hf] at hp
      exact hmem p hp
    · rw [IoState.unanswered, if_neg hf] at hp
      rcases List.mem_cons.1 hp with rfl | hp
      · exact hflight hf
      · exact hmem p hp
  have hunanswered : (ioEnqueue req lba callback ctx s).unanswered (q ++ [req]) =
      s.unanswered q ++ [req] := by
    rw [IoState.unanswered, IoState.unanswered, ioEnqueue_eq]
    by_cases hf : s.gIoSched.inFlight = null <;> simp [hf]
  refine ⟨q ++ [req], ?_, by rw [hunanswered, List.map_append, hkeep, List.map_singleton, hself]; rfl⟩
  rw [ioEnqueue_eq] at hlink ⊢
  refine ⟨hlink, ?_, fun p hp => ?_, fun hf => ?_, hshape.state, fun r hr => ?_⟩
  · rw [List.getLastD_eq_getLast?, List.getLast?_concat, Option.getD_some]
  · rcases List.mem_append.1 hp with hp | hp
    · exact List.mem_cons_of_mem req (hshape.held p hp)
    · exact List.mem_cons.2 (Or.inl (List.mem_singleton.1 hp))
  · refine ⟨List.mem_cons_of_mem req (hshape.flight hf).1, fun hc => ?_⟩
    rcases List.mem_append.1 hc with hc | hc
    · exact (hshape.flight hf).2 hc
    · exact hflight hf (List.mem_singleton.1 hc)
  · obtain ⟨hheld, hq, hne⟩ := hshape.running r hr
    refine ⟨List.mem_cons_of_mem req hheld, fun hc => ?_, hne⟩
    rcases List.mem_append.1 hc with hc | hc
    · exact hq hc
    · exact hfresh (List.mem_singleton.1 hc ▸ hheld)

/-! ## Events -/

/-- **A submission** adds its callback at the end. -/
theorem SchedHolds.post {resp : SdResponse} {req : Ptr} {lba : Word} {callback : κ} {ctx : Ptr}
    (h : SchedHolds s rs) (hreq : req ≠ null) (hfresh : req ∉ s.held) :
    SchedHolds (ioPostWith resp req lba callback ctx s) (rs ++ [(callback, ctx)]) := by
  have henq : SchedHolds (ioEnqueue req lba callback ctx s) (rs ++ [(callback, ctx)]) :=
    h.enqueue hreq hfresh
  rw [ioPostWith]
  by_cases hidle : (ioEnqueue req lba callback ctx s).gIoSched.state = .idle
  · rw [if_pos hidle]
    obtain ⟨q, hshape, hrs⟩ := henq
    refine SchedHolds.issueNext ⟨q, hshape, hrs⟩ (hshape.state.1 hidle) fun hnull => ?_
    -- the queue is not empty
    have hq : q = [] := hshape.linked.unique hnull
    rw [IoState.unanswered, if_pos (hshape.state.1 hidle), hq] at hrs
    exact absurd hrs.symm (by simp)
  · rw [if_neg hidle]
    exact henq

theorem ioPostWith_held {resp : SdResponse} {req : Ptr} {lba : Word} {callback : κ} {ctx : Ptr} :
    (ioPostWith resp req lba callback ctx s).held = req :: s.held := by
  rw [ioPostWith]
  split
  · by_cases hhead : (ioEnqueue req lba callback ctx s).gIoSched.queueHead = null
    · rw [ioSchedIssueNextWith, if_pos hhead, ioEnqueue_eq]
    · rw [(ioSchedIssueNextWith_sched hhead).2.2.1, ioEnqueue_eq]
  · rw [ioEnqueue_eq]

/-- What is owed depends on the scheduler alone. -/
theorem SchedHolds.congr (h : SchedHolds s rs) (hsched : s'.gIoSched = s.gIoSched)
    (hreq : s'.req = s.req) (hheld : s'.held = s.held)
    (hpump : ∀ r, s'.pump = .callback r → s.pump = .callback r) : SchedHolds s' rs := by
  obtain ⟨q, hshape, hrs⟩ := h
  refine ⟨q, ⟨?_, ?_, ?_, ?_, ?_, ?_⟩, ?_⟩
  · rw [hsched, hreq]
    exact hshape.linked
  · rw [hsched]
    exact hshape.tail
  · rw [hheld]
    exact hshape.held
  · rw [hsched, hheld]
    exact hshape.flight
  · rw [hsched]
    exact hshape.state
  · rw [hsched, hheld]
    exact fun r hr => hshape.running r (hpump r hr)
  · rw [IoState.unanswered, hsched, hreq]
    exact hrs

/-- An interrupt, of whatever kind, is none of the scheduler's business. -/
theorem sdIrsqHandler_sched :
    (sdIrsqHandler s).gIoSched = s.gIoSched ∧ (sdIrsqHandler s).req = s.req ∧
      (sdIrsqHandler s).held = s.held ∧ (sdIrsqHandler s).pump = s.pump := by
  cases hsd : s.sdState <;> simp [sdIrsqHandler, sdTailRead, sdTailWrite, hsd]

theorem SchedHolds.irq (h : SchedHolds s rs) (hs : sdStep disk .irq s = some s') :
    SchedHolds s' rs ∧ s'.held = s.held := by
  rw [sdStep, ioStep] at hs
  split at hs
  · obtain rfl := Option.some.inj hs
    obtain ⟨hsched, hreq, hheld, hpump⟩ := sdIrsqHandler_sched
    exact ⟨h.congr hsched hreq hheld fun r hr => hpump.symm.trans hr, hheld⟩
  · exact absurd hs (by simp)

theorem SchedHolds.spurious (h : SchedHolds s rs) (hs : sdStep disk .spurious s = some s') :
    SchedHolds s' rs ∧ s'.held = s.held := by
  rw [sdStep, Option.ite_none_right_eq_some] at hs
  obtain rfl := Option.some.inj hs.2
  obtain ⟨hsched, hreq, hheld, hpump⟩ := sdIrsqHandler_sched
  exact ⟨h.congr hsched hreq hheld fun r hr => hpump.symm.trans hr, hheld⟩

/-- The pump is entered, or left. -/
theorem SchedHolds.move {pc : PumpPc} (h : SchedHolds s rs) (hpc : ∀ r, pc ≠ .callback r) :
    SchedHolds { s with pump := pc } rs :=
  h.congr rfl rfl rfl fun r hr => absurd hr (hpc r)

/-- **The pump answers** the first callback owed. -/
theorem SchedHolds.test (h : SchedHolds s rs) (hne : s.gSdIrqRing.head ≠ s.gSdIrqRing.tail)
    (hflight : s.gIoSched.inFlight ≠ null) :
    ∃ rs', rs = (s.req s.gIoSched.inFlight).closure :: rs' ∧ SchedHolds (ioSchedPumpTest s) rs' := by
  obtain ⟨q, hshape, hrs⟩ := h
  rw [IoState.unanswered, if_neg hflight, List.map_cons] at hrs
  refine ⟨_, hrs.symm, q, ?_, ?_⟩
  · rw [ioSchedPumpTest, if_pos hne]
    refine ⟨hshape.linked, hshape.tail, hshape.held, fun hc => absurd rfl hc, by simp, ?_⟩
    intro r hr
    obtain rfl : s.gIoSched.inFlight = r := PumpPc.callback.inj hr
    exact ⟨(hshape.flight hflight).1, (hshape.flight hflight).2, hflight⟩
  · rw [ioSchedPumpTest, if_pos hne]
    rfl

theorem ioSchedPumpReturnWith_held {resp : SdResponse} {r : Ptr} :
    (ioSchedPumpReturnWith resp r s).held = s.held.filter (· ≠ r) := by
  rw [ioSchedPumpReturnWith]
  dsimp only
  split
  · rename_i hstart
    have hfreed := @ioSchedIssueNextWith_sched κ σ { s with held := s.held.filter (· ≠ r) } resp hstart.2
    exact hfreed.2.2.1
  · rfl

/-- **The callback returns.** -/
theorem SchedHolds.ret {resp : SdResponse} {r : Ptr} (h : SchedHolds s rs)
    (hpump : s.pump = .callback r) : SchedHolds (ioSchedPumpReturnWith resp r s) rs := by
  obtain ⟨q, hshape, hrs⟩ := h
  obtain ⟨-, hrq, hrf⟩ := hshape.running r hpump
  have hkept : ∀ p ∈ s.held, p ≠ r → p ∈ s.held.filter (· ≠ r) := fun p hp hne =>
    List.mem_filter.2 ⟨hp, by simpa using hne⟩
  -- the request is given back, and then the queue is looked at
  have hfree : SchedHolds { s with held := s.held.filter (· ≠ r), pump := .loop } rs := by
    refine ⟨q, ⟨hshape.linked, hshape.tail, fun p hp => ?_, fun hf => ?_, hshape.state, by simp⟩, hrs⟩
    · exact hkept p (hshape.held p hp) fun heq => hrq (heq ▸ hp)
    · exact ⟨hkept _ (hshape.flight hf).1 hrf.symm, (hshape.flight hf).2⟩
  rw [ioSchedPumpReturnWith]
  dsimp only
  by_cases hstart : s.gIoSched.state = .idle ∧ s.gIoSched.queueHead ≠ null
  · rw [if_pos hstart]
    have hissue : SchedHolds (ioSchedIssueNextWith resp
        { s with held := s.held.filter (· ≠ r), pump := .loop }) rs :=
      hfree.issueNext (hshape.state.1 hstart.1) hstart.2
    refine hissue.congr ?_ ?_ ?_ (by simp)
    all_goals
      simp only [ioSchedIssueNextWith, if_neg hstart.2]
      cases resp <;> dsimp only [sdStartReadWith, sdStartRead] <;> split <;> rfl
  · rw [if_neg hstart]
    exact hfree

/-- **The initial state** owes nothing. -/
theorem SchedHolds.init (ring : IrqRing) (req : Ptr → IoReq κ) (rx : Option σ) :
    SchedHolds (IoState.init ring req rx) [] :=
  ⟨[], ⟨rfl, rfl, nofun, fun h => absurd rfl h, by simp [IoState.init], nofun⟩, rfl⟩

end Shape

end RiscyOS
