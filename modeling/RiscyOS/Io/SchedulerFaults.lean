import RiscyOS.Io.SchedulerRuns

/-!
# The scheduler and a card that misbehaves

`RiscyOS.Io.Scheduler` has a card that starts every read it is asked for and interrupts once for each.
Here it need not do either.  `sd_start_read` may get no answer to its command, or something other
than the start token, and return without a transfer; and `sd_irsq_handler` may be entered when no
transfer is waited for.

The scheduler does not look at what `sd_start_read` returns, and the handler puts a completion on the
ring whatever it was called for.  So a failed start leaves the scheduler busy for ever
(`ioSched_busy_iff`), and a spurious interrupt answers a request that nobody made or that has not
been served (`ioSched_spurious`).  Without failed starts and spurious interrupts the events are those
of `ioStep` (`sdStep_plain`), and the invariant of `RiscyOS.Io.SchedulerSpec` holds.
-/

set_option autoImplicit false

namespace RiscyOS

open Memory

/-- How `sd_start_read` comes out. -/
inductive SdResponse
  /-- The start token has come, and the block transfer is under way. -/
  | transfer
  /-- There is no response to the command. -/
  | noResponse
  /-- The attempts have run out, or the token is another one. -/
  | badToken
  deriving DecidableEq, Repr

section Model

variable {κ σ : Type}

/-! ## The functions, for any outcome -/

/-- `sd_start_read`.  The state is set as soon as there is a response. -/
def sdStartReadWith (resp : SdResponse) (lba : Word) (s : IoState κ σ) : IoState κ σ :=
  match resp with
  | .transfer => sdStartRead lba s
  | .noResponse => { s with log := { s.log with issued := s.log.issued ++ [lba] } }
  | .badToken =>
    { s with sdState := .waitRead, log := { s.log with issued := s.log.issued ++ [lba] } }

/-- `io_sched_issue_next`. -/
def ioSchedIssueNextWith (resp : SdResponse) (s : IoState κ σ) : IoState κ σ :=
  if s.gIoSched.queueHead = null then s else
    let req := s.gIoSched.queueHead
    let s := { s with gIoSched.queueHead := (s.req req).next }
    let s := if s.gIoSched.queueHead = null then { s with gIoSched.queueTail := null } else s
    let s := { s with gIoSched.inFlight := req, gIoSched.state := .busy }
    sdStartReadWith resp (s.req req).lba s

/-- A submission, up to the question whether the scheduler is idle, and from there on. -/
def ioPostWith (resp : SdResponse) (req : Ptr) (lba : Word) (callback : κ) (ctx : Ptr)
    (s : IoState κ σ) : IoState κ σ :=
  let s := ioEnqueue req lba callback ctx s
  if s.gIoSched.state = .idle then ioSchedIssueNextWith resp s else s

/-- `io_sched_pump`, from the return of the callback back to the test of the loop. -/
def ioSchedPumpReturnWith (resp : SdResponse) (req : Ptr) (s : IoState κ σ) : IoState κ σ :=
  let s := { s with held := s.held.filter (· ≠ req) }
  let s := if s.gIoSched.state = .idle ∧ s.gIoSched.queueHead ≠ null then
    ioSchedIssueNextWith resp s else s
  { s with pump := .loop }

/-! ## Events -/

/-- What can happen next. -/
inductive SdEvent (κ : Type)
  | submit (req : Ptr) (lba : Word) (callback : κ) (ctx : Ptr) (resp : SdResponse)
  | irq
  /-- The handler is entered with no transfer to wait for. -/
  | spurious
  | pump
  | test
  | ret (resp : SdResponse)
  deriving DecidableEq, Repr

/-- How the card answers if the event starts a read. -/
def SdEvent.response : SdEvent κ → SdResponse
  | .submit _ _ _ _ resp => resp
  | .ret resp => resp
  | .irq | .spurious | .pump | .test => .transfer

/-- The event without the answer. -/
def SdEvent.plain : SdEvent κ → IoEvent κ
  | .submit req lba callback ctx _ => .submit req lba callback ctx
  | .irq => .irq
  | .spurious => .irq
  | .pump => .pump
  | .test => .test
  | .ret _ => .ret

/-- **One event.** -/
def sdStep (disk : Word → σ) (e : SdEvent κ) (s : IoState κ σ) : Option (IoState κ σ) :=
  match e with
  | .submit req lba callback ctx resp =>
    if s.pump ≠ .loop ∧ req ≠ null ∧ req ∉ s.held then
      some (ioPostWith resp req lba callback ctx s)
    else none
  | .spurious =>
    if s.sdState ≠ .waitRead ∧ s.sdState ≠ .waitWrite then some (sdIrsqHandler s) else none
  | .ret resp =>
    match s.pump with
    | .callback req => some (ioSchedPumpReturnWith resp req s)
    | _ => none
  | .irq => ioStep disk .irq s
  | .pump => ioStep disk .pump s
  | .test => ioStep disk .test s

/-- The event issues a request: a submission to an idle scheduler, and the return of a callback that
has left the scheduler idle with requests waiting. -/
def StartsRead (e : SdEvent κ) (s : IoState κ σ) : Prop :=
  match e with
  | .submit .. => s.gIoSched.state = .idle
  | .ret _ => s.gIoSched.state = .idle ∧ s.gIoSched.queueHead ≠ null
  | .irq | .spurious | .pump | .test => False

/-- No read fails to start. -/
def StartOk (e : SdEvent κ) (s : IoState κ σ) : Prop := StartsRead e s → e.response = .transfer

/-- The card does what it should: no read fails to start and no interrupt is spurious. -/
def Faultless (e : SdEvent κ) (s : IoState κ σ) : Prop := StartOk e s ∧ e ≠ .spurious

/-- The states reached by events that are all among `P`. -/
inductive SdReach (disk : Word → σ) (P : SdEvent κ → IoState κ σ → Prop) : IoState κ σ → Prop
  | init (ring : IrqRing) (req : Ptr → IoReq κ) (rx : Option σ) :
      SdReach disk P (.init ring req rx)
  | step {s s' : IoState κ σ} {e : SdEvent κ} (h : SdReach disk P s) (hP : P e s)
      (hs : sdStep disk e s = some s') : SdReach disk P s'

end Model

section Spec

variable {κ σ : Type} {disk : Word → σ} {s s' : IoState κ σ} {e : SdEvent κ}

theorem ioEnqueue_state {req : Ptr} {lba : Word} {callback : κ} {ctx : Ptr} :
    (ioEnqueue req lba callback ctx s).gIoSched.state = s.gIoSched.state := by
  rw [ioEnqueue_eq]

/-- **Without faults** an event is one of the scheduler with a good card. -/
theorem sdStep_plain (hok : StartOk e s) (hne : e ≠ .spurious) (hs : sdStep disk e s = some s') :
    ioStep disk e.plain s = some s' := by
  cases e with
  | submit req lba callback ctx resp =>
    rw [← hs, SdEvent.plain, ioStep, sdStep]
    refine if_congr Iff.rfl (congrArg some ?_) rfl
    by_cases hidle : s.gIoSched.state = .idle
    · rw [show resp = .transfer from hok hidle]
      rfl
    · -- the request is only queued
      rw [ioPost_eq, if_neg hidle, ioPostWith, if_neg (by rwa [ioEnqueue_state])]
  | spurious => exact absurd rfl hne
  | ret resp =>
    rw [← hs, SdEvent.plain, ioStep, sdStep]
    cases hp : s.pump with
    | callback req =>
      dsimp only
      rw [ioSchedPumpReturn, ioSchedPumpReturnWith]
      by_cases hstart : s.gIoSched.state = .idle ∧ s.gIoSched.queueHead ≠ null
      · rw [show resp = .transfer from hok hstart]
        rfl
      · simp only [if_neg hstart]
    | outside => rfl
    | loop => rfl
  | irq => exact hs
  | pump => exact hs
  | test => exact hs

theorem SdReach.plain (h : SdReach disk Faultless s) : IoReach disk s := by
  induction h with
  | init ring req rx => exact .init ring req rx
  | step _ hok hs ih => exact ih.step (sdStep_plain hok.1 hok.2 hs)

/-! ## Failed starts -/

/-- The scheduler is busy only while a transfer is going on or its completion waits on the ring. -/
def BusyWithCause (s : IoState κ σ) : Prop :=
  s.gIoSched.state = .busy → s.reading ≠ none ∨ s.gSdIrqRing.head ≠ s.gSdIrqRing.tail

theorem IoInv.busyWithCause (h : IoInv disk s) : BusyWithCause s := by
  intro hbusy
  obtain ⟨q, -, ⟨hrest, -⟩ | ⟨-, hr | hc⟩⟩ := h
  · exact absurd (hbusy.symm.trans hrest.state) (by decide)
  · exact Or.inl (by rw [hr.reading]; simp)
  · exact Or.inr (by rw [hc.ring]; exact counter_succ_ne _)

theorem IoInv.rest_of_idle (h : IoInv disk s) (hidle : s.gIoSched.state = .idle) : IoRest s := by
  obtain ⟨q, -, ⟨hrest, -⟩ | ⟨hflight, -⟩⟩ := h
  · exact hrest
  · exact absurd (hidle.symm.trans hflight.state) (by decide)

/-- A start that fails leaves the scheduler busy with nothing going on. -/
theorem issueNextWith_wedged {resp : SdResponse} (hresp : resp ≠ .transfer)
    (hhead : s.gIoSched.queueHead ≠ null) (hread : s.reading = none)
    (hring : s.gSdIrqRing.head = s.gSdIrqRing.tail) :
    ¬ BusyWithCause (ioSchedIssueNextWith resp s) := by
  rw [ioSchedIssueNextWith, if_neg hhead]
  intro h
  cases resp with
  | transfer => exact hresp rfl
  | noResponse =>
    dsimp only [sdStartReadWith] at h
    split at h <;> exact (h rfl).elim (fun hr => hr hread) fun hr => hr hring
  | badToken =>
    dsimp only [sdStartReadWith] at h
    split at h <;> exact (h rfl).elim (fun hr => hr hread) fun hr => hr hring

/-- **An event that fails to start a read wedges the scheduler.** -/
theorem IoInv.wedged (h : IoInv disk s) (hstart : StartsRead e s) (hresp : e.response ≠ .transfer)
    (hs : sdStep disk e s = some s') : ¬ BusyWithCause s' := by
  cases e with
  | submit req lba callback ctx resp =>
    have hrest := h.rest_of_idle hstart
    rw [sdStep, Option.ite_none_right_eq_some] at hs
    obtain ⟨⟨-, hreq, hfresh⟩, hs⟩ := hs
    obtain rfl := Option.some.inj hs
    rw [ioPostWith, if_pos (by rwa [ioEnqueue_state])]
    obtain ⟨q, hqueue, -⟩ := h
    have henq : IoQueue disk (ioEnqueue req lba callback ctx s) (q ++ [req]) :=
      hqueue.enqueue hreq hfresh
    refine issueNextWith_wedged hresp (fun hnull => ?_) ?_ ?_
    · have hnil : q ++ [req] = [] := henq.linked.unique hnull
      exact absurd hnil (by simp)
    · rw [ioEnqueue_eq]
      exact hrest.reading
    · rw [ioEnqueue_eq]
      exact hrest.ring
  | ret resp =>
    obtain ⟨hidle, hhead⟩ := hstart
    have hrest := h.rest_of_idle hidle
    rw [sdStep] at hs
    cases hp : s.pump with
    | callback req =>
      rw [hp] at hs
      obtain rfl := Option.some.inj hs
      rw [ioSchedPumpReturnWith]
      dsimp only
      rw [if_pos ⟨hidle, hhead⟩]
      exact issueNextWith_wedged (s := { s with held := s.held.filter (· ≠ req) }) hresp hhead
        hrest.reading hrest.ring
    | outside => rw [hp] at hs; exact absurd hs (by simp)
    | loop => rw [hp] at hs; exact absurd hs (by simp)
  | irq => exact hstart.elim
  | spurious => exact hstart.elim
  | pump => exact hstart.elim
  | test => exact hstart.elim

/-- **When the scheduler is not wedged.**  As long as no read has failed to start, the scheduler is
busy only with cause, and the next event keeps it so if and only if it does not fail to start a
read either. -/
theorem ioSched_busy_iff (disk : Word → σ) (s : IoState κ σ) (h : SdReach disk Faultless s) :
    BusyWithCause s ∧ ∀ (e : SdEvent κ) (s' : IoState κ σ), e ≠ .spurious →
      sdStep disk e s = some s' → (BusyWithCause s' ↔ StartOk e s) := by
  have hinv := h.plain.inv
  refine ⟨hinv.busyWithCause, fun e s' hne hs => ⟨fun hb hstart => ?_, fun hok => ?_⟩⟩
  · by_contra hresp
    exact hinv.wedged hstart hresp hs hb
  · exact (hinv.step (sdStep_plain hok hne hs)).busyWithCause

/-! ## Spurious interrupts -/

/-- When the pump has a completion to consume, there is a request in flight and its read is over. -/
def PumpSound (s : IoState κ σ) : Prop :=
  s.pump = .loop → s.gSdIrqRing.head ≠ s.gSdIrqRing.tail →
    s.gIoSched.inFlight ≠ null ∧ s.reading = none

/-- One event of a card that does what it should. -/
def SdNext (disk : Word → σ) (s s' : IoState κ σ) : Prop :=
  ∃ e : SdEvent κ, Faultless e s ∧ sdStep disk e s = some s'

/-- The pump can come to be unsound without any further fault. -/
def LeadsToUnsound (disk : Word → σ) (s : IoState κ σ) : Prop :=
  ∃ s', Relation.ReflTransGen (SdNext disk) s s' ∧ ¬ PumpSound s'

theorem LeadsToUnsound.head (hs : SdNext disk s s') (h : LeadsToUnsound disk s') :
    LeadsToUnsound disk s :=
  let ⟨t, ht, hbad⟩ := h
  ⟨t, .head hs ht, hbad⟩

theorem LeadsToUnsound.here (h : ¬ PumpSound s) : LeadsToUnsound disk s := ⟨s, .refl, h⟩

theorem IoInv.pumpSound (h : IoInv disk s) : PumpSound s := by
  intro _ hne
  obtain ⟨q, -, ⟨hrest, -⟩ | ⟨hflight, hr | hc⟩⟩ := h
  · exact absurd hrest.ring hne
  · exact absurd hr.ring hne
  · exact ⟨hflight.flight, hc.reading⟩

/-- A handler that has nothing to wait for only puts a completion on the ring. -/
theorem sdStep_spurious (hs : sdStep disk .spurious s = some s') :
    (s.sdState ≠ .waitRead ∧ s.sdState ≠ .waitWrite) ∧ s'.pump = s.pump ∧
      s'.gIoSched = s.gIoSched ∧ s'.reading = s.reading ∧ s'.req = s.req ∧
      s'.gSdIrqRing.head = s.gSdIrqRing.head + 1 ∧ s'.gSdIrqRing.tail = s.gSdIrqRing.tail := by
  rw [sdStep, Option.ite_none_right_eq_some] at hs
  obtain ⟨hsd, hs⟩ := hs
  obtain rfl := Option.some.inj hs
  refine ⟨hsd, ?_⟩
  cases hstate : s.sdState with
  | waitRead => exact absurd hstate hsd.1
  | waitWrite => exact absurd hstate hsd.2
  | idle => simp only [sdIrsqHandler, hstate, and_self]
  | error => simp only [sdIrsqHandler, hstate, and_self]

/-- The callback returns and a completion is left: it finds nobody in flight, or the request that
has just been issued. -/
theorem LeadsToUnsound.of_callback {r : Ptr} (hp : s.pump = .callback r)
    (hflight : s.gIoSched.inFlight = null) (hidle : s.gIoSched.state = .idle)
    (hne : s.gSdIrqRing.head ≠ s.gSdIrqRing.tail) : LeadsToUnsound disk s := by
  have hstep : sdStep disk (.ret .transfer) s = some (ioSchedPumpReturn r s) := by
    rw [sdStep, hp]
    rfl
  refine .head ⟨.ret .transfer, ⟨fun _ => rfl, nofun⟩, hstep⟩ (.here fun hsound => ?_)
  rw [ioSchedPumpReturn_eq] at hsound
  by_cases hhead : s.gIoSched.queueHead = null
  · simp only [if_neg fun hc : s.gIoSched.state = .idle ∧ s.gIoSched.queueHead ≠ null =>
      hc.2 hhead] at hsound
    exact (hsound rfl hne).1 hflight
  · simp only [if_pos (And.intro hidle hhead), ioSchedIssueNext, if_neg hhead] at hsound
    split at hsound <;> exact absurd (hsound rfl hne).2 (by simp [sdStartRead])

/-- Two completions for one request. -/
theorem LeadsToUnsound.of_loop (hp : s.pump = .loop)
    (hring : s.gSdIrqRing.head = s.gSdIrqRing.tail + 2) : LeadsToUnsound disk s := by
  have hne : s.gSdIrqRing.head ≠ s.gSdIrqRing.tail := by
    rw [hring]
    bv_omega
  have hstep : sdStep disk .test s = some (ioSchedPumpTest s) := by
    rw [sdStep, ioStep, if_pos hp]
  refine .head ⟨.test, ⟨fun _ => rfl, by simp⟩, hstep⟩ ?_
  rw [ioSchedPumpTest, if_pos hne]
  refine .of_callback rfl rfl rfl ?_
  show s.gSdIrqRing.head ≠ s.gSdIrqRing.tail + 1
  rw [hring]
  bv_omega

/-- With nothing in flight, a completion is for nobody. -/
theorem IoRest.leadsToUnsound (h : IoRest s) (hs : sdStep disk .spurious s = some s') :
    LeadsToUnsound disk s' := by
  obtain ⟨-, hpump, hsched, -, -, hhead, htail⟩ := sdStep_spurious hs
  have hne : s'.gSdIrqRing.head ≠ s'.gSdIrqRing.tail := by
    rw [hhead, htail, h.ring]
    exact counter_succ_ne _
  have hflight : s'.gIoSched.inFlight = null := by rw [hsched, h.flight]
  cases hp : s'.pump with
  | loop => exact .here fun hsound => (hsound hp hne).1 hflight
  | callback r => exact .of_callback hp hflight (by rw [hsched, h.state]) hne
  | outside =>
    have hstep : sdStep disk .pump s' = some { s' with pump := .loop } := by
      rw [sdStep, ioStep, if_pos hp]
    refine .head ⟨.pump, ⟨fun _ => rfl, by simp⟩, hstep⟩ (.here fun hsound => ?_)
    exact (hsound rfl hne).1 hflight

/-- With a completion on the ring already, there are two. -/
theorem IoFlight.leadsToUnsound {q : List Ptr} (hflight : IoFlight s q) (hc : IoCompleted disk s)
    (hs : sdStep disk .spurious s = some s') : LeadsToUnsound disk s' := by
  obtain ⟨-, hpump, hsched, -, -, hhead, htail⟩ := sdStep_spurious hs
  have hring : s'.gSdIrqRing.head = s'.gSdIrqRing.tail + 2 := by
    rw [hhead, htail, hc.ring]
    bv_omega
  cases hp : s'.pump with
  | loop => exact .of_loop hp hring
  | callback r =>
    -- the scheduler is busy, so that the return issues nothing
    have hstep : sdStep disk (.ret .transfer) s' = some (ioSchedPumpReturn r s') := by
      rw [sdStep, hp]
      rfl
    refine .head ⟨.ret .transfer, ⟨fun _ => rfl, by simp⟩, hstep⟩ ?_
    have hbusy : ¬ (s'.gIoSched.state = .idle ∧ s'.gIoSched.queueHead ≠ null) := by
      rw [hsched, hflight.state]
      exact fun hidle => absurd hidle.1 (by decide)
    rw [ioSchedPumpReturn_eq, if_neg hbusy]
    exact .of_loop rfl hring
  | outside =>
    have hstep : sdStep disk .pump s' = some { s' with pump := .loop } := by
      rw [sdStep, ioStep, if_pos hp]
    exact .head ⟨.pump, ⟨fun _ => rfl, by simp⟩, hstep⟩ (.of_loop rfl hring)

/-- **A spurious interrupt is never harmless.** -/
theorem IoInv.leadsToUnsound (h : IoInv disk s) (hs : sdStep disk .spurious s = some s') :
    LeadsToUnsound disk s' := by
  obtain ⟨q, -, ⟨hrest, -⟩ | ⟨hflight, hr | hc⟩⟩ := h
  · exact hrest.leadsToUnsound hs
  · exact absurd hr.sd (sdStep_spurious hs).1.1
  · exact hflight.leadsToUnsound hc hs

/-- **When the pump is sound.**  In a run without spurious interrupts, the pump never has a
completion to consume unless there is a request in flight whose read is over; and from the first
spurious interrupt, whenever it comes, the pump can come to have one, without any further fault. -/
theorem ioSched_spurious (disk : Word → σ) (s : IoState κ σ) (h : SdReach disk Faultless s) :
    PumpSound s ∧ ∀ s', sdStep disk .spurious s = some s' → LeadsToUnsound disk s' :=
  ⟨h.plain.inv.pumpSound, fun _ hs => h.plain.inv.leadsToUnsound hs⟩

end Spec

/-! ## Runs

Short scripts from the idle scheduler: with a good card, with one that does not answer, and with an
interrupt that nobody asked for. -/

/-- The first state. -/
def faultStart : IoState Unit Word := .init ⟨0, 0, fun _ => 0⟩ (fun _ => ⟨0, (), 0, 0⟩) none

/-- The state after a script, on a card whose sectors hold their own numbers. -/
def faultRun (es : List (SdEvent Unit)) : Option (IoState Unit Word) :=
  es.foldlM (fun s e => sdStep id e s) faultStart

/-- A script whose events are all among `P` leads to a reached state. -/
theorem faultRun_reach {P : SdEvent Unit → IoState Unit Word → Prop} (es : List (SdEvent Unit))
    (hP : ∀ e ∈ es, ∀ s, P e s) (hsome : (faultRun es).isSome) :
    ∃ s, faultRun es = some s ∧ SdReach id P s := by
  obtain ⟨s', hs'⟩ := Option.isSome_iff_exists.1 hsome
  refine ⟨s', hs', ?_⟩
  rw [faultRun] at hs'
  have hreach : SdReach id P faultStart := .init _ _ _
  generalize faultStart = s at hs' hreach
  clear hsome
  induction es generalizing s with
  | nil => exact Option.some.inj hs' ▸ hreach
  | cons e es ih =>
    rw [List.foldlM_cons, Option.bind_eq_bind, Option.bind_eq_some_iff] at hs'
    obtain ⟨t, ht, hs'⟩ := hs'
    exact ih (fun e he => hP e (List.mem_cons_of_mem _ he)) t hs'
      (hreach.step (hP e List.mem_cons_self s) ht)

/-- A request at a good card. -/
def goodScript : List (SdEvent Unit) := [.submit 0x100 5 () 0x40 .transfer, .irq, .pump]

theorem goodScript_faultless : ∀ e ∈ goodScript, ∀ s : IoState Unit Word, Faultless e s := by
  intro e he s
  simp only [goodScript, List.mem_cons, List.not_mem_nil, or_false] at he
  rcases he with rfl | rfl | rfl
  · exact ⟨fun _ => rfl, nofun⟩
  · exact ⟨fun _ => rfl, nofun⟩
  · exact ⟨fun _ => rfl, nofun⟩

/-- The scheduler is busy with the good request, and with cause. -/
theorem ioSched_busy_goodScript :
    ∃ s, faultRun goodScript = some s ∧ s.gIoSched.state = .busy ∧ BusyWithCause s := by
  obtain ⟨s, hs, hreach⟩ := faultRun_reach goodScript goodScript_faultless (by decide)
  have hbusy : (faultRun goodScript).map (·.gIoSched.state) = some .busy := by decide
  rw [hs] at hbusy
  exact ⟨s, hs, Option.some.inj hbusy, (ioSched_busy_iff id s hreach).1⟩

/-- The pump has a completion to consume, and it is that of the request in flight. -/
theorem ioSched_spurious_goodScript :
    ∃ s, faultRun goodScript = some s ∧ s.pump = .loop ∧
      s.gSdIrqRing.head ≠ s.gSdIrqRing.tail ∧ s.gIoSched.inFlight ≠ null ∧ s.reading = none := by
  obtain ⟨s, hs, hreach⟩ := faultRun_reach goodScript goodScript_faultless (by decide)
  have hpump : (faultRun goodScript).map (·.pump) = some .loop := by decide
  have hring : (faultRun goodScript).map (fun s => decide (s.gSdIrqRing.head = s.gSdIrqRing.tail)) =
      some false := by decide
  rw [hs] at hpump hring
  have hne := of_decide_eq_false (Option.some.inj hring)
  exact ⟨s, hs, Option.some.inj hpump, hne,
    (ioSched_spurious id s hreach).1 (Option.some.inj hpump) hne⟩

/-- **A card that does not answer** wedges the scheduler. -/
theorem ioSched_wedged_noResponse :
    ¬ ∀ s : IoState Unit Word, SdReach id (fun e _ => e ≠ .spurious) s → BusyWithCause s := by
  intro h
  have hP : ∀ e ∈ ([.submit 0x100 5 () 0x40 .noResponse] : List (SdEvent Unit)),
      ∀ _ : IoState Unit Word, e ≠ .spurious := by simp
  obtain ⟨s, hs, hreach⟩ := faultRun_reach _ hP (by decide)
  have hstate : (faultRun [.submit 0x100 5 () 0x40 .noResponse]).map (·.gIoSched.state) =
      some .busy := by decide
  have hreading : (faultRun [.submit 0x100 5 () 0x40 .noResponse]).map (·.reading) =
      some none := by decide
  have hring : (faultRun [.submit 0x100 5 () 0x40 .noResponse]).map
      (fun s => (s.gSdIrqRing.head, s.gSdIrqRing.tail)) = some (0, 0) := by decide
  rw [hs] at hstate hreading hring
  obtain ⟨hhead, htail⟩ := Prod.mk.inj (Option.some.inj hring)
  exact (h s hreach (Option.some.inj hstate)).elim (fun hr => hr (Option.some.inj hreading))
    fun hr => hr (hhead.trans htail.symm)

/-- **An interrupt nobody asked for** has the pump follow a null pointer. -/
theorem ioSched_spurious_null :
    ¬ ∀ s : IoState Unit Word, SdReach id StartOk s → PumpSound s := by
  intro h
  have hP : ∀ e ∈ ([.spurious, .pump] : List (SdEvent Unit)),
      ∀ s : IoState Unit Word, StartOk e s := by
    intro e he s
    simp only [List.mem_cons, List.not_mem_nil, or_false] at he
    rcases he with rfl | rfl <;> exact fun _ => rfl
  obtain ⟨s, hs, hreach⟩ := faultRun_reach _ hP (by decide)
  have hpump : (faultRun [.spurious, .pump]).map (·.pump) = some .loop := by decide
  have hring : (faultRun [.spurious, .pump]).map
      (fun s => (s.gSdIrqRing.head, s.gSdIrqRing.tail)) = some (1, 0) := by decide
  have hflight : (faultRun [.spurious, .pump]).map (·.gIoSched.inFlight) = some null := by decide
  rw [hs] at hpump hring hflight
  obtain ⟨hhead, htail⟩ := Prod.mk.inj (Option.some.inj hring)
  refine (h s hreach (Option.some.inj hpump) ?_).1 (Option.some.inj hflight)
  rw [hhead, htail]
  decide

end RiscyOS
