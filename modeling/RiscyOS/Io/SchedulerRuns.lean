import RiscyOS.Io.SchedulerSpec

/-!
# The scheduler delivers

What `IoInv` gives in every reachable state is the order: reads are started in the order of
submission, callbacks are invoked in that order too, each after its own completion.  That nothing
is lost is a matter of whole runs.  A run is *fair* when the card completes the read it is given,
the timer keeps calling the pump, and the pump and the callbacks do not stand still; along a fair
run every request is answered (`IoRun.eventually_called`).

Three lemmas say what any event can do to a request that waits: at rest the next event starts a
read (`IoInv.step_rest`), a read ends in its interrupt (`IoInv.step_reading`), and a completion ends
in the test of the loop (`IoInv.step_completed`).
-/

set_option autoImplicit false

namespace RiscyOS

open Memory

section Runs

variable {κ σ : Type} {disk : Word → σ} {s s' : IoState κ σ} {e : IoEvent κ}

/-! ## What is kept of the past -/

@[simp]
theorem ioSchedIssueNext_submitted :
    (ioSchedIssueNext s).log.submitted = s.log.submitted := by
  by_cases h : s.gIoSched.queueHead = null
  · rw [ioSchedIssueNext, if_pos h]
  · rw [ioSchedIssueNext_of_ne h]

@[simp]
theorem ioSchedIssueNext_called : (ioSchedIssueNext s).log.called = s.log.called := by
  by_cases h : s.gIoSched.queueHead = null
  · rw [ioSchedIssueNext, if_pos h]
  · rw [ioSchedIssueNext_of_ne h]

@[simp]
theorem ioSchedIssueNext_pump : (ioSchedIssueNext s).pump = s.pump := by
  by_cases h : s.gIoSched.queueHead = null
  · rw [ioSchedIssueNext, if_pos h]
  · rw [ioSchedIssueNext_of_ne h]

theorem ioPost_log (req : Ptr) (lba : Word) (callback : κ) (ctx : Ptr) (s : IoState κ σ) :
    (ioPost req lba callback ctx s).log.submitted = s.log.submitted ++ [(lba, callback, ctx)] ∧
      (ioPost req lba callback ctx s).log.called = s.log.called ∧
      (ioPost req lba callback ctx s).pump = s.pump := by
  rw [ioPost_eq]
  split
  · simp only [ioSchedIssueNext_submitted, ioSchedIssueNext_called, ioSchedIssueNext_pump]
    rw [ioEnqueue_eq]
    exact ⟨rfl, rfl, rfl⟩
  · rw [ioEnqueue_eq]
    exact ⟨rfl, rfl, rfl⟩

theorem ioSchedPumpReturn_log (r : Ptr) (s : IoState κ σ) :
    (ioSchedPumpReturn r s).log.submitted = s.log.submitted ∧
      (ioSchedPumpReturn r s).log.called = s.log.called ∧
      (ioSchedPumpReturn r s).pump = .loop := by
  rw [ioSchedPumpReturn_eq]
  simp only
  split
  · exact ⟨ioSchedIssueNext_submitted, ioSchedIssueNext_called, ioSchedIssueNext_pump⟩
  · exact ⟨rfl, rfl, rfl⟩

/-- The log of submissions grows at its end, and so does the log of calls, by one at a time. -/
theorem ioStep_log (hs : ioStep disk e s = some s') :
    s.log.submitted <+: s'.log.submitted ∧
      (s'.log.called = s.log.called ∨
        e = .test ∧ s.gSdIrqRing.head ≠ s.gSdIrqRing.tail ∧
          s'.log.called.length = s.log.called.length + 1) := by
  obtain ⟨req, lba, callback, ctx, rfl, -, -, -, rfl⟩ | ⟨lba, rfl, hread, rfl⟩ |
    ⟨rfl, hp, rfl⟩ | ⟨rfl, hp, rfl⟩ | ⟨r, rfl, hp, rfl⟩ := ioStep_cases hs
  · obtain ⟨hsub, hcalled, -⟩ := ioPost_log req lba callback ctx s
    rw [hsub]
    exact ⟨List.prefix_append _ _, Or.inl hcalled⟩
  · exact ⟨List.prefix_rfl, Or.inl rfl⟩
  · exact ⟨List.prefix_rfl, Or.inl rfl⟩
  · rw [ioSchedPumpTest]
    split
    · rename_i hne
      exact ⟨List.prefix_rfl, Or.inr ⟨rfl, hne, by simp⟩⟩
    · exact ⟨List.prefix_rfl, Or.inl rfl⟩
  · obtain ⟨hsub, hcalled, -⟩ := ioSchedPumpReturn_log r s
    rw [hsub]
    exact ⟨List.prefix_rfl, Or.inl hcalled⟩

/-! ## What becomes of a request that waits -/

/-- One more on the ring is seen, also when the counter wraps. -/
theorem counter_succ_ne (counter : Byte) : counter + 1 ≠ counter := by
  bv_omega

/-- While something is in flight, submitting only queues. -/
theorem ioPost_of_busy {req : Ptr} {lba : Word} {callback : κ} {ctx : Ptr}
    (h : s.gIoSched.state = .busy) :
    ioPost req lba callback ctx s = ioEnqueue req lba callback ctx s := by
  rw [ioPost_eq, if_neg (by rw [h]; decide)]

/-- While something is in flight, a callback returns to the loop and nothing else happens. -/
theorem ioSchedPumpReturn_of_busy {r : Ptr} (h : s.gIoSched.state = .busy) :
    ioSchedPumpReturn r s = { s with held := s.held.filter (· ≠ r), pump := .loop } := by
  rw [ioSchedPumpReturn_eq]
  exact if_neg fun hc => absurd (h.symm.trans hc.1) (by decide)

theorem IoInv.of_reading (h : IoInv disk s) (hr : s.reading ≠ none) :
    s.gIoSched.state = .busy ∧ s.gSdIrqRing.head = s.gSdIrqRing.tail ∧ s.sdState = .waitRead := by
  obtain ⟨q, -, ⟨hrest, -⟩ | ⟨hflight, hread | hc⟩⟩ := h
  · exact absurd hrest.reading hr
  · exact ⟨hflight.state, hread.ring, hread.sd⟩
  · exact absurd hc.reading hr

theorem IoInv.of_completed (h : IoInv disk s) (hne : s.gSdIrqRing.head ≠ s.gSdIrqRing.tail) :
    s.gIoSched.state = .busy ∧ s.reading = none := by
  obtain ⟨q, -, ⟨hrest, -⟩ | ⟨hflight, hread | hc⟩⟩ := h
  · exact absurd hrest.ring hne
  · exact absurd hread.ring hne
  · exact ⟨hflight.state, hc.reading⟩

/-- **From rest.**  If a request waits while nothing is at the card, a callback is running, and
whatever comes next starts a read. -/
theorem IoInv.step_rest (h : IoInv disk s) (hs : ioStep disk e s = some s')
    (hread : s.reading = none) (hring : s.gSdIrqRing.head = s.gSdIrqRing.tail)
    (hwait : s.log.called.length < s.log.submitted.length) :
    s'.reading ≠ none ∧ s'.log.called = s.log.called := by
  obtain ⟨q, hqueue, ⟨hrest, hq⟩ | ⟨hflight, hr | hc⟩⟩ := h
  · have hqne : q ≠ [] := by
      rintro rfl
      have hlen := congrArg List.length hqueue.waiting
      rw [List.length_map, List.length_nil, List.length_drop, hrest.issued] at hlen
      omega
    have hcb : ∃ r, s.pump = .callback r := by
      by_contra hno
      exact hqne (hq fun r hr => hno ⟨r, hr⟩)
    obtain ⟨r, hcb⟩ := hcb
    obtain ⟨req, lba, callback, ctx, rfl, -, hreq, -, rfl⟩ | ⟨lba, rfl, hr, rfl⟩ |
      ⟨rfl, hp, rfl⟩ | ⟨rfl, hp, rfl⟩ | ⟨r', rfl, hp, rfl⟩ := ioStep_cases hs
    · refine ⟨?_, (ioPost_log req lba callback ctx s).2.1⟩
      have hhead : (ioEnqueue req lba callback ctx s).gIoSched.queueHead ≠ null := by
        rw [ioEnqueue_eq]
        simp only
        split
        · obtain ⟨a, q', rfl⟩ := List.exists_cons_of_ne_nil hqne
          rw [hqueue.linked.1]
          exact hqueue.linked.2.1
        · exact hreq
      rw [ioPost_eq, if_pos hrest.state, ioSchedIssueNext_of_ne hhead]
      exact Option.some_ne_none _
    · rw [hread] at hr
      exact absurd hr (by simp)
    · rw [hcb] at hp
      exact absurd hp nofun
    · rw [hcb] at hp
      exact absurd hp nofun
    · refine ⟨?_, (ioSchedPumpReturn_log r' s).2.1⟩
      have hhead : s.gIoSched.queueHead ≠ null := by
        obtain ⟨a, q', rfl⟩ := List.exists_cons_of_ne_nil hqne
        rw [hqueue.linked.1]
        exact hqueue.linked.2.1
      rw [ioSchedPumpReturn_eq, if_pos ⟨hrest.state, hhead⟩]
      rw [@ioSchedIssueNext_of_ne _ _ { s with held := s.held.filter (· ≠ r'), pump := .loop } hhead]
      exact Option.some_ne_none _
  · rw [hr.reading] at hread
    exact absurd hread (by simp)
  · rw [hc.ring] at hring
    exact absurd hring (counter_succ_ne _)

/-- **While a read is in progress** nothing ends it but its interrupt. -/
theorem IoInv.step_reading (h : IoInv disk s) (hs : ioStep disk e s = some s')
    (hread : s.reading ≠ none) : s'.log.called = s.log.called ∧
      (e ≠ .irq ∧ s'.reading ≠ none ∨ e = .irq ∧ s'.gSdIrqRing.head ≠ s'.gSdIrqRing.tail) := by
  obtain ⟨hbusy, hring, hsd⟩ := h.of_reading hread
  obtain ⟨req, lba, callback, ctx, rfl, -, -, -, rfl⟩ | ⟨lba, rfl, -, rfl⟩ |
    ⟨rfl, -, rfl⟩ | ⟨rfl, -, rfl⟩ | ⟨r, rfl, -, rfl⟩ := ioStep_cases hs
  · rw [ioPost_of_busy hbusy, ioEnqueue_eq]
    exact ⟨rfl, Or.inl ⟨by simp, hread⟩⟩
  · refine ⟨rfl, Or.inr ⟨rfl, ?_⟩⟩
    simp only [sdIrsqHandler, hsd, sdTailRead, hring]
    exact counter_succ_ne _
  · exact ⟨rfl, Or.inl ⟨by simp, hread⟩⟩
  · rw [ioSchedPumpTest, if_neg (not_not.2 hring)]
    exact ⟨rfl, Or.inl ⟨by simp, hread⟩⟩
  · rw [ioSchedPumpReturn_of_busy hbusy]
    exact ⟨rfl, Or.inl ⟨by simp, hread⟩⟩

/-- **While a completion is on the ring** nothing takes it off but the test of the loop, and the
pump goes from outside, or from a callback, to the loop. -/
theorem IoInv.step_completed (h : IoInv disk s) (hs : ioStep disk e s = some s')
    (hne : s.gSdIrqRing.head ≠ s.gSdIrqRing.tail) :
    e = .test ∧ s'.log.called.length = s.log.called.length + 1 ∨
      s'.log.called = s.log.called ∧ s'.gSdIrqRing.head ≠ s'.gSdIrqRing.tail ∧
        ((e = .pump ∨ e = .ret) ∧ s'.pump = .loop ∨
          e ≠ .pump ∧ e ≠ .ret ∧ s.pump ≠ .loop ∧ s'.pump = s.pump) := by
  obtain ⟨hbusy, hread⟩ := h.of_completed hne
  obtain ⟨req, lba, callback, ctx, rfl, hp, -, -, rfl⟩ | ⟨lba, rfl, hr, rfl⟩ |
    ⟨rfl, -, rfl⟩ | ⟨rfl, -, rfl⟩ | ⟨r, rfl, -, rfl⟩ := ioStep_cases hs
  · rw [ioPost_of_busy hbusy, ioEnqueue_eq]
    exact Or.inr ⟨rfl, hne, Or.inr ⟨nofun, nofun, hp, rfl⟩⟩
  · rw [hread] at hr
    exact absurd hr (by simp)
  · exact Or.inr ⟨rfl, hne, Or.inl ⟨Or.inl rfl, rfl⟩⟩
  · rw [ioSchedPumpTest, if_pos hne]
    exact Or.inl ⟨rfl, by simp⟩
  · rw [ioSchedPumpReturn_of_busy hbusy]
    exact Or.inr ⟨rfl, hne, Or.inl ⟨Or.inr rfl, rfl⟩⟩

/-! ## Runs -/

variable (κ disk) in
/-- An infinite run, from a reachable state. -/
structure IoRun where
  state : Nat → IoState κ σ
  event : Nat → IoEvent κ
  reach : IoReach disk (state 0)
  step : ∀ t, ioStep disk (event t) (state t) = some (state (t + 1))

/-- **Fairness.**  Every read started is completed, the timer keeps calling the pump, the pump gets
on with its loop, and every callback returns. -/
structure IoRun.Fair (ρ : IoRun κ disk) : Prop where
  irq : ∀ t, (ρ.state t).reading ≠ none → ∃ u, t ≤ u ∧ ρ.event u = .irq
  pump : ∀ t, (ρ.state t).pump = .outside → ∃ u, t ≤ u ∧ ρ.event u = .pump
  test : ∀ t, (ρ.state t).pump = .loop → ∃ u, t ≤ u ∧ ρ.event u = .test
  ret : ∀ t r, (ρ.state t).pump = .callback r → ∃ u, t ≤ u ∧ ρ.event u = .ret

namespace IoRun

variable (ρ : IoRun κ disk)

theorem reach_state (t : Nat) : IoReach disk (ρ.state t) := by
  induction t with
  | zero => exact ρ.reach
  | succ t ih => exact ih.step (ρ.step t)

theorem inv (t : Nat) : IoInv disk (ρ.state t) := (ρ.reach_state t).inv

theorem submitted_prefix {t u : Nat} (h : t ≤ u) :
    (ρ.state t).log.submitted <+: (ρ.state u).log.submitted := by
  induction h with
  | refl => exact List.prefix_rfl
  | step _ ih => exact ih.trans (ioStep_log (ρ.step _)).1

/-- The calls made so far. -/
def calls (t : Nat) : Nat := (ρ.state t).log.called.length

theorem calls_succ_le (t : Nat) : ρ.calls (t + 1) ≤ ρ.calls t + 1 := by
  rw [calls, calls]
  rcases (ioStep_log (ρ.step t)).2 with h | h
  · rw [h]
    exact Nat.le_succ _
  · exact le_of_eq h.2.2

variable {ρ}

/-- From the test of the loop, a completion reaches its callback. -/
theorem eventually_of_loop (hfair : ρ.Fair) {t n : Nat} (hn : ρ.calls t = n)
    (hne : (ρ.state t).gSdIrqRing.head ≠ (ρ.state t).gSdIrqRing.tail)
    (hp : (ρ.state t).pump = .loop) : ∃ u, t < u ∧ n < ρ.calls u := by
  refine Fair.eventually_of_fair (P := fun u => ρ.calls u = n ∧
      (ρ.state u).gSdIrqRing.head ≠ (ρ.state u).gSdIrqRing.tail ∧ (ρ.state u).pump = .loop)
    ⟨hn, hne, hp⟩ (hfair.test t hp) ?_ ?_
  · rintro u - ⟨rfl, hne, hp⟩ hno
    rcases (ρ.inv u).step_completed (ρ.step u) hne with ⟨he, -⟩ | ⟨hcalls, hne', hmove⟩
    · exact absurd he hno
    · rcases hmove with ⟨-, hp'⟩ | ⟨-, -, hp', -⟩
      · exact Or.inl ⟨congrArg List.length hcalls, hne', hp'⟩
      · exact absurd hp hp'
  · rintro u - ⟨rfl, hne, hp⟩ hocc
    rcases (ρ.inv u).step_completed (ρ.step u) hne with ⟨-, hcalls⟩ | ⟨-, -, hmove⟩
    · exact Nat.lt_of_lt_of_eq (Nat.lt_succ_self _) hcalls.symm
    · rw [hocc] at hmove
      rcases hmove with ⟨he, -⟩ | ⟨-, -, hp', -⟩
      · exact absurd he (by simp)
      · exact absurd hp hp'

/-- A completion gets the pump to its loop, by the event the pump is waiting for. -/
theorem eventually_loop {a : IoEvent κ} {pc : PumpPc} {t n : Nat} (ha : a = .pump ∨ a = .ret)
    (hn : ρ.calls t = n) (hne : (ρ.state t).gSdIrqRing.head ≠ (ρ.state t).gSdIrqRing.tail)
    (hp : (ρ.state t).pump = pc) (hocc : ∃ u, t ≤ u ∧ ρ.event u = a) :
    ∃ u, t < u ∧ (n < ρ.calls u ∨ ρ.calls u = n ∧
      (ρ.state u).gSdIrqRing.head ≠ (ρ.state u).gSdIrqRing.tail ∧ (ρ.state u).pump = .loop) := by
  refine Fair.eventually_of_fair (P := fun u => ρ.calls u = n ∧
      (ρ.state u).gSdIrqRing.head ≠ (ρ.state u).gSdIrqRing.tail ∧ (ρ.state u).pump = pc)
    ⟨hn, hne, hp⟩ hocc ?_ ?_
  · rintro u - ⟨rfl, hne, rfl⟩ -
    rcases (ρ.inv u).step_completed (ρ.step u) hne with ⟨-, hcalls⟩ | ⟨hcalls, hne', hmove⟩
    · exact Or.inr (Or.inl (Nat.lt_of_lt_of_eq (Nat.lt_succ_self _) hcalls.symm))
    · rcases hmove with ⟨-, hp'⟩ | ⟨-, -, -, hp'⟩
      · exact Or.inr (Or.inr ⟨congrArg List.length hcalls, hne', hp'⟩)
      · exact Or.inl ⟨congrArg List.length hcalls, hne', hp'⟩
  · rintro u - ⟨rfl, hne, rfl⟩ hocc
    rcases (ρ.inv u).step_completed (ρ.step u) hne with ⟨-, hcalls⟩ | ⟨hcalls, hne', hmove⟩
    · exact Or.inl (Nat.lt_of_lt_of_eq (Nat.lt_succ_self _) hcalls.symm)
    · rcases hmove with ⟨-, hp'⟩ | ⟨hpump, hret, -⟩
      · exact Or.inr ⟨congrArg List.length hcalls, hne', hp'⟩
      · rcases ha with rfl | rfl
        · exact absurd hocc hpump
        · exact absurd hocc hret

/-- **A completion reaches its callback**, wherever the pump is. -/
theorem eventually_of_completed (hfair : ρ.Fair) {t n : Nat} (hn : ρ.calls t = n)
    (hne : (ρ.state t).gSdIrqRing.head ≠ (ρ.state t).gSdIrqRing.tail) :
    ∃ u, t < u ∧ n < ρ.calls u := by
  have hdone : (∃ u, t < u ∧ (n < ρ.calls u ∨ ρ.calls u = n ∧
      (ρ.state u).gSdIrqRing.head ≠ (ρ.state u).gSdIrqRing.tail ∧ (ρ.state u).pump = .loop)) →
      ∃ u, t < u ∧ n < ρ.calls u := by
    rintro ⟨u, htu, hlt | ⟨hn, hne, hp⟩⟩
    · exact ⟨u, htu, hlt⟩
    · obtain ⟨v, huv, hv⟩ := eventually_of_loop hfair hn hne hp
      exact ⟨v, htu.trans huv, hv⟩
  cases hp : (ρ.state t).pump with
  | outside => exact hdone (eventually_loop (Or.inl rfl) hn hne hp (hfair.pump t hp))
  | loop => exact eventually_of_loop hfair hn hne hp
  | callback r => exact hdone (eventually_loop (Or.inr rfl) hn hne hp (hfair.ret t r hp))

/-- **A read reaches its callback.** -/
theorem eventually_of_reading (hfair : ρ.Fair) {t n : Nat} (hn : ρ.calls t = n)
    (hread : (ρ.state t).reading ≠ none) : ∃ u, t < u ∧ n < ρ.calls u := by
  have hcompl : ∃ u, t < u ∧ ρ.calls u = n ∧
      (ρ.state u).gSdIrqRing.head ≠ (ρ.state u).gSdIrqRing.tail := by
    refine Fair.eventually_of_fair (P := fun u => ρ.calls u = n ∧ (ρ.state u).reading ≠ none)
      ⟨hn, hread⟩ (hfair.irq t hread) ?_ ?_
    · rintro u - ⟨rfl, hread⟩ hno
      rcases (ρ.inv u).step_reading (ρ.step u) hread with ⟨hcalls, ⟨-, hread'⟩ | ⟨he, -⟩⟩
      · exact Or.inl ⟨congrArg List.length hcalls, hread'⟩
      · exact absurd he hno
    · rintro u - ⟨rfl, hread⟩ hocc
      rcases (ρ.inv u).step_reading (ρ.step u) hread with ⟨hcalls, ⟨he, -⟩ | ⟨-, hne⟩⟩
      · exact absurd hocc he
      · exact ⟨congrArg List.length hcalls, hne⟩
  obtain ⟨u, htu, hn, hne⟩ := hcompl
  obtain ⟨v, huv, hv⟩ := eventually_of_completed hfair hn hne
  exact ⟨v, htu.trans huv, hv⟩

/-- The oldest unanswered request is answered. -/
theorem eventually_next (hfair : ρ.Fair) (t : Nat)
    (hwait : ρ.calls t < (ρ.state t).log.submitted.length) :
    ∃ u, t < u ∧ ρ.calls t < ρ.calls u := by
  by_cases hread : (ρ.state t).reading = none
  · by_cases hring : (ρ.state t).gSdIrqRing.head = (ρ.state t).gSdIrqRing.tail
    · obtain ⟨hread', hcalls⟩ := (ρ.inv t).step_rest (ρ.step t) hread hring hwait
      obtain ⟨u, htu, hu⟩ := eventually_of_reading hfair (congrArg List.length hcalls) hread'
      exact ⟨u, Nat.lt_of_succ_lt htu, hu⟩
    · exact eventually_of_completed hfair rfl hring
  · exact eventually_of_reading hfair rfl hread

/-- **Every request is answered** along a fair run. -/
theorem eventually_called (hfair : ρ.Fair) (t i : Nat)
    (hi : i < (ρ.state t).log.submitted.length) : ∃ u, t ≤ u ∧ i < ρ.calls u := by
  -- by induction on the number of requests to be answered before
  induction hk : i + 1 - ρ.calls t using Nat.strong_induction_on generalizing t with
  | _ k ih =>
    by_cases hdone : i < ρ.calls t
    · exact ⟨t, le_refl t, hdone⟩
    · obtain ⟨u, htu, hu⟩ := eventually_next hfair t (by omega)
      have hsub := (ρ.submitted_prefix htu.le).length_le
      obtain ⟨v, huv, hv⟩ := ih (i + 1 - ρ.calls u) (by omega) u (by omega) rfl
      exact ⟨v, htu.le.trans huv, hv⟩

end IoRun

/-! ## Delivery -/

/-- What has been delivered: reads are started in the order of submission and callbacks invoked in
that order, each once, with its own sector in the buffer, and after its own completion. -/
structure InOrder (disk : Word → σ) (s : IoState κ σ) : Prop where
  issued : s.log.issued <+: s.log.submitted.map (·.1)
  called : s.log.called <+: s.log.submitted.map (properCall disk)
  called_le : s.log.called.length ≤ s.log.completions
  completions_le : s.log.completions ≤ s.log.issued.length

/-- What can be read off the scheduler when the pump is not running. -/
structure Quiescent (s : IoState κ σ) : Prop where
  busy_iff : s.gIoSched.state = .busy ↔ s.gIoSched.inFlight ≠ null
  idle : s.gIoSched.state = .idle → s.gIoSched.queueHead = null
  tail_null : s.gIoSched.queueTail = null ↔ s.gIoSched.queueHead = null
  tail_last : ∃ q, Linked (fun p => (s.req p).next) (· = null) s.gIoSched.queueHead q ∧
    s.gIoSched.queueTail = q.getLastD null

theorem IoInv.inOrder (h : IoInv disk s) : InOrder disk s := by
  obtain ⟨q, hqueue, hphase⟩ := h
  refine ⟨?_, ?_, ?_, ?_⟩
  · rw [hqueue.issued]
    exact (List.take_prefix _ _).map _
  · rw [hqueue.called]
    exact (List.take_prefix _ _).map _
  · rcases hphase with ⟨hrest, -⟩ | ⟨hflight, hr | hc⟩
    · exact hrest.completions.ge
    · exact hr.completions.ge
    · rw [hc.completions]
      exact Nat.le_succ _
  · rcases hphase with ⟨hrest, -⟩ | ⟨hflight, hr | hc⟩
    · rw [hrest.completions, hrest.issued]
    · rw [hr.completions, hflight.issued]
      exact Nat.le_succ _
    · rw [hc.completions, hflight.issued]

theorem IoInv.quiescent (h : IoInv disk s) (hp : s.pump = .outside) : Quiescent s := by
  obtain ⟨q, hqueue, hphase⟩ := h
  refine ⟨?_, ?_, ?_, q, hqueue.linked, hqueue.tail⟩
  · rcases hphase with ⟨hrest, -⟩ | ⟨hflight, -⟩
    · rw [hrest.state, hrest.flight]
      decide
    · exact iff_of_true hflight.state hflight.flight
  · intro hidle
    rcases hphase with ⟨hrest, hq⟩ | ⟨hflight, -⟩
    · have hlink := hqueue.linked
      rw [hq (hp ▸ ne_callback_outside)] at hlink
      exact hlink
    · rw [hflight.state] at hidle
      exact absurd hidle (by decide)
  · have hlink := hqueue.linked
    rw [hqueue.tail]
    cases q with
    | nil => exact iff_of_true rfl hlink
    | cons a q =>
      refine iff_of_false ?_ (by rw [hlink.1]; exact hlink.2.1)
      rw [List.getLastD_eq_getLast?, List.getLast?_eq_some_getLast (List.cons_ne_nil a q),
        Option.getD_some]
      exact hlink.not_stop_of_mem (List.getLast_mem _)

/-- **The scheduler delivers exactly once, in order.**  In every state reached by any interleaving
of submissions, interrupts, pump calls and callbacks, the reads started and the callbacks invoked
are those of the first requests in the order of submission, one for one; whenever the pump is not
running, the scheduler's fields say what they should; and along every fair run every request
submitted is issued and its callback invoked. -/
theorem ioSched_delivers (disk : Word → σ) :
    (∀ s : IoState κ σ, IoReach disk s → InOrder disk s ∧ (s.pump = .outside → Quiescent s)) ∧
      ∀ ρ : IoRun κ disk, ρ.Fair → ∀ t i, i < (ρ.state t).log.submitted.length →
        ∃ u, t ≤ u ∧ i < (ρ.state u).log.issued.length ∧ i < (ρ.state u).log.called.length := by
  refine ⟨fun s h => ⟨h.inv.inOrder, h.inv.quiescent⟩, fun ρ hfair t i hi => ?_⟩
  obtain ⟨u, htu, hu⟩ := IoRun.eventually_called hfair t i hi
  have hord := (ρ.inv u).inOrder
  exact ⟨u, htu, hu.trans_le (hord.called_le.trans hord.completions_le), hu⟩

/-- **Each client sees its own sector.**  Whenever an event invokes a callback with status zero, the
callback is the one of the oldest request not yet answered, and the receive buffer holds the sector
that the request asked for. -/
theorem ioSched_own_sector (disk : Word → σ) (s s' : IoState κ σ) (e : IoEvent κ) (c : IoCall κ σ)
    (h : IoReach disk s) (hs : ioStep disk e s = some s')
    (hcall : s'.log.called = s.log.called ++ [c]) (hstatus : c.status = 0) :
    ∃ req lba, s'.pump = .callback req ∧ (s'.req req).entry = (lba, c.callback, c.ctx) ∧
      s'.log.submitted[s.log.called.length]? = some (lba, c.callback, c.ctx) ∧
      s'.rx = some (disk lba) := by
  have hne : e = .test ∧ s.gSdIrqRing.head ≠ s.gSdIrqRing.tail := by
    rcases (ioStep_log hs).2 with heq | ⟨he, hne, -⟩
    · rw [heq] at hcall
      exact absurd hcall (by simp)
    · exact ⟨he, hne⟩
  obtain ⟨rfl, hne⟩ := hne
  obtain ⟨q, hqueue, ⟨hrest, -⟩ | ⟨hflight, hr | hc⟩⟩ := h.inv
  · exact absurd hrest.ring hne
  · exact absurd hr.ring hne
  · rw [ioStep, Option.ite_none_right_eq_some] at hs
    obtain ⟨-, hs⟩ := hs
    rw [ioSchedPumpTest, if_pos hne, Option.some.injEq] at hs
    subst hs
    obtain rfl := List.singleton_inj.1 (List.append_cancel_left hcall)
    exact ⟨s.gIoSched.inFlight, _, rfl, rfl, hflight.entry, hc.rx⟩

end Runs

/-! ## Scripts

A run that follows a script to its end, where nothing is left to do, and is timer ticks from then
on. -/

section Script

variable {κ σ : Type} {disk : Word → σ}

/-- The events of a script, and the ticks after it. -/
def scriptEvent (es : List (IoEvent κ)) (t : Nat) : IoEvent κ :=
  es.getD t (if (t - es.length) % 2 = 0 then .pump else .test)

/-- The states along it. -/
def scriptState (disk : Word → σ) (es : List (IoEvent κ)) (s₀ : IoState κ σ) : Nat → IoState κ σ
  | 0 => s₀
  | t + 1 => (ioStep disk (scriptEvent es t) (scriptState disk es s₀ t)).getD
      (scriptState disk es s₀ t)

/-- The pump is in a callback. -/
def IoState.inCallback (s : IoState κ σ) : Bool :=
  match s.pump with
  | .callback _ => true
  | .outside | .loop => false

/-- What makes a script: its events can happen, reads are completed and callbacks return before its
end, and at the end the scheduler is at rest. -/
structure IsScript (disk : Word → σ) (es : List (IoEvent κ)) (s₀ : IoState κ σ) : Prop where
  ok : ∀ t < es.length, (ioStep disk (scriptEvent es t) (scriptState disk es s₀ t)).isSome
  irq : ∀ t < es.length, (scriptState disk es s₀ t).reading.isSome →
    ∃ u < es.length, t ≤ u ∧ scriptEvent es u = .irq
  ret : ∀ t < es.length, (scriptState disk es s₀ t).inCallback →
    ∃ u < es.length, t ≤ u ∧ scriptEvent es u = .ret
  pump : (scriptState disk es s₀ es.length).pump = .outside
  reading : (scriptState disk es s₀ es.length).reading = none
  ring : (scriptState disk es s₀ es.length).gSdIrqRing.head =
    (scriptState disk es s₀ es.length).gSdIrqRing.tail

/-- A timer tick with nothing to do changes nothing. -/
theorem idle_tick {s : IoState κ σ} (hp : s.pump = .outside)
    (hring : s.gSdIrqRing.head = s.gSdIrqRing.tail) :
    ioStep disk .pump s = some { s with pump := .loop } ∧
      ioStep disk .test { s with pump := .loop } = some s := by
  refine ⟨if_pos hp, ?_⟩
  rw [ioStep, if_pos rfl, ioSchedPumpTest, if_neg (not_not.2 hring)]
  simp only [← hp]

variable {es : List (IoEvent κ)} {s₀ : IoState κ σ}

theorem scriptEvent_even (k : Nat) : scriptEvent es (es.length + 2 * k) = .pump := by
  rw [scriptEvent, List.getD_eq_getElem?_getD, List.getElem?_eq_none (by omega), Option.getD_none,
    if_pos (by omega)]

theorem scriptEvent_odd (k : Nat) : scriptEvent es (es.length + 2 * k + 1) = .test := by
  rw [scriptEvent, List.getD_eq_getElem?_getD, List.getElem?_eq_none (by omega), Option.getD_none,
    if_neg (by omega)]

namespace IsScript

/-- After the end of the script, ticks. -/
theorem tick (h : IsScript disk es s₀) (k : Nat) :
    scriptState disk es s₀ (es.length + 2 * k) = scriptState disk es s₀ es.length ∧
      scriptState disk es s₀ (es.length + 2 * k + 1) =
        { scriptState disk es s₀ es.length with pump := .loop } := by
  obtain ⟨hpump, htest⟩ := @idle_tick κ σ disk _ h.pump h.ring
  have hodd : ∀ k, scriptState disk es s₀ (es.length + 2 * k) = scriptState disk es s₀ es.length →
      scriptState disk es s₀ (es.length + 2 * k + 1) =
        { scriptState disk es s₀ es.length with pump := .loop } := by
    intro k hk
    rw [scriptState, scriptEvent_even, hk, hpump, Option.getD_some]
  induction k with
  | zero => exact ⟨rfl, hodd 0 rfl⟩
  | succ k ih =>
    have heven : scriptState disk es s₀ (es.length + 2 * k + 1 + 1) =
        scriptState disk es s₀ es.length := by
      rw [scriptState, scriptEvent_odd, ih.2, htest, Option.getD_some]
    exact ⟨heven, hodd (k + 1) heven⟩

/-- A time after the end of the script is one of the ticks. -/
theorem late {t : Nat} (ht : es.length ≤ t) :
    ∃ k, t = es.length + 2 * k ∨ t = es.length + 2 * k + 1 :=
  ⟨(t - es.length) / 2, by omega⟩

theorem step_some (h : IsScript disk es s₀) (t : Nat) :
    ioStep disk (scriptEvent es t) (scriptState disk es s₀ t) =
      some (scriptState disk es s₀ (t + 1)) := by
  have hsome : (ioStep disk (scriptEvent es t) (scriptState disk es s₀ t)).isSome := by
    rcases Nat.lt_or_ge t es.length with ht | ht
    · exact h.ok t ht
    · obtain ⟨hpump, htest⟩ := @idle_tick κ σ disk _ h.pump h.ring
      obtain ⟨k, rfl | rfl⟩ := late ht
      · rw [scriptEvent_even, (h.tick k).1, hpump, Option.isSome_some]
      · rw [scriptEvent_odd, (h.tick k).2, htest, Option.isSome_some]
  obtain ⟨s', hs'⟩ := Option.isSome_iff_exists.1 hsome
  rw [scriptState, hs', Option.getD_some]

/-- The run of a script. -/
def run (h : IsScript disk es s₀) (hreach : IoReach disk s₀) : IoRun κ disk where
  state := scriptState disk es s₀
  event := scriptEvent es
  reach := hreach
  step := h.step_some

/-- It is fair. -/
theorem fair (h : IsScript disk es s₀) (hreach : IoReach disk s₀) : (h.run hreach).Fair := by
  refine ⟨fun t ht => ?_, fun t _ => ⟨es.length + 2 * t, by omega, scriptEvent_even t⟩,
    fun t _ => ⟨es.length + 2 * t + 1, by omega, scriptEvent_odd t⟩, fun t r ht => ?_⟩
  · rcases Nat.lt_or_ge t es.length with hlt | hge
    · obtain ⟨u, -, htu, hu⟩ := h.irq t hlt (Option.isSome_iff_ne_none.2 ht)
      exact ⟨u, htu, hu⟩
    · refine absurd ?_ ht
      obtain ⟨k, rfl | rfl⟩ := late hge
      · exact (congrArg IoState.reading (h.tick k).1).trans h.reading
      · exact (congrArg IoState.reading (h.tick k).2).trans h.reading
  · have hpump : (scriptState disk es s₀ t).pump = .callback r := ht
    rcases Nat.lt_or_ge t es.length with hlt | hge
    · obtain ⟨u, -, htu, hu⟩ := h.ret t hlt (by rw [IoState.inCallback, hpump])
      exact ⟨u, htu, hu⟩
    · refine absurd hpump ?_
      obtain ⟨k, rfl | rfl⟩ := late hge
      · rw [(h.tick k).1, h.pump]
        nofun
      · rw [(h.tick k).2]
        nofun

end IsScript

end Script

/-! ### A relay

A request is submitted from outside, and its callback submits another. -/

/-- The events. -/
def relayScript : List (IoEvent Unit) :=
  [.submit 0x100 5 () 0x40, .irq, .pump, .test, .submit 0x200 6 () 0x40, .ret, .irq, .test, .ret,
    .test]

/-- The first state, on a card whose sectors hold their own numbers. -/
def relayStart : IoState Unit Word := .init ⟨255, 255, fun _ => 0⟩ (fun _ => ⟨0, (), 0, 0⟩) none

theorem relay_isScript : IsScript id relayScript relayStart := by
  refine ⟨?_, ?_, ?_, ?_, ?_, ?_⟩ <;> decide

/-- The run. -/
def relay : IoRun Unit (id : Word → Word) := relay_isScript.run (.init _ _ _)

/-- Both requests are issued and answered, in order, and the scheduler is left idle. -/
theorem ioSched_delivers_relay :
    (∃ u, 5 ≤ u ∧ 1 < (relay.state u).log.issued.length ∧ 1 < (relay.state u).log.called.length) ∧
      InOrder id (relay.state 10) ∧ Quiescent (relay.state 10) ∧
      (relay.state 10).log.issued = [5, 6] := by
  have hsub : (relay.state 5).log.submitted.length = 2 := by decide
  have h := @ioSched_delivers Unit Word id
  obtain ⟨hord, hq⟩ := h.1 _ (relay.reach_state 10)
  have hfair : relay.Fair := relay_isScript.fair _
  exact ⟨h.2 relay hfair 5 1 (by rw [hsub]; decide), hord, hq (by decide), by decide⟩

/-- The second callback of the relay, which the first one asked for, finds its sector. -/
theorem ioSched_own_sector_relay :
    (relay.state 8).log.called = (relay.state 7).log.called ++ [⟨(), 0x40, 0, some 6⟩] ∧
      ∃ req lba, (relay.state 8).pump = .callback req ∧
        ((relay.state 8).req req).entry = (lba, (), 0x40) ∧
        (relay.state 8).log.submitted[1]? = some (lba, (), 0x40) ∧
        (relay.state 8).rx = some lba :=
  ⟨by decide, ioSched_own_sector id (relay.state 7) (relay.state 8) .test ⟨(), 0x40, 0, some 6⟩
    (relay.reach_state 7) (relay_isScript.step_some 7) (by decide) rfl⟩

end RiscyOS
