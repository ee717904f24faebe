import RiscyOS.Io.SchedulerRuns
import RiscyOS.Lib.Callback

/-!
# A program behind the scheduler

`Lib/Callback` says what a program of callbacks ensures under interference, with requests that are
simply answered.  Here the requests go through the scheduler.  `ClientStep` is one event of the
scheduler as one program sees it: the program waits for the callback of its request while anything
else happens, to the scheduler and, within what it can rely on, to the world; when its callback is
invoked it runs, on what is in the receive buffer, until it posts the next request or calls out of
the program; and the request it posts is the next event.

`ClientRun.eventually_finished` is the connection: along a fair run, what the program ensures comes
true.  That its request is answered at all, and with the sector it asked for, is what the scheduler
delivers.
-/

set_option autoImplicit false

namespace RiscyOS

open Memory Callback

section Client

variable {κ σ W : Type}

/-- A callback with its context. -/
abbrev Closure (κ : Type) := κ × Ptr

/-! ## A callback runs to its end -/

/-- From action `a` on, calling callbacks of the program one after another until it posts a request,
stops, or calls out of it, to a closure that is `final`. -/
inductive Settles (code : Code σ W Word (Closure κ)) (final : Closure κ → Prop) (rx : σ) :
    W → Action Word (Closure κ) → W → Action Word (Closure κ) → Prop
  | post {w : W} {b : Word} {k : Closure κ} : Settles code final rx w (.post b k) w (.post b k)
  | stop {w : W} : Settles code final rx w .stop w .stop
  | out {w : W} {k : Closure κ} {status : Int} (h : final k) :
      Settles code final rx w (.call k status) w (.call k status)
  | call {w w' : W} {k : Closure κ} {status : Int} {a : Action Word (Closure κ)} (hk : ¬ final k)
      (h : Settles code final rx (code rx k status w).1 (code rx k status w).2 w' a) :
      Settles code final rx w (.call k status) w' a

section Settles

variable {code : Code σ W Word (Closure κ)} {final : Closure κ → Prop} {rx : σ} {w : W}
  {k k' : Closure κ} {status status' : Int} {b : Word}

/-- A callback that posts a request. -/
theorem Settles.of_post (hk : ¬ final k) (h : (code rx k status w).2 = .post b k') :
    Settles code final rx w (.call k status) (code rx k status w).1 (.post b k') :=
  .call hk (by rw [h]; exact .post)

/-- A callback that calls out. -/
theorem Settles.of_out (hk : ¬ final k) (hk' : final k')
    (h : (code rx k status w).2 = .call k' status') :
    Settles code final rx w (.call k status) (code rx k status w).1 (.call k' status') :=
  .call hk (by rw [h]; exact .out hk')

end Settles

/-! ## The program and the scheduler -/

/-- Where the program is. -/
inductive ClientPc (κ : Type)
  /-- Its request is number `i` of those submitted. -/
  | waiting (i : Nat)
  /-- It is about to submit a request. -/
  | posting (b : Word) (k : Closure κ)
  /-- It has called out. -/
  | finished (k : Closure κ) (status : Int)
  /-- It has stopped without calling out. -/
  | stopped

/-- Where an action leaves it. -/
def ClientPc.ofAction : Action Word (Closure κ) → ClientPc κ
  | .post b k => .posting b k
  | .call k status => .finished k status
  | .stop => .stopped

/-- **One event**, as the program sees it. -/
inductive ClientStep (disk : Word → σ) (code : Code σ W Word (Closure κ))
    (final : Closure κ → Prop) (R : Closure κ → W → W → Prop) (e : IoEvent κ) :
    IoState κ σ → W → ClientPc κ → IoState κ σ → W → ClientPc κ → Prop
  /-- Something else happens while the program waits. -/
  | other {s s' : IoState κ σ} {w w' : W} {i : Nat} {b : Word} {k : Closure κ}
      (hs : ioStep disk e s = some s') (hcalls : s'.log.called.length ≤ i)
      (hreq : s.log.submitted[i]? = some (b, k)) (hR : R k w w') :
      ClientStep disk code final R e s w (.waiting i) s' w' (.waiting i)
  /-- Its callback is invoked. -/
  | enter {s s' : IoState κ σ} {w w' : W} {i : Nat} {c : IoCall κ σ} {x : σ}
      {a : Action Word (Closure κ)} (hs : ioStep disk e s = some s')
      (hcalls : s'.log.called.length = i + 1) (hcall : s'.log.called[i]? = some c)
      (hrx : c.rx = some x)
      (hrun : Settles code final x w (.call (c.callback, c.ctx) c.status.toNat) w' a) :
      ClientStep disk code final R e s w (.waiting i) s' w' (.ofAction a)
  /-- It submits its request. -/
  | submit {s s' : IoState κ σ} {w : W} {b : Word} {k : Closure κ} {req : Ptr}
      (he : e = .submit req b k.1 k.2) (hs : ioStep disk e s = some s') :
      ClientStep disk code final R e s w (.posting b k) s' w (.waiting s.log.submitted.length)
  /-- It is no longer concerned. -/
  | ended {s s' : IoState κ σ} {w w' : W} {pc : ClientPc κ} (hs : ioStep disk e s = some s')
      (hpc : (∃ k status, pc = .finished k status) ∨ pc = .stopped) :
      ClientStep disk code final R e s w pc s' w' pc

/-- The callbacks invoked are known from the requests. -/
theorem IoInv.called_getElem? {disk : Word → σ} {s : IoState κ σ} (h : IoInv disk s) {i : Nat}
    {b : Word} {k : Closure κ} (hreq : s.log.submitted[i]? = some (b, k))
    (hi : i < s.log.called.length) :
    s.log.called[i]? = some ⟨k.1, k.2, 0, some (disk b)⟩ := by
  obtain ⟨l, hl⟩ := h.inOrder.called
  have hget : (s.log.submitted.map (properCall disk))[i]? = s.log.called[i]? := by
    rw [← hl, List.getElem?_append_left hi]
  rw [← hget, List.getElem?_map, hreq]
  rfl

/-- A run of the scheduler with the program in it. -/
structure ClientRun (disk : Word → σ) (code : Code σ W Word (Closure κ))
    (final : Closure κ → Prop) (R : Closure κ → W → W → Prop) extends IoRun κ disk where
  world : Nat → W
  pc : Nat → ClientPc κ
  client : ∀ t, ClientStep disk code final R (event t) (state t) (world t) (pc t) (state (t + 1))
    (world (t + 1)) (pc (t + 1))

namespace ClientRun

variable {disk : Word → σ} {code : Code σ W Word (Closure κ)} {final : Closure κ → Prop}
  {R : Closure κ → W → W → Prop} {ρ : ClientRun disk code final R}

/-- **While the program waits**, the world changes within what it can rely on. -/
theorem waits (hrefl : ∀ k w, R k w w) (htrans : ∀ k w w' w'', R k w w' → R k w' w'' → R k w w'')
    {t u i : Nat} {b : Word} {k : Closure κ} (htu : t ≤ u) (hpc : ρ.pc t = .waiting i)
    (hreq : (ρ.state t).log.submitted[i]? = some (b, k)) (hcalls : ρ.calls u ≤ i) :
    ρ.pc u = .waiting i ∧ R k (ρ.world t) (ρ.world u) := by
  induction htu with
  | refl => exact ⟨hpc, hrefl _ _⟩
  | @step u htu ih =>
    have hmono : ρ.calls u ≤ ρ.calls (u + 1) := by
      rw [IoRun.calls, IoRun.calls]
      rcases (ioStep_log (ρ.step u)).2 with h | ⟨-, -, h⟩ <;> rw [h]
      exact Nat.le_succ _
    obtain ⟨hpc', hR⟩ := ih (hmono.trans hcalls)
    have hreq' : (ρ.state u).log.submitted[i]? = some (b, k) := by
      obtain ⟨l, hl⟩ := ρ.submitted_prefix htu
      rw [← hl, List.getElem?_append_left (List.getElem?_eq_some_iff.1 hreq).1, hreq]
    have hstep := ρ.client u
    rw [hpc'] at hstep
    generalize hw : ρ.world (u + 1) = w' at hstep ⊢
    generalize hp : ρ.pc (u + 1) = pc' at hstep ⊢
    cases hstep with
    | other _ _ hreq'' hR' =>
      rw [hreq', Option.some.injEq, Prod.mk.injEq] at hreq''
      exact ⟨rfl, htrans _ _ _ _ hR (hreq''.2 ▸ hR')⟩
    | enter _ hcalls' => exact absurd hcalls (by rw [IoRun.calls, hcalls']; omega)
    | ended _ hpc => rcases hpc with ⟨k, status, hpc⟩ | hpc <;> cases hpc

/-- Along the run `ρ`, what is left to do after action `a` is done, and ends in `Q`. -/
def Served (ρ : ClientRun disk code final R) (Q : W → Closure κ → Int → Prop) (w : W) :
    Action Word (Closure κ) → Prop
  | .post b k => ∀ t, ρ.pc t = .posting b k → ρ.world t = w →
      ∃ u k status, t ≤ u ∧ ρ.pc u = .finished k status ∧ Q (ρ.world u) k status
  | .call k status => Q w k status
  | .stop => False

/-- The answer to a request: after a time the program is invoked, in a world it can rely on, on its
own sector. -/
theorem exists_enter (hfair : ρ.Fair) (hrefl : ∀ k w, R k w w)
    (htrans : ∀ k w w' w'', R k w w' → R k w' w'' → R k w w'') {t : Nat} {b : Word} {k : Closure κ}
    (hpc : ρ.pc t = .posting b k) :
    ∃ u a, t < u ∧ R k (ρ.world t) (ρ.world u) ∧ ρ.pc (u + 1) = .ofAction a ∧
      Settles code final (disk b) (ρ.world u) (.call k 0) (ρ.world (u + 1)) a := by
  -- the program submits
  have hsub : (ρ.state (t + 1)).log.submitted = (ρ.state t).log.submitted ++ [(b, k)] ∧
      (ρ.state (t + 1)).log.called = (ρ.state t).log.called ∧ ρ.world (t + 1) = ρ.world t ∧
      ρ.pc (t + 1) = .waiting (ρ.state t).log.submitted.length := by
    have hstep := ρ.client t
    rw [hpc] at hstep
    generalize ρ.world (t + 1) = w' at hstep ⊢
    generalize ρ.pc (t + 1) = pc' at hstep ⊢
    generalize ρ.state (t + 1) = s' at hstep ⊢
    generalize ρ.event t = e at hstep
    cases hstep with
    | submit he hs =>
      rw [he, ioStep, Option.ite_none_right_eq_some] at hs
      rw [← Option.some.inj hs.2]
      exact ⟨(ioPost_log ..).1, (ioPost_log ..).2.1, rfl, rfl⟩
    | ended _ hpc => rcases hpc with ⟨k, status, hpc⟩ | hpc <;> cases hpc
  obtain ⟨hlog, hcalled, hworld, hwait⟩ := hsub
  have hreq : (ρ.state (t + 1)).log.submitted[(ρ.state t).log.submitted.length]? = some (b, k) := by
    rw [hlog, List.getElem?_concat_length]
  -- the scheduler answers
  have hle : ρ.calls (t + 1) ≤ (ρ.state t).log.submitted.length := by
    obtain ⟨q, hqueue, -⟩ := ρ.inv t
    rw [IoRun.calls, hcalled]
    exact hqueue.called_le
  obtain ⟨v, htv, hv⟩ := IoRun.eventually_called hfair (t + 1) (ρ.state t).log.submitted.length
    (by rw [hlog, List.length_append, List.length_singleton]; omega)
  obtain ⟨u, htu, -, hu, hu'⟩ := Fair.exists_crossing ρ.calls_succ_le htv hle hv
  obtain ⟨hpcu, hR⟩ := waits hrefl htrans htu hwait hreq (le_of_eq hu)
  have hreq' : (ρ.state (u + 1)).log.submitted[(ρ.state t).log.submitted.length]? = some (b, k) := by
    obtain ⟨l, hl⟩ := ρ.submitted_prefix (Nat.le_succ_of_le htu)
    rw [← hl, List.getElem?_append_left (List.getElem?_eq_some_iff.1 hreq).1, hreq]
  -- and the step that invokes the callback is the program's own
  have hstep := ρ.client u
  rw [hpcu] at hstep
  rw [← hworld]
  generalize hw : ρ.world (u + 1) = w' at hstep ⊢
  generalize hp : ρ.pc (u + 1) = pc' at hstep
  cases hstep with
  | other _ hno => exact absurd hu' (by rw [IoRun.calls]; omega)
  | enter _ hcalls hcall hrx hrun =>
    rw [(ρ.inv (u + 1)).called_getElem? hreq' (by omega), Option.some.injEq] at hcall
    subst hcall
    obtain rfl := Option.some.inj hrx
    exact ⟨u, _, htu, hR, hp, hw ▸ hrun⟩
  | ended _ hpc => rcases hpc with ⟨k, status, hpc⟩ | hpc <;> cases hpc

/-- What a program ensures is served. -/
theorem served_of_ensures (hfair : ρ.Fair) (hrefl : ∀ k w, R k w w)
    (htrans : ∀ k w w' w'', R k w w' → R k w' w'' → R k w w'')
    (hfinal : ∀ k, final k → IsFinal code k) {Q : W → Closure κ → Int → Prop}
    (hQ : ∀ w k status, Q w k status → final k) {rx : σ} {w w' : W}
    {a a' : Action Word (Closure κ)} (hens : Ensures code disk R Q rx w a)
    (hset : Settles code final rx w a w' a') : ρ.Served Q w' a' := by
  -- a call to a final closure stops the program, which ensures nothing
  have hcall : ∀ {rx : σ} {w w' : W} {k : Closure κ} {status : Int} {a' : Action Word (Closure κ)},
      (∀ w' a', Settles code final rx (code rx k status w).1 (code rx k status w).2 w' a' →
        ρ.Served Q w' a') →
      Settles code final rx w (.call k status) w' a' → ρ.Served Q w' a' := by
    intro rx w w' k status a' ih hset
    cases hset with
    | out hk =>
      have hstop := ih w .stop
      rw [hfinal k hk rx status w] at hstop
      exact (hstop .stop).elim
    | call _ hset => exact ih _ _ hset
  induction hens generalizing w' a' with
  | done h =>
    cases hset with
    | out => exact h
    | call hk => exact absurd (hQ _ _ _ h) hk
  | call _ ih => exact hcall (fun _ _ => ih) hset
  | @post rx w b k _ ih =>
    cases hset
    intro t hpc hw
    obtain ⟨u, a, htu, hR, hpc', hrun⟩ := exists_enter hfair hrefl htrans hpc
    rw [hw] at hR
    have hserved := hcall (fun _ _ => ih _ hR) hrun
    cases a with
    | post b' k' =>
      obtain ⟨v, k'', status, huv, hdone⟩ := hserved (u + 1) hpc' rfl
      exact ⟨v, k'', status, by omega, hdone⟩
    | call k' status => exact ⟨u + 1, k', status, by omega, hpc', hserved⟩
    | stop => exact hserved.elim

/-- **What a program ensures comes true** along every fair run. -/
theorem eventually_finished (hfair : ρ.Fair) (hrefl : ∀ k w, R k w w)
    (htrans : ∀ k w w' w'', R k w w' → R k w' w'' → R k w w'')
    (hfinal : ∀ k, final k → IsFinal code k) {Q : W → Closure κ → Int → Prop}
    (hQ : ∀ w k status, Q w k status → final k) {rx : σ} {b : Word} {k : Closure κ} {t : Nat}
    (hpc : ρ.pc t = .posting b k) (hens : Ensures code disk R Q rx (ρ.world t) (.post b k)) :
    ∃ u k status, t ≤ u ∧ ρ.pc u = .finished k status ∧ Q (ρ.world u) k status :=
  served_of_ensures hfair hrefl htrans hfinal hQ hens .post t hpc rfl

end ClientRun

end Client

end RiscyOS
