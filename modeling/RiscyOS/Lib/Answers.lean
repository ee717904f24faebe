import RiscyOS.Lib.Callback

/-!
# Programs made of callbacks, whatever the device answers

`Callback.Ensures` is about a device that does what it should.  Here the device may answer a request
with any block contents and any status that `answers` allows, and a program has to come to an end all
the same: with its caller called back once, and after a number of requests that is known beforehand.

* `Completes … n os rx w a` — from the world `w`, with `a` to be done next, and the observations `os`
  made on the way there, the program makes at most `n` requests more, and then, for the first time,
  calls a closure that is `final`; there the postcondition holds, of all observations as well.
* `Turn` and `Runs` — the same operationally: one callback, and any number of them up to a final call.
  `Completes.of_runs` says that every run ends as the judgement has it, and `Completes.exists_runs`
  that there is one, as long as the device answers.

An observation is anything that calling a closure gives rise to, `obs`: what it copies, say.
-/

set_option autoImplicit false

namespace Callback

variable {σ W β κ ο : Type*}

section Completes

variable (code : Code σ W β κ) (answers : β → σ → Int → Prop) (R : κ → W → W → Prop)
  (final : κ → Prop)

/-- **The program completes**, whatever the device answers and whatever the others do to the world
within `R k` while a request of `k` is outstanding: within `n` requests, and with one final call. -/
inductive Completes (obs : σ → κ → Int → W → List ο) (Q : List ο → W → κ → Int → Prop) :
    Nat → List ο → σ → W → Action β κ → Prop
  | done {n : Nat} {os : List ο} {rx : σ} {w : W} {k : κ} {status : Int} (hk : final k)
      (h : Q os w k status) : Completes obs Q n os rx w (.call k status)
  | call {n : Nat} {os : List ο} {rx : σ} {w : W} {k : κ} {status : Int} (hk : ¬ final k)
      (h : Completes obs Q n (os ++ obs rx k status w) rx (code rx k status w).1
        (code rx k status w).2) : Completes obs Q n os rx w (.call k status)
  | post {n : Nat} {os : List ο} {rx : σ} {w : W} {b : β} {k : κ}
      (h : ∀ rx' status w', answers b rx' status → R k w w' →
        Completes obs Q n (os ++ obs rx' k status w') rx' (code rx' k status w').1
          (code rx' k status w').2) : Completes obs Q (n + 1) os rx w (.post b k)

/-- One callback. -/
inductive Turn : Config σ W β κ → Config σ W β κ → Prop
  | call {rx : σ} {w : W} {k : κ} {status : Int} (hk : ¬ final k) :
      Turn ⟨rx, w, .call k status⟩ ⟨rx, (code rx k status w).1, (code rx k status w).2⟩
  | post {rx rx' : σ} {w w' : W} {b : β} {k : κ} {status : Int} (h : answers b rx' status)
      (hR : R k w w') :
      Turn ⟨rx, w, .post b k⟩ ⟨rx', (code rx' k status w').1, (code rx' k status w').2⟩

/-- Any number of callbacks, none of them after a final call. -/
def Runs : Config σ W β κ → Config σ W β κ → Prop :=
  Relation.ReflTransGen (Turn code answers R final)

end Completes

variable {code : Code σ W β κ} {answers : β → σ → Int → Prop} {R : κ → W → W → Prop}
  {final : κ → Prop} {obs : σ → κ → Int → W → List ο} {Q Q' : List ο → W → κ → Int → Prop}
  {n n' : Nat} {os : List ο} {rx rx' : σ} {w w' : W} {a : Action β κ}

namespace Completes

/-- A larger bound is a bound. -/
theorem mono (h : Completes code answers R final obs Q n os rx w a) (hn : n ≤ n') :
    Completes code answers R final obs Q n' os rx w a := by
  induction h generalizing n' with
  | done hk hq => exact .done hk hq
  | call hk _ ih => exact .call hk (ih hn)
  | post _ ih =>
    obtain ⟨m, rfl⟩ : ∃ m, n' = m + 1 := ⟨n' - 1, by omega⟩
    exact .post fun rx' status w' ha hR => ih rx' status w' ha hR (by omega)

/-- A weaker postcondition. -/
theorem imp (h : Completes code answers R final obs Q n os rx w a)
    (hQ : ∀ os w k status, Q os w k status → Q' os w k status) :
    Completes code answers R final obs Q' n os rx w a := by
  induction h with
  | done hk hq => exact .done hk (hQ _ _ _ _ hq)
  | call hk _ ih => exact .call hk ih
  | post _ ih => exact .post ih

/-- **What every run ends with.** -/
theorem of_runs {k : κ} {status : Int} (h : Completes code answers R final obs Q n os rx w a)
    (hrun : Runs code answers R final ⟨rx, w, a⟩ ⟨rx', w', .call k status⟩) (hk : final k) :
    ∃ os', Q os' w' k status := by
  induction h with
  | done hk' hq =>
    rcases Relation.ReflTransGen.cases_head hrun with heq | ⟨c, hturn, -⟩
    · injection heq with _ hw ha
      injection ha with hk hs
      exact ⟨_, hw ▸ hk ▸ hs ▸ hq⟩
    · cases hturn with
      | call hno => exact absurd hk' hno
  | call hno _ ih =>
    rcases Relation.ReflTransGen.cases_head hrun with heq | ⟨c, hturn, hrest⟩
    · injection heq with _ _ ha
      injection ha with hk' _
      exact absurd hk (hk' ▸ hno)
    · cases hturn with
      | call _ => exact ih hrest
  | post _ ih =>
    rcases Relation.ReflTransGen.cases_head hrun with heq | ⟨c, hturn, hrest⟩
    · injection heq with _ _ ha
      cases ha
    · cases hturn with
      | post ha hR => exact ih _ _ _ ha hR hrest

/-- **There is a run**, if the device answers and the others may leave the world alone. -/
theorem exists_runs (h : Completes code answers R final obs Q n os rx w a)
    (hanswers : ∀ b, ∃ rx status, answers b rx status) (hR : ∀ k w, R k w w) :
    ∃ os' rx' w' k status, final k ∧ Q os' w' k status ∧
      Runs code answers R final ⟨rx, w, a⟩ ⟨rx', w', .call k status⟩ := by
  induction h with
  | done hk hq => exact ⟨_, _, _, _, _, hk, hq, .refl⟩
  | call hno _ ih =>
    obtain ⟨os', rx', w', k, status, hk, hq, hrun⟩ := ih
    exact ⟨os', rx', w', k, status, hk, hq, .head (.call hno) hrun⟩
  | @post _ _ _ w b k _ ih =>
    obtain ⟨rx₁, status₁, ha⟩ := hanswers b
    obtain ⟨os', rx', w', k', status, hk, hq, hrun⟩ := ih rx₁ status₁ w ha (hR k w)
    exact ⟨os', rx', w', k', status, hk, hq, .head (.post ha (hR k w)) hrun⟩

end Completes

theorem Turn.mono {answers' : β → σ → Int → Prop} {c c' : Config σ W β κ}
    (hturn : Turn code answers R final c c')
    (h : ∀ b rx status, answers b rx status → answers' b rx status) :
    Turn code answers' R final c c' := by
  cases hturn with
  | call hk => exact .call hk
  | post ha hR => exact .post (h _ _ _ ha) hR

/-- A run with a device that may do less is a run. -/
theorem Runs.mono {answers' : β → σ → Int → Prop} {c c' : Config σ W β κ}
    (hrun : Runs code answers R final c c')
    (h : ∀ b rx status, answers b rx status → answers' b rx status) :
    Runs code answers' R final c c' :=
  Relation.ReflTransGen.mono (fun _ _ hturn => hturn.mono h) _ _ hrun

end Callback
