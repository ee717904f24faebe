import Mathlib.Logic.Function.Iterate
import Mathlib.Logic.Relation

/-!
# Programs made of callbacks

A program that waits for a device is written as a set of callbacks.  Each runs to its end and, as
the last thing it does, asks the device for a block and names the callback to continue with, or
calls another callback at once, or stops.  All there is to know about such a program is its `code`:
what each closure does to the world, given a status and what the receive buffer holds, and what it
does last.

On its own the program is deterministic (`step`, `Reaches`).  Shared with others it is not: between
a request and its completion the world may change.  `Ensures R Q` is the total-correctness judgement
for that setting: whatever the others do to the world within `R` while a request is outstanding,
the program gets, after finitely many completions, to a call that satisfies `Q`.  The rules are its
constructors and `Ensures.bind`, and `Ensures.reaches` brings it back to the program on its own.
-/

set_option autoImplicit false

namespace Callback

/-- What a piece of code does last. -/
inductive Action (β κ : Type*)
  /-- Ask the device for block `b`, to continue with `k`. -/
  | post (b : β) (k : κ)
  /-- Call `k` with a status. -/
  | call (k : κ) (status : Int)
  /-- Return. -/
  | stop
  deriving DecidableEq, Repr

/-- A program on its way: what the receive buffer holds, the world, and what is to be done. -/
structure Config (σ W β κ : Type*) where
  rx : σ
  world : W
  action : Action β κ

variable {σ W β κ : Type*}

/-- The code of a program: what closure `k` does when called. -/
abbrev Code (σ W β κ : Type*) := σ → κ → Int → W → W × Action β κ

/-- One callback of the program on its own: a block asked for is read and handed over with status
zero. -/
def step (code : Code σ W β κ) (read : β → σ) : Config σ W β κ → Option (Config σ W β κ)
  | ⟨_, w, .post b k⟩ => some ⟨read b, (code (read b) k 0 w).1, (code (read b) k 0 w).2⟩
  | ⟨rx, w, .call k status⟩ => some ⟨rx, (code rx k status w).1, (code rx k status w).2⟩
  | ⟨_, _, .stop⟩ => none

/-- Any number of callbacks. -/
def Reaches (code : Code σ W β κ) (read : β → σ) : Config σ W β κ → Config σ W β κ → Prop :=
  Relation.ReflTransGen fun c c' => step code read c = some c'

/-- One callback, or none if the program has stopped. -/
def advance (code : Code σ W β κ) (read : β → σ) (c : Config σ W β κ) : Config σ W β κ :=
  (step code read c).getD c

theorem reaches_advance (code : Code σ W β κ) (read : β → σ) (c : Config σ W β κ) (n : Nat) :
    Reaches code read c ((advance code read)^[n] c) := by
  induction n with
  | zero => exact .refl
  | succ n ih =>
    rw [Function.iterate_succ_apply', advance]
    cases hstep : step code read ((advance code read)^[n] c) with
    | none => exact ih
    | some c' => exact ih.tail hstep

/-- A closure that is not part of the program: calling it ends the program. -/
def IsFinal (code : Code σ W β κ) (k : κ) : Prop :=
  ∀ rx status w, code rx k status w = (w, .stop)

variable {code : Code σ W β κ} {read : β → σ}

/-- From the final call there is nowhere else to go. -/
theorem Reaches.eq_of_final {k k' : κ} {status status' : Int} {rx rx' : σ} {w w' : W}
    (hk : IsFinal code k)
    (h : Reaches code read ⟨rx, w, .call k status⟩ ⟨rx', w', .call k' status'⟩) :
    w' = w ∧ k' = k ∧ status' = status := by
  rcases Relation.ReflTransGen.cases_head h with heq | ⟨c, hstep, hrest⟩
  · injection heq with _ hw ha
    injection ha with hk hs
    exact ⟨hw.symm, hk.symm, hs.symm⟩
  · -- after the call the program has stopped
    rw [step, hk rx status w, Option.some.injEq] at hstep
    subst hstep
    rcases Relation.ReflTransGen.cases_head hrest with heq | ⟨c, hstep, -⟩
    · injection heq with _ _ ha
      cases ha
    · cases hstep

theorem step_rightUnique (code : Code σ W β κ) (read : β → σ) :
    Relator.RightUnique fun c c' : Config σ W β κ => step code read c = some c' :=
  fun _ _ _ hb hc => Option.some.inj (hb.symm.trans hc)

/-- **A program has one outcome**: two final calls it reaches are the same. -/
theorem Reaches.final_unique {c : Config σ W β κ} {k k' : κ} {status status' : Int} {rx rx' : σ}
    {w w' : W} (hk : IsFinal code k) (hk' : IsFinal code k')
    (h : Reaches code read c ⟨rx, w, .call k status⟩)
    (h' : Reaches code read c ⟨rx', w', .call k' status'⟩) :
    w' = w ∧ k' = k ∧ status' = status := by
  rcases Relation.ReflTransGen.total_of_right_unique (step_rightUnique code read) h h' with hle | hle
  · exact Reaches.eq_of_final hk hle
  · obtain ⟨hw, hk, hs⟩ := Reaches.eq_of_final hk' hle
    exact ⟨hw.symm, hk.symm, hs.symm⟩

/-- A program that has stopped has one outcome, too. -/
theorem Reaches.stop_unique {c : Config σ W β κ} {rx rx' : σ} {w w' : W}
    (h : Reaches code read c ⟨rx, w, .stop⟩) (h' : Reaches code read c ⟨rx', w', .stop⟩) :
    w' = w := by
  have hstop : ∀ {rx rx' : σ} {w w' : W}, Reaches code read ⟨rx, w, .stop⟩ ⟨rx', w', .stop⟩ →
      w' = w := by
    intro rx rx' w w' h
    rcases Relation.ReflTransGen.cases_head h with heq | ⟨c, hstep, -⟩
    · injection heq with _ hw _
      exact hw.symm
    · cases hstep
  rcases Relation.ReflTransGen.total_of_right_unique (step_rightUnique code read) h h' with hle | hle
  · exact hstop hle
  · exact (hstop hle).symm

/-! ## Under interference -/

/-- **The program gets to a call that satisfies `Q`**, with the others changing the world within
`R k` whenever a request of `k` is outstanding. -/
inductive Ensures (code : Code σ W β κ) (read : β → σ) (R : κ → W → W → Prop)
    (Q : W → κ → Int → Prop) : σ → W → Action β κ → Prop
  | done {rx : σ} {w : W} {k : κ} {status : Int} (h : Q w k status) :
      Ensures code read R Q rx w (.call k status)
  | call {rx : σ} {w : W} {k : κ} {status : Int}
      (h : Ensures code read R Q rx (code rx k status w).1 (code rx k status w).2) :
      Ensures code read R Q rx w (.call k status)
  | post {rx : σ} {w : W} {b : β} {k : κ}
      (h : ∀ w', R k w w' →
        Ensures code read R Q (read b) (code (read b) k 0 w').1 (code (read b) k 0 w').2) :
      Ensures code read R Q rx w (.post b k)

namespace Ensures

variable {R : κ → W → W → Prop} {Q Q' : W → κ → Int → Prop} {rx : σ} {w : W} {a : Action β κ}

/-- **Sequencing**: what is ensured from the calls reached is ensured from the start. -/
theorem bind (h : Ensures code read R Q rx w a)
    (hQ : ∀ rx w k status, Q w k status → Ensures code read R Q' rx w (.call k status)) :
    Ensures code read R Q' rx w a := by
  induction h with
  | done h => exact hQ _ _ _ _ h
  | call _ ih => exact .call ih
  | post _ ih => exact .post ih

/-- **On its own** the program gets there too. -/
theorem reaches (h : Ensures code read R Q rx w a) (hR : ∀ k w, R k w w) :
    ∃ rx' w' k status, Reaches code read ⟨rx, w, a⟩ ⟨rx', w', .call k status⟩ ∧ Q w' k status := by
  induction h with
  | done h => exact ⟨_, _, _, _, .refl, h⟩
  | call _ ih =>
    obtain ⟨rx', w', k, status, hreach, hq⟩ := ih
    exact ⟨rx', w', k, status, .head rfl hreach, hq⟩
  | post _ ih =>
    obtain ⟨rx', w', k, status, hreach, hq⟩ := ih _ (hR _ _)
    exact ⟨rx', w', k, status, .head rfl hreach, hq⟩

end Ensures

end Callback
