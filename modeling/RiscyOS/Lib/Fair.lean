import Mathlib.Init

/-!
# Progress along fair runs

A run is indexed by time.  Everything said here about a run is said about predicates of time: what
holds at a time, and what occurs in the step from it.  `eventually_of_fair` is the one rule of
progress: if something stays true until an awaited step, and the awaited step is taken, then what
the step achieves is reached.
-/

set_option autoImplicit false

namespace Fair

variable {P Q occurs : Nat → Prop} {t : Nat}

/-- **Progress.**  `P` holds now and is kept until `Q`; the step `occurs` is taken sooner or later,
and turns `P` into `Q`.  Then `Q` is reached. -/
theorem eventually_of_fair (hP : P t) (hfair : ∃ u, t ≤ u ∧ occurs u)
    (hkeep : ∀ u, t ≤ u → P u → ¬ occurs u → P (u + 1) ∨ Q (u + 1))
    (hstep : ∀ u, t ≤ u → P u → occurs u → Q (u + 1)) : ∃ u, t < u ∧ Q u := by
  obtain ⟨u, htu, hocc⟩ := hfair
  obtain ⟨k, rfl⟩ := Nat.exists_eq_add_of_le htu
  clear htu
  induction k generalizing t with
  | zero => exact ⟨t + 1, Nat.lt_succ_self t, hstep t (Nat.le_refl t) hP hocc⟩
  | succ k ih =>
    by_cases hnow : occurs t
    · exact ⟨t + 1, Nat.lt_succ_self t, hstep t (Nat.le_refl t) hP hnow⟩
    · rcases hkeep t (Nat.le_refl t) hP hnow with hnext | hdone
      · have hlater : ∀ {u}, t + 1 ≤ u → t ≤ u := fun h => Nat.le_of_succ_le h
        obtain ⟨u, hu, hQ⟩ := ih hnext (fun u h => hkeep u (hlater h))
          (fun u h => hstep u (hlater h)) (by rwa [Nat.add_assoc, Nat.add_comm 1 k])
        exact ⟨u, Nat.lt_of_succ_lt hu, hQ⟩
      · exact ⟨t + 1, Nat.lt_succ_self t, hdone⟩

/-- A counter that moves by single steps passes every value: where it exceeds `i` and once did not,
there is the step that took it from `i` to `i + 1`. -/
theorem exists_crossing {count : Nat → Nat} {i u : Nat} (hstep : ∀ v, count (v + 1) ≤ count v + 1)
    (htu : t ≤ u) (ht : count t ≤ i) (hu : i < count u) :
    ∃ v, t ≤ v ∧ v < u ∧ count v = i ∧ count (v + 1) = i + 1 := by
  obtain ⟨k, rfl⟩ := Nat.exists_eq_add_of_le htu
  clear htu
  induction k with
  | zero => exact absurd hu (Nat.not_lt.2 ht)
  | succ k ih =>
    by_cases h : i < count (t + k)
    · obtain ⟨v, hv, hvu, hcount⟩ := ih h
      exact ⟨v, hv, Nat.lt_succ_of_lt hvu, hcount⟩
    · have := hstep (t + k)
      rw [← Nat.add_assoc] at hu
      exact ⟨t + k, Nat.le_add_right t k, Nat.lt_succ_self _, by omega, by omega⟩

end Fair
