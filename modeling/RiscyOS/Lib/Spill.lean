import RiscyOS.Lib.Riscv

/-!
# Registers saved in a record

The way into a handler and the way out of it are long runs of stores and loads, one for each register,
all into one record.  Here such a run is a list of registers and a function that says where in the record
each has its place.

* `saves`, `loads` — the two runs.  A record is what the registers were (`word_saves`), and the registers
  are what the record is (`get_loads`); nothing else has changed (`alters_saves`, `get_loads_of_notMem`).
* the base register may itself be among those loaded, if it comes last (`get_loads_base`).
-/

set_option autoImplicit false

namespace Riscv

open Memory

variable {F S : Type}

/-- One store for each register, in the record that `base` points to. -/
def saves (place : Reg → Nat) (base : Reg) (rs : List Reg) : List (Op S) :=
  rs.map fun r => .sw r (place r) base

/-- One load for each register. -/
def loads (place : Reg → Nat) (base : Reg) (rs : List Reg) : List (Op S) :=
  rs.map fun r => .lw r (place r) base

/-- The places of the registers are words of a record of `n` bytes, and no two of them meet. -/
structure Places (place : Reg → Nat) (n : Nat) (rs : List Reg) : Prop where
  inside : ∀ r ∈ rs, place r + 4 ≤ n
  apart : ∀ q ∈ rs, ∀ r ∈ rs, q ≠ r → place q + 4 ≤ place r ∨ place r + 4 ≤ place q

theorem Places.subset {place : Reg → Nat} {n : Nat} {rs rs' : List Reg} (h : Places place n rs)
    (hsub : rs' ⊆ rs) : Places place n rs' where
  inside r hr := h.inside r (hsub hr)
  apart q hq r hr := h.apart q (hsub hq) r (hsub hr)

namespace Image

variable (img : Image F S)

/-- Straight-line code. -/
def execs (ops : List (Op S)) (s : Hart) : Hart := ops.foldl (fun s o => img.exec o s) s

variable {img} {place : Reg → Nat} {base q r : Reg} {rs : List Reg} {n : Nat} {s : Hart}

theorem execs_append (ops ops' : List (Op S)) (s : Hart) :
    img.execs (ops ++ ops') s = img.execs ops' (img.execs ops s) := List.foldl_append

theorem get_exec_sw {i : Nat} : (img.exec (.sw r i base) s).get q = s.get q := rfl

theorem get_exec_lw_of_ne {i : Nat} (h : q ≠ r) : (img.exec (.lw r i base) s).get q = s.get q :=
  Hart.get_set_of_ne h

/-! ## Stores -/

/-- No register changes. -/
theorem get_saves : (img.execs (saves place base rs) s).get q = s.get q := by
  induction rs generalizing s with
  | nil => rfl
  | cons r rs ih => exact ih

/-- **Nothing changes outside the record.** -/
theorem alters_saves (h : Places place n rs) :
    Alters [⟨s.get base, n⟩] s.mem (img.execs (saves place base rs) s).mem := by
  induction rs generalizing s with
  | nil => exact .refl _ _
  | cons r rs ih =>
    have hstore : Alters [⟨s.get base, n⟩] s.mem (img.exec (.sw r (place r) base) s).mem :=
      (Alters.refl _ _).setWord (.part (List.mem_singleton_self _) (h.inside r List.mem_cons_self))
    have hrest := ih (s := img.exec (.sw r (place r) base) s) (h.subset (List.subset_cons_self _ _))
    rw [get_exec_sw] at hrest
    exact hstore.trans hrest

/-- A word of the record that is not the place of any register of the run. -/
theorem word_saves_of_apart {i : Nat} (hn : n ≤ 2 ^ 32) (h : Places place n rs) (hi : i + 4 ≤ n)
    (hap : ∀ r ∈ rs, place r + 4 ≤ i ∨ i + 4 ≤ place r) :
    word (img.execs (saves place base rs) s).mem (s.get base) i = word s.mem (s.get base) i := by
  induction rs generalizing s with
  | nil => rfl
  | cons r rs ih =>
    have hrest := ih (s := img.exec (.sw r (place r) base) s) (h.subset (List.subset_cons_self _ _))
      fun q hq => hap q (List.mem_cons_of_mem _ hq)
    rw [get_exec_sw, mem_exec_sw] at hrest
    refine hrest.trans (word_setWord_ne (hap r List.mem_cons_self) ?_ (hi.trans hn))
    exact (h.inside r List.mem_cons_self).trans hn

/-- **Every register of the run is in its place.** -/
theorem word_saves (hn : n ≤ 2 ^ 32) (h : Places place n rs) (hr : r ∈ rs) :
    word (img.execs (saves place base rs) s).mem (s.get base) (place r) = s.get r := by
  induction rs generalizing s with
  | nil => exact absurd hr List.not_mem_nil
  | cons q rs ih =>
    have htail := h.subset (List.subset_cons_self q rs)
    by_cases hmem : r ∈ rs
    · have hrest := ih (s := img.exec (.sw q (place q) base) s) htail hmem
      exact hrest
    · -- the first store is the one, and none that follows meets it
      obtain rfl : r = q := (List.mem_cons.1 hr).resolve_right hmem
      have hapart : ∀ q ∈ rs, place q + 4 ≤ place r ∨ place r + 4 ≤ place q := fun q hq =>
        h.apart q (List.mem_cons_of_mem _ hq) r hr fun heq => hmem (heq ▸ hq)
      have hrest : word (img.execs (saves place base rs) (img.exec (.sw r (place r) base) s)).mem
          ((img.exec (.sw r (place r) base) s).get base) (place r)
          = word (img.exec (.sw r (place r) base) s).mem ((img.exec (.sw r (place r) base) s).get base) (place r) :=
        word_saves_of_apart hn htail (h.inside r hr) hapart
      rw [get_exec_sw, mem_exec_sw, word_setWord] at hrest
      exact hrest

/-! ## Loads -/

/-- The memory does not change. -/
theorem mem_loads : (img.execs (loads place base rs) s).mem = s.mem := by
  induction rs generalizing s with
  | nil => rfl
  | cons r rs ih => exact ih

/-- A register that is not of the run. -/
theorem get_loads_of_notMem (hq : q ∉ rs) : (img.execs (loads place base rs) s).get q = s.get q := by
  induction rs generalizing s with
  | nil => rfl
  | cons r rs ih =>
    refine (ih fun h => hq (List.mem_cons_of_mem _ h)).trans (get_exec_lw_of_ne fun h => hq ?_)
    rw [h]
    exact List.mem_cons_self

/-- **Every register of the run is loaded from its place.** -/
theorem get_loads (hbase : base ∉ rs) (hzero : .zero ∉ rs) (hr : r ∈ rs) :
    (img.execs (loads place base rs) s).get r = word s.mem (s.get base) (place r) := by
  induction rs generalizing s with
  | nil => exact absurd hr List.not_mem_nil
  | cons q rs ih =>
    have hne : base ≠ q := fun h => hbase (h ▸ List.mem_cons_self)
    by_cases hmem : r ∈ rs
    · refine (ih (s := img.exec (.lw q (place q) base) s) (fun h => hbase (List.mem_cons_of_mem _ h))
        (fun h => hzero (List.mem_cons_of_mem _ h)) hmem).trans ?_
      rw [get_exec_lw_of_ne hne, mem_exec_of_dest (by simp [Op.dest])]
    · obtain rfl : r = q := (List.mem_cons.1 hr).resolve_right hmem
      refine (get_loads_of_notMem hmem).trans (get_exec_lw fun h => hzero ?_)
      rw [← h]
      exact List.mem_cons_self

/-- The last load. -/
theorem execs_loads_concat : img.execs (loads place base (rs ++ [r])) s =
    img.exec (.lw r (place r) base) (img.execs (loads place base rs) s) := by
  rw [loads, List.map_append, execs_append]
  rfl

/-- The base register comes last. -/
theorem get_loads_base (hbase : base ∉ rs) (hzero : .zero ∉ base :: rs) (hr : r ∈ rs ++ [base]) :
    (img.execs (loads place base (rs ++ [base])) s).get r = word s.mem (s.get base) (place r) := by
  rw [execs_loads_concat]
  by_cases hlast : r = base
  · rw [hlast, get_exec_lw fun h => hzero (h ▸ List.mem_cons_self), mem_loads,
      get_loads_of_notMem hbase]
  · have hmem : r ∈ rs := (List.mem_append.1 hr).resolve_right fun h => hlast (List.mem_singleton.1 h)
    rw [get_exec_lw_of_ne hlast]
    exact get_loads hbase (fun h => hzero (List.mem_cons_of_mem _ h)) hmem

end Image

end Riscv
