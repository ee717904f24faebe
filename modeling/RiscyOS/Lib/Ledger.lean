import Mathlib.Data.List.Nodup
import Mathlib.Data.List.Perm.Basic

/-!
# A ledger for a heap

What a program does to its heap is a sequence of allocations, releases and accesses.  A `Ledger`
follows it with the list of the blocks that are allocated and not released, each with its tag, and
the list of its faults: the addresses released or accessed while no block was there.  It does not say
where the blocks come from; that the allocator hands out addresses that are not in use is the
hypothesis of `WellFormed.alloc`.
-/

set_option autoImplicit false

/-- The blocks in use, and the addresses that were wrongly released or accessed. -/
structure Ledger (τ α : Type*) where
  blocks : List (τ × α)
  faults : List α

namespace Ledger

/-- What is done to the heap. -/
inductive Op (τ α : Type*)
  | alloc (t : τ) (p : α)
  | free (p : α)
  | access (p : α)
  deriving DecidableEq, Repr

variable {τ α : Type*} {L : Ledger τ α} {p : α} {b : τ × α}

/-- There is a block at `p`. -/
def Live (L : Ledger τ α) (p : α) : Prop := p ∈ L.blocks.map Prod.snd

/-- No two blocks are at the same address. -/
def WellFormed (L : Ledger τ α) : Prop := (L.blocks.map Prod.snd).Nodup

theorem live_of_mem (h : b ∈ L.blocks) : L.Live b.2 := List.mem_map_of_mem h

/-- Two blocks at one address are the same. -/
theorem WellFormed.eq_of_snd_eq {b' : τ × α} (h : L.WellFormed) (hb : b ∈ L.blocks)
    (hb' : b' ∈ L.blocks) (heq : b.2 = b'.2) : b = b' :=
  List.inj_on_of_nodup_map h hb hb' heq

variable [DecidableEq α]

instance : DecidablePred L.Live := fun p => inferInstanceAs (Decidable (p ∈ L.blocks.map Prod.snd))

/-- Follow one operation.  A release of what is not there leaves the blocks as they are. -/
def apply (L : Ledger τ α) : Op τ α → Ledger τ α
  | .alloc t p => { L with blocks := (t, p) :: L.blocks }
  | .free p =>
    ⟨L.blocks.filter (·.2 ≠ p), if L.Live p then L.faults else L.faults ++ [p]⟩
  | .access p => { L with faults := if L.Live p then L.faults else L.faults ++ [p] }

theorem mem_free : b ∈ (L.apply (.free p)).blocks ↔ b ∈ L.blocks ∧ b.2 ≠ p := by
  rw [apply, List.mem_filter, decide_eq_true_eq]

/-- **A block handed out** where there is none. -/
theorem WellFormed.alloc {t : τ} (h : L.WellFormed) (hp : ¬ L.Live p) :
    (L.apply (.alloc t p)).WellFormed :=
  List.nodup_cons.2 ⟨hp, h⟩

theorem WellFormed.free (h : L.WellFormed) : (L.apply (.free p)).WellFormed :=
  h.sublist (List.filter_sublist.map Prod.snd)

/-- **A block released** is the only one that goes. -/
theorem WellFormed.perm_free (h : L.WellFormed) (hb : b ∈ L.blocks) :
    L.blocks.Perm (b :: (L.apply (.free b.2)).blocks) := by
  obtain ⟨l₁, l₂, hl⟩ := List.append_of_mem hb
  have hnd := h
  rw [WellFormed, hl, List.map_append, List.map_cons, List.nodup_append, List.nodup_cons] at hnd
  obtain ⟨-, ⟨hb₂, -⟩, hb₁⟩ := hnd
  -- nothing before it and nothing after it is at its address
  have h₁ : l₁.filter (fun c => decide (c.2 ≠ b.2)) = l₁ := by
    refine List.filter_eq_self.2 fun c hc => decide_eq_true ?_
    exact hb₁ _ (List.mem_map_of_mem hc) _ List.mem_cons_self
  have h₂ : l₂.filter (fun c => decide (c.2 ≠ b.2)) = l₂ := by
    refine List.filter_eq_self.2 fun c hc => decide_eq_true fun heq => hb₂ ?_
    exact heq ▸ List.mem_map_of_mem hc
  rw [apply, hl, List.filter_append, h₁, List.filter_cons_of_neg (by simp), h₂]
  exact List.perm_middle

/-- Releasing and accessing what is there is no fault. -/
theorem faults_of_live (h : L.Live p) :
    (L.apply (.free p)).faults = L.faults ∧ L.apply (.access p) = L := by
  rw [apply, apply, if_pos h]
  exact ⟨rfl, rfl⟩

/-- Releasing and accessing what is not there is. -/
theorem faults_of_not_live (h : ¬ L.Live p) :
    (L.apply (.free p)).faults = L.faults ++ [p] ∧
      (L.apply (.access p)).faults = L.faults ++ [p] := by
  rw [apply, apply, if_neg h]
  exact ⟨rfl, rfl⟩

end Ledger
