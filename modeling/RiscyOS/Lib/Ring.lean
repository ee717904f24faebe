import Mathlib.Data.List.Chain
import Mathlib.Data.List.Rotate
import Mathlib.Data.List.Nodup

/-!
# Circular lists

A ring of nodes is read off a successor function too, but it has no end: from a node `p`, following
`next` leads back to `p`.  `Circular next p l` says that the nodes met on the way are `l`, with `p`
itself the last of them, and that none comes twice before that.

The same ring can be read from any of its nodes (`Circular.rotate`).  A search that starts behind `p`
and takes the first node it is looking for therefore goes round: the nodes it is looking for, listed
from the one it has found, are the same list rotated by one (`Circular.find?_rotate`).
-/

set_option autoImplicit false

variable {α : Type*} {next next' : α → α} {p q : α} {l l₁ l₂ : List α}

/-- From `p`, following `next` once around, the nodes are `l`, and `p` is the last. -/
structure Circular (next : α → α) (p : α) (l : List α) : Prop where
  chain : List.IsChain (fun x y => next x = y) (p :: l)
  last : l.getLast? = some p
  nodup : l.Nodup

namespace Circular

theorem mem (h : Circular next p l) : p ∈ l := List.mem_of_getLast? h.last

theorem singleton (h : next p = p) : Circular next p [p] :=
  ⟨List.isChain_pair.2 h, rfl, List.nodup_singleton p⟩

/-- Only the successors of the nodes on the ring matter. -/
theorem congr (h : Circular next p l) (hnext : ∀ x ∈ l, next' x = next x) : Circular next' p l := by
  refine ⟨h.chain.imp_of_mem_imp fun a b ha _ hab => ?_, h.last, h.nodup⟩
  rw [hnext a ?_]
  · exact hab
  · rcases List.mem_cons.1 ha with rfl | ha
    · exact h.mem
    · exact ha

/-- **The ring, read from another node.** -/
theorem rotate (h : Circular next p (l₁ ++ q :: l₂)) : Circular next q (l₂ ++ (l₁ ++ [q])) := by
  have hperm : (l₁ ++ q :: l₂).Perm (l₂ ++ (l₁ ++ [q])) := by
    have := @List.perm_append_comm _ (l₁ ++ [q]) l₂
    rwa [List.append_assoc, List.singleton_append] at this
  refine ⟨?_, by simp, hperm.nodup_iff.1 h.nodup⟩
  obtain ⟨hleft, hright⟩ := List.isChain_cons_split.1 h.chain
  rcases List.eq_nil_or_concat l₂ with rfl | ⟨d, x, rfl⟩
  · obtain rfl : q = p := by simpa using h.last
    exact hleft
  · rw [List.concat_eq_append] at hright ⊢
    have hlast := h.last
    rw [List.concat_eq_append, ← List.cons_append, ← List.append_assoc, List.getLast?_concat,
      Option.some.injEq] at hlast
    subst hlast
    rw [List.append_assoc, List.singleton_append]
    exact List.isChain_cons_split.2 ⟨hright, hleft⟩

/-- It can be read from any of its nodes. -/
theorem from_mem (h : Circular next p l) (hq : q ∈ l) : ∃ l', Circular next q l' ∧ l'.Perm l := by
  obtain ⟨l₁, l₂, rfl⟩ := List.append_of_mem hq
  refine ⟨_, h.rotate, ?_⟩
  have := @List.perm_append_comm _ l₂ (l₁ ++ [q])
  rwa [List.append_assoc l₁, List.singleton_append] at this

/-- A node leads to a node. -/
theorem next_mem (h : Circular next p l) (hq : q ∈ l) : next q ∈ l := by
  obtain ⟨l', hring, hperm⟩ := h.from_mem hq
  obtain ⟨x, l', rfl⟩ := List.exists_cons_of_ne_nil (List.ne_nil_of_mem hring.mem)
  rw [(List.isChain_cons_cons.1 hring.chain).1]
  exact hperm.subset List.mem_cons_self

/-- **The first node found**, from which the nodes looked for are the same list rotated by one. -/
theorem find?_rotate {ready : α → Bool} (h : Circular next p l) (hq : l.find? ready = some q) :
    ∃ l', Circular next q l' ∧ l'.Perm l ∧ l'.filter ready = (l.filter ready).rotate 1 := by
  obtain ⟨hready, l₁, l₂, rfl, hnot⟩ := List.find?_eq_some_iff_append.1 hq
  have hnone : l₁.filter ready = [] :=
    List.filter_eq_nil_iff.2 fun a ha => by simpa using hnot a ha
  refine ⟨_, h.rotate, ?_, ?_⟩
  · have := @List.perm_append_comm _ l₂ (l₁ ++ [q])
    rwa [List.append_assoc l₁, List.singleton_append] at this
  · rw [List.filter_append, List.filter_append, List.filter_append, hnone,
      List.filter_cons_of_pos hready, List.filter_cons_of_pos hready]
    simp

/-- The successor of the last node does not matter for the chain. -/
theorem chain_congr {x : α} (hl : ∀ y ∈ l, next' y = next y)
    (hc : List.IsChain (fun a b => next a = b) (l ++ [x])) :
    List.IsChain (fun a b => next' a = b) (l ++ [x]) := by
  induction l with
  | nil => exact List.isChain_singleton x
  | cons y l ih =>
    rw [List.cons_append, List.isChain_cons] at hc ⊢
    refine ⟨fun z hz => ?_, ih (fun w hw => hl w (List.mem_cons_of_mem y hw)) hc.2⟩
    rw [hl y List.mem_cons_self]
    exact hc.1 z hz

/-- **A node is put in** behind `p`. -/
theorem insert (h : Circular next p l) (hq : q ∉ l) (hp : next' p = q) (hnext : next' q = next p)
    (hsame : ∀ x ∈ l, x ≠ p → next' x = next x) : Circular next' p (q :: l) := by
  have hnil : l ≠ [] := List.ne_nil_of_mem h.mem
  refine ⟨List.isChain_cons_cons.2 ⟨hp, ?_⟩, ?_, List.nodup_cons.2 ⟨hq, h.nodup⟩⟩
  · obtain ⟨d, x, rfl⟩ := (List.eq_nil_or_concat l).resolve_left hnil
    rw [List.concat_eq_append] at h hsame hq ⊢
    obtain rfl : x = p := by simpa using h.last
    have hd : ∀ y ∈ d, next' y = next y := by
      intro y hy
      refine hsame y (List.mem_append_left _ hy) ?_
      rintro rfl
      exact (List.nodup_append.1 h.nodup).2.2 y hy y (List.mem_singleton_self y) rfl
    have hchain := h.chain
    rw [List.isChain_cons] at hchain ⊢
    refine ⟨fun z hz => ?_, chain_congr hd hchain.2⟩
    rw [hnext]
    exact hchain.1 z hz
  · rw [List.getLast?_cons, h.last]
    rfl

end Circular
