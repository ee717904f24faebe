import Mathlib.Data.List.Nodup
import Mathlib.Logic.Function.Iterate

/-!
# Linked lists

A linked list is read off a successor function: from a first node, follow `next` until a node says
`stop`.  `Linked next stop p l` says that this visits exactly the nodes `l`.  It serves a queue
threaded through memory and a chain of clusters threaded through an allocation table alike.

The list is determined by its first node (`Linked.unique`), and that is already enough to see that
it has no repetition: a node that came twice would start two lists of different lengths
(`Linked.nodup`).
-/

set_option autoImplicit false

variable {α : Type*} {next next' : α → α} {stop : α → Prop} {p q x : α} {l l' : List α}

/-- From `p`, following `next` up to a `stop`, the nodes are `l`. -/
def Linked (next : α → α) (stop : α → Prop) : α → List α → Prop
  | p, [] => stop p
  | p, x :: l => p = x ∧ ¬ stop x ∧ Linked next stop (next x) l

instance Linked.decidable [DecidableEq α] [DecidablePred stop] :
    ∀ (p : α) (l : List α), Decidable (Linked next stop p l)
  | p, [] => inferInstanceAs (Decidable (stop p))
  | p, x :: l =>
    haveI := Linked.decidable (next x) l
    inferInstanceAs (Decidable (p = x ∧ ¬ stop x ∧ Linked next stop (next x) l))

namespace Linked

/-- A list that does not stop at once starts with its first node. -/
theorem exists_cons (h : Linked next stop p l) (hp : ¬ stop p) :
    ∃ l', l = p :: l' ∧ Linked next stop (next p) l' := by
  cases l with
  | nil => exact absurd h hp
  | cons x l =>
    obtain ⟨rfl, -, h⟩ := h
    exact ⟨l, rfl, h⟩

theorem not_stop_of_mem (h : Linked next stop p l) (hx : x ∈ l) : ¬ stop x := by
  induction l generalizing p with
  | nil => exact absurd hx List.not_mem_nil
  | cons y l ih =>
    obtain ⟨-, hy, h⟩ := h
    rcases List.mem_cons.1 hx with rfl | hx
    · exact hy
    · exact ih h hx

/-- **The first node determines the list.** -/
theorem unique (h : Linked next stop p l) (h' : Linked next stop p l') : l = l' := by
  induction l generalizing p l' with
  | nil =>
    cases l' with
    | nil => rfl
    | cons y l' =>
      obtain ⟨rfl, hy, -⟩ := h'
      exact absurd h hy
  | cons x l ih =>
    obtain ⟨rfl, hx, h⟩ := h
    obtain ⟨l'', rfl, h''⟩ := h'.exists_cons hx
    rw [ih h h'']

/-- Every node of the list starts the rest of it. -/
theorem exists_suffix (h : Linked next stop p l) (hx : x ∈ l) :
    ∃ s, Linked next stop x (x :: s) ∧ s.length < l.length := by
  induction l generalizing p with
  | nil => exact absurd hx List.not_mem_nil
  | cons y l ih =>
    rcases List.mem_cons.1 hx with rfl | hx
    · exact ⟨l, ⟨rfl, h.2⟩, by simp⟩
    · obtain ⟨s, hs, hlen⟩ := ih h.2.2 hx
      exact ⟨s, hs, by rw [List.length_cons]; omega⟩

/-- **No node comes twice.** -/
theorem nodup (h : Linked next stop p l) : l.Nodup := by
  induction l generalizing p with
  | nil => exact List.nodup_nil
  | cons x l ih =>
    refine List.nodup_cons.2 ⟨fun hx => ?_, ih h.2.2⟩
    obtain ⟨s, hs, hlen⟩ := h.2.2.exists_suffix hx
    obtain ⟨rfl, h⟩ := h
    have heq : s = l := (List.cons.inj (hs.unique ⟨rfl, h⟩)).2
    rw [heq] at hlen
    exact Nat.lt_irrefl _ hlen

/-- Only the successors of the nodes on the list matter. -/
theorem congr (h : Linked next stop p l) (hnext : ∀ x ∈ l, next' x = next x) :
    Linked next' stop p l := by
  induction l generalizing p with
  | nil => exact h
  | cons x l ih =>
    refine ⟨h.1, h.2.1, ?_⟩
    rw [hnext x List.mem_cons_self]
    exact ih h.2.2 fun y hy => hnext y (List.mem_cons_of_mem x hy)

/-- A node is hung onto the end by pointing the last one at it. -/
theorem concat (h : Linked next stop p l) (hl : l ≠ []) (hlast : next' (l.getLast hl) = x)
    (hsame : ∀ y ∈ l, y ≠ l.getLast hl → next' y = next y) (hx : ¬ stop x)
    (hstop : stop (next' x)) : Linked next' stop p (l ++ [x]) := by
  induction l generalizing p with
  | nil => exact absurd rfl hl
  | cons y l ih =>
    have hnd := h.nodup
    obtain ⟨rfl, hy, h⟩ := h
    refine ⟨rfl, hy, ?_⟩
    cases l with
    | nil =>
      rw [show next' p = x from hlast]
      exact ⟨rfl, hx, hstop⟩
    | cons z l =>
      have hcons := List.cons_ne_nil z l
      rw [List.getLast_cons hcons] at hlast hsame
      rw [hsame p List.mem_cons_self fun heq =>
        (List.nodup_cons.1 hnd).1 (heq ▸ List.getLast_mem hcons)]
      exact ih h hcons hlast fun y hy => hsame y (List.mem_cons_of_mem p hy)

/-- A node is taken out by pointing the one before it past it. -/
theorem unlink {l₁ l₂ : List α} (h : Linked next stop p (l₁ ++ x :: q :: l₂))
    (hx : next' x = next q) (hsame : ∀ y ∈ l₁ ++ l₂, next' y = next y) :
    Linked next' stop p (l₁ ++ x :: l₂) := by
  induction l₁ generalizing p with
  | nil =>
    obtain ⟨rfl, hp, -, -, h⟩ := h
    refine ⟨rfl, hp, ?_⟩
    rw [hx]
    exact h.congr hsame
  | cons y l₁ ih =>
    refine ⟨h.1, h.2.1, ?_⟩
    rw [hsame y (List.mem_append_left _ List.mem_cons_self)]
    exact ih h.2.2 fun z hz => hsame z (by rw [List.cons_append]; exact List.mem_cons_of_mem y hz)

/-- Nodes numbered in order, each pointing to the next. -/
theorem range (g : ℕ → α) {n : ℕ} (hn : 0 < n) (hnext : ∀ i, i + 1 < n → next (g i) = g (i + 1))
    (hlast : stop (next (g (n - 1)))) (hg : ∀ i < n, ¬ stop (g i)) :
    Linked next stop (g 0) ((List.range n).map g) := by
  have hfrom : ∀ k i, 0 < k → i + k = n →
      Linked next stop (g i) ((List.range' i k).map g) := by
    intro k
    induction k with
    | zero => intro i h; exact absurd h (Nat.lt_irrefl 0)
    | succ k ih =>
      intro i _ hik
      rw [List.range'_succ, List.map_cons]
      refine ⟨rfl, hg i (by omega), ?_⟩
      cases k with
      | zero =>
        obtain rfl : i = n - 1 := by omega
        exact hlast
      | succ k =>
        rw [hnext i (by omega)]
        exact ih (i + 1) (Nat.succ_pos k) (by omega)
  rw [List.range_eq_range']
  exact hfrom n 0 hn (Nat.zero_add n)

/-- The `i`-th node is reached in `i` hops. -/
theorem getElem?_eq_iterate (h : Linked next stop p l) {i : ℕ} {c : α} (hi : l[i]? = some c) :
    c = next^[i] p := by
  induction l generalizing p i with
  | nil => exact absurd hi (by simp)
  | cons x l ih =>
    obtain ⟨rfl, -, h⟩ := h
    cases i with
    | zero => exact (Option.some.inj hi).symm
    | succ i => exact ih h hi

/-- The node after the `i`-th is its successor. -/
theorem getElem?_succ (h : Linked next stop p l) {i : ℕ} {c d : α} (hi : l[i]? = some c)
    (hd : l[i + 1]? = some d) : next c = d := by
  rw [h.getElem?_eq_iterate hi, h.getElem?_eq_iterate hd, Function.iterate_succ_apply']

end Linked
