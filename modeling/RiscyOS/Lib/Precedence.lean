import Mathlib.Data.Option.Basic

/-!
# Operator precedence

Expressions with binary operators of several priorities, all grouping to the left, and with brackets;
and the usual way to evaluate them, with a stack of operations that wait for their right operand.

* `Tree` — expressions, with their brackets.  `Tree.Ordered` says that a tree is what the priorities
  make of its operands and operators: an operator has none of a lower priority below it on the left,
  and only ones of a higher priority on the right.
* `Tree.first`, `Tree.rest` — the operands and operators from left to right.  Every sequence is that of
  one ordered tree and no other (`parse_ordered`, `flat_parse`, `parse_flat`).
* `Lang` — what operators and brackets do, and what they take of a stack of limited size.
  `Lang.value` is the meaning of a tree and `Lang.words` the stack that it needs.
* `Lang.run` — evaluation with waiting operations.  On the operands and operators of an ordered tree it
  has the value of the tree, if the stack is large enough (`Lang.run_flat`).
-/

set_option autoImplicit false

namespace Precedence

/-- An expression: values, brackets with something applied to them, and binary operators. -/
inductive Tree (α ω κ : Type) where
  | leaf (a : α)
  | group (k : κ) (t : Tree α ω κ)
  | node (o : ω) (l r : Tree α ω κ)

namespace Tree

variable {α ω κ : Type}

/-- The operators outside of brackets. -/
def ops : Tree α ω κ → List ω
  | leaf _ => []
  | group _ _ => []
  | node o l r => l.ops ++ o :: r.ops

/-- The first operand: a value or a bracket. -/
def first : Tree α ω κ → Tree α ω κ
  | leaf a => leaf a
  | group k t => group k t
  | node _ l _ => l.first

/-- The other operands, each with the operator before it. -/
def rest : Tree α ω κ → List (ω × Tree α ω κ)
  | leaf _ => []
  | group _ _ => []
  | node o l r => l.rest ++ (o, r.first) :: r.rest

/-- A value or a bracket. -/
def IsOperand : Tree α ω κ → Prop
  | leaf _ => True
  | group _ _ => True
  | node _ _ _ => False

theorem first_of_isOperand {t : Tree α ω κ} (h : t.IsOperand) : t.first = t := by
  cases t with
  | leaf | group => rfl
  | node => exact absurd h id

theorem rest_of_isOperand {t : Tree α ω κ} (h : t.IsOperand) : t.rest = [] := by
  cases t with
  | leaf | group => rfl
  | node => exact absurd h id

theorem ops_of_isOperand {t : Tree α ω κ} (h : t.IsOperand) : t.ops = [] := by
  cases t with
  | leaf | group => rfl
  | node => exact absurd h id

theorem isOperand_first (t : Tree α ω κ) : t.first.IsOperand := by
  induction t with
  | leaf | group => trivial
  | node _ _ _ ihl _ => exact ihl

theorem map_fst_rest (t : Tree α ω κ) : t.rest.map Prod.fst = t.ops := by
  induction t with
  | leaf | group => rfl
  | node o l r ihl ihr => rw [rest, ops, List.map_append, List.map_cons, ihl, ihr]

variable (prio : ω → Nat)

/-- The priorities are respected, inside of brackets as well. -/
def Ordered : Tree α ω κ → Prop
  | leaf _ => True
  | group _ t => t.Ordered
  | node o l r => l.Ordered ∧ r.Ordered ∧ (∀ p ∈ l.ops, prio o ≤ prio p) ∧ ∀ p ∈ r.ops, prio o < prio p

/-- One more operator and operand, to the right of all others. -/
def graft (t : Tree α ω κ) (o : ω) (b : Tree α ω κ) : Tree α ω κ :=
  match t with
  | leaf a => node o (leaf a) b
  | group k t => node o (group k t) b
  | node p l r => if prio o ≤ prio p then node o (node p l r) b else node p l (r.graft o b)

/-- The tree of a sequence of operands and operators. -/
def parse (first : Tree α ω κ) (rest : List (ω × Tree α ω κ)) : Tree α ω κ :=
  rest.foldl (fun t x => t.graft prio x.1 x.2) first

variable {prio} {t b : Tree α ω κ} {o : ω}

theorem ordered_first (h : t.Ordered prio) : t.first.Ordered prio := by
  induction t with
  | leaf | group => exact h
  | node _ _ _ ihl _ => exact ihl h.1

theorem ordered_of_mem_rest {x : ω × Tree α ω κ} (h : t.Ordered prio) (hx : x ∈ t.rest) : x.2.Ordered prio := by
  induction t with
  | leaf | group => exact absurd hx List.not_mem_nil
  | node o l r ihl ihr =>
    rw [rest, List.mem_append, List.mem_cons] at hx
    obtain hx | rfl | hx := hx
    · exact ihl h.1 hx
    · exact ordered_first h.2.1
    · exact ihr h.2.1 hx

theorem first_graft : (t.graft prio o b).first = t.first := by
  induction t with
  | leaf | group => rfl
  | node p l r _ _ =>
    rw [graft]
    split <;> rfl

theorem rest_graft (hb : b.IsOperand) : (t.graft prio o b).rest = t.rest ++ [(o, b)] := by
  induction t with
  | leaf | group => simp [graft, rest, first_of_isOperand hb, rest_of_isOperand hb]
  | node p l r _ ihr =>
    rw [graft]
    split
    · rw [rest, first_of_isOperand hb, rest_of_isOperand hb]
    · rw [rest, rest, ihr, first_graft, List.append_assoc, List.cons_append]

theorem ops_graft (hb : b.IsOperand) : (t.graft prio o b).ops = t.ops ++ [o] := by
  rw [← map_fst_rest, rest_graft hb, List.map_append, map_fst_rest]
  rfl

theorem ordered_graft (ht : t.Ordered prio) (hb : b.IsOperand) (hb' : b.Ordered prio) :
    (t.graft prio o b).Ordered prio := by
  have hops := ops_of_isOperand hb
  induction t with
  | leaf | group =>
    exact ⟨ht, hb', fun p hp => absurd hp List.not_mem_nil, hops ▸ fun p hp => absurd hp List.not_mem_nil⟩
  | node p l r _ ihr =>
    obtain ⟨hl, hr, hleft, hright⟩ := ht
    rw [graft]
    split
    · rename_i hle
      refine ⟨⟨hl, hr, hleft, hright⟩, hb', fun q hq => ?_, hops ▸ fun q hq => absurd hq List.not_mem_nil⟩
      rw [ops, List.mem_append, List.mem_cons] at hq
      obtain hq | rfl | hq := hq
      · exact Nat.le_trans hle (hleft q hq)
      · exact hle
      · exact Nat.le_trans hle (Nat.le_of_lt (hright q hq))
    · rename_i hlt
      refine ⟨hl, ihr hr, hleft, fun q hq => ?_⟩
      rw [ops_graft hb, List.mem_append, List.mem_singleton] at hq
      obtain hq | rfl := hq
      · exact hright q hq
      · exact Nat.lt_of_not_le hlt

/-- **The tree of a sequence is ordered.** -/
theorem parse_ordered {s : List (ω × Tree α ω κ)} (ht : t.Ordered prio)
    (hs : ∀ x ∈ s, x.2.IsOperand ∧ x.2.Ordered prio) : (parse prio t s).Ordered prio := by
  induction s generalizing t with
  | nil => exact ht
  | cons x s ih =>
    obtain ⟨hx, hx'⟩ := hs x (List.mem_cons_self ..)
    exact ih (ordered_graft ht hx hx') fun y hy => hs y (List.mem_cons_of_mem _ hy)

/-- **The tree of a sequence is made of the sequence.** -/
theorem flat_parse {s : List (ω × Tree α ω κ)} (hs : ∀ x ∈ s, x.2.IsOperand) :
    (parse prio t s).first = t.first ∧ (parse prio t s).rest = t.rest ++ s := by
  induction s generalizing t with
  | nil => exact ⟨rfl, (List.append_nil _).symm⟩
  | cons x s ih =>
    obtain ⟨h₁, h₂⟩ := ih (t := t.graft prio x.1 x.2) fun y hy => hs y (List.mem_cons_of_mem _ hy)
    rw [first_graft] at h₁
    rw [rest_graft (hs x (List.mem_cons_self ..)), List.append_assoc] at h₂
    exact ⟨h₁, h₂⟩

/-- What comes behind an operator of a lower priority than all that follow goes to its right. -/
theorem parse_node {l r : Tree α ω κ} {s : List (ω × Tree α ω κ)} (hs : ∀ x ∈ s, prio o < prio x.1) :
    parse prio (node o l r) s = node o l (parse prio r s) := by
  induction s generalizing r with
  | nil => rfl
  | cons x s ih =>
    have hx := hs x (List.mem_cons_self ..)
    rw [parse, List.foldl_cons, graft, if_neg (Nat.not_le_of_lt hx)]
    exact ih fun y hy => hs y (List.mem_cons_of_mem _ hy)

theorem graft_of_le (h : ∀ p ∈ t.ops, prio o ≤ prio p) : t.graft prio o b = node o t b := by
  cases t with
  | leaf | group => rfl
  | node p l r => exact if_pos (h p (List.mem_append_right _ (List.mem_cons_self ..)))

/-- **An ordered tree is that of its sequence**, so there is no other one. -/
theorem parse_flat (h : t.Ordered prio) : parse prio t.first t.rest = t := by
  induction t with
  | leaf | group => rfl
  | node o l r ihl ihr =>
    obtain ⟨hl, hr, hleft, hright⟩ := h
    have hrest : ∀ x ∈ r.rest, prio o < prio x.1 := fun x hx =>
      hright x.1 (map_fst_rest r ▸ List.mem_map_of_mem hx)
    calc parse prio (node o l r).first (node o l r).rest
        = parse prio (parse prio l.first l.rest) ((o, r.first) :: r.rest) := List.foldl_append
      _ = parse prio (l.graft prio o r.first) r.rest := by rw [ihl hl]; rfl
      _ = parse prio (node o l r.first) r.rest := by rw [graft_of_le hleft]
      _ = node o l (parse prio r.first r.rest) := parse_node hrest
      _ = node o l r := by rw [ihr hr]

end Tree

/-! ## Evaluation -/

/-- What operators and brackets do, and what a stack is like on which operations wait: the words of a
waiting operation and of a bracket that is open, and how many there are in all. -/
structure Lang (α ω κ : Type) where
  prio : ω → Nat
  apply : ω → α → α → Option α
  close : κ → α → α
  frame : Nat
  mark : Nat
  limit : Nat

namespace Lang

variable {α ω κ : Type} (L : Lang α ω κ)

/-- **The value of a tree**, if all its operations have one. -/
def value : Tree α ω κ → Option α
  | .leaf a => some a
  | .group k t => (value t).map (L.close k)
  | .node o l r => (value l).bind fun x => (value r).bind (L.apply o x)

/-- **The words of stack that a tree needs**: an operation waits while its right operand is evaluated. -/
def words : Tree α ω κ → Nat
  | .leaf _ => 0
  | .group _ t => L.mark + words t
  | .node _ l r => max (words l) (L.frame + words r)

/-- The value of a tree when `d` words are in use, if that does not take too many. -/
def valueAt (d : Nat) (t : Tree α ω κ) : Option α := if d + L.words t ≤ L.limit then L.value t else none

/-- Do the waiting operations of at least some priority. -/
def reduce (p : Nat) : List (α × ω) → α → Option (List (α × ω) × α)
  | [], v => some ([], v)
  | (x, o) :: pending, v =>
    if p ≤ L.prio o then (L.apply o x v).bind (reduce p pending) else some ((x, o) :: pending, v)

/-- The words in use, with `d` below the waiting operations. -/
def depth (d : Nat) (pending : List (α × ω)) : Nat := d + L.frame * pending.length

/-- **Evaluation from left to right.**  An operator first has all those done that bind tighter, and then
waits, if there is room; at the end none is left. -/
def run (d : Nat) (pending : List (α × ω)) (v : α) : List (ω × Tree α ω κ) → Option α
  | [] => (L.reduce 0 pending v).map Prod.snd
  | (o, b) :: rest =>
    (L.reduce (L.prio o) pending v).bind fun q =>
      if L.depth d q.1 + L.frame ≤ L.limit then
        (L.valueAt (L.depth d q.1 + L.frame) b).bind fun x => run d ((q.2, o) :: q.1) x rest
      else none

variable {L} {d : Nat} {pending : List (α × ω)} {v : α}

/-- The first operator that follows, if there is one, has no higher priority than these. -/
def Behind (L : Lang α ω κ) (s : List (ω × Tree α ω κ)) (ops : List ω) : Prop :=
  ∀ x ∈ s.head?, ∀ p ∈ ops, L.prio x.1 ≤ L.prio p

/-- The operation that waits on top has a lower priority than these. -/
def Above (L : Lang α ω κ) (pending : List (α × ω)) (ops : List ω) : Prop :=
  ∀ x ∈ pending.head?, ∀ p ∈ ops, L.prio x.2 < L.prio p

theorem reduce_of_above {o : ω} (h : L.Above pending [o]) : L.reduce (L.prio o) pending v = some (pending, v) := by
  cases pending with
  | nil => rfl
  | cons x pending =>
    have hlt := h x rfl o (List.mem_singleton_self o)
    exact if_neg (Nat.not_le_of_lt hlt)

/-- What is not below one priority and not below another is done for either. -/
theorem reduce_congr {p q : Nat} (h : ∀ x ∈ pending, p ≤ L.prio x.2 ∧ q ≤ L.prio x.2) :
    L.reduce p pending v = L.reduce q pending v := by
  induction pending generalizing v with
  | nil => rfl
  | cons x pending ih =>
    obtain ⟨hp, hq⟩ := h x (List.mem_cons_self ..)
    rw [reduce, reduce, if_pos hp, if_pos hq]
    exact Option.bind_congr fun y _ => ih fun z hz => h z (List.mem_cons_of_mem _ hz)

/-- An operation on top is done next if what follows does not bind tighter. -/
theorem run_of_behind {x : α} {o : ω} {s : List (ω × Tree α ω κ)} (h : L.Behind s [o]) :
    L.run d ((x, o) :: pending) v s = (L.apply o x v).bind fun y => L.run d pending y s := by
  cases s with
  | nil =>
    rw [run, reduce, if_pos (Nat.zero_le _), Option.map_bind]
    rfl
  | cons y s =>
    have hle := h y rfl o (List.mem_singleton_self o)
    rw [run, reduce, if_pos hle, Option.bind_assoc]
    rfl

theorem valueAt_of_le {t : Tree α ω κ} (h : d + L.words t ≤ L.limit) : L.valueAt d t = L.value t := if_pos h

theorem valueAt_of_lt {t : Tree α ω κ} (h : L.limit < d + L.words t) : L.valueAt d t = none :=
  if_neg (Nat.not_le_of_lt h)

/-- A tree with a value has the stack that it needs. -/
theorem valueAt_eq_some {t : Tree α ω κ} : L.valueAt d t = some v ↔ d + L.words t ≤ L.limit ∧ L.value t = some v := by
  rw [valueAt]
  split
  · rename_i h
    exact ⟨fun hv => ⟨h, hv⟩, And.right⟩
  · rename_i h
    exact ⟨fun hv => absurd hv (by simp), fun hv => absurd hv.1 h⟩

theorem valueAt_group {k : κ} {t : Tree α ω κ} :
    L.valueAt d (.group k t) = (L.valueAt (d + L.mark) t).map (L.close k) := by
  have hwords : L.words (.group k t) = L.mark + L.words t := rfl
  by_cases h : d + L.mark + L.words t ≤ L.limit
  · rw [valueAt_of_le h, valueAt_of_le (by omega)]
    rfl
  · rw [valueAt_of_lt (Nat.lt_of_not_le h), valueAt_of_lt (by omega)]
    rfl

theorem valueAt_node {o : ω} {l r : Tree α ω κ} : L.valueAt d (.node o l r) =
    (L.valueAt d l).bind fun x =>
      if d + L.frame ≤ L.limit then (L.valueAt (d + L.frame) r).bind (L.apply o x) else none := by
  have hwords : L.words (.node o l r) = max (L.words l) (L.frame + L.words r) := rfl
  by_cases hl : d + L.words l ≤ L.limit
  · rw [valueAt_of_le hl]
    by_cases hr : d + L.frame + L.words r ≤ L.limit
    · have hd : d + L.frame ≤ L.limit := by omega
      have hnode : d + L.words (.node o l r) ≤ L.limit := by omega
      rw [valueAt_of_le hnode, valueAt_of_le hr]
      simp only [if_pos hd]
      rfl
    · rw [valueAt_of_lt (by omega), valueAt_of_lt (d := d + L.frame) (by omega)]
      simp
  · rw [valueAt_of_lt (by omega), valueAt_of_lt (t := l) (by omega)]
    rfl

theorem depth_cons (x : α × ω) : L.depth d (x :: pending) = L.depth d pending + L.frame := by
  rw [depth, depth, List.length_cons, Nat.mul_succ, Nat.add_assoc]

/-- A tree in the middle of an expression is evaluated before the expression goes on. -/
theorem run_tree {t : Tree α ω κ} {s : List (ω × Tree α ω κ)} (ht : t.Ordered L.prio)
    (habove : L.Above pending t.ops) (hbehind : L.Behind s t.ops) :
    ((L.valueAt (L.depth d pending) t.first).bind fun x => L.run d pending x (t.rest ++ s)) =
      (L.valueAt (L.depth d pending) t).bind fun x => L.run d pending x s := by
  induction t generalizing pending s with
  | leaf | group => rfl
  | node o l r ihl ihr =>
    obtain ⟨hl, hr, hleft, hright⟩ := ht
    have habove' : L.Above pending l.ops ∧ L.Above pending [o] :=
      ⟨fun x hx p hp => habove x hx p (List.mem_append_left _ hp), fun x hx p hp =>
        habove x hx p (List.mem_append_right _ (List.mem_singleton.1 hp ▸ List.mem_cons_self ..))⟩
    have hbehind' : L.Behind s r.ops ∧ L.Behind s [o] :=
      ⟨fun x hx p hp => hbehind x hx p (List.mem_append_right _ (List.mem_cons_of_mem _ hp)), fun x hx p hp =>
        hbehind x hx p (List.mem_append_right _ (List.mem_singleton.1 hp ▸ List.mem_cons_self ..))⟩
    have hmid : L.Behind ((o, r.first) :: (r.rest ++ s)) l.ops := by
      rintro x hx p hp
      obtain rfl : (o, r.first) = x := Option.some.inj hx
      exact hleft p hp
    rw [Tree.first, Tree.rest, List.append_assoc, List.cons_append, ihl hl habove'.1 hmid, valueAt_node,
      Option.bind_assoc]
    refine Option.bind_congr fun x _ => ?_
    rw [run, reduce_of_above habove'.2, Option.bind_some]
    split
    · have htop : L.Above ((x, o) :: pending) r.ops := by
        rintro y hy p hp
        obtain rfl : (x, o) = y := Option.some.inj hy
        exact hright p hp
      rw [← depth_cons (x, o), ihr hr htop hbehind'.1, Option.bind_assoc]
      exact Option.bind_congr fun y _ => run_of_behind hbehind'.2
    · rfl

/-- **Evaluation from left to right has the value of the tree.** -/
theorem run_flat {t : Tree α ω κ} (ht : t.Ordered L.prio) :
    ((L.valueAt d t.first).bind fun x => L.run d [] x t.rest) = L.valueAt d t := by
  have habove : L.Above [] t.ops := fun x hx => absurd hx (by simp)
  have hbehind : L.Behind [] t.ops := fun x hx => absurd hx (by simp)
  have h := run_tree (d := d) ht habove hbehind
  have hd : L.depth d ([] : List (α × ω)) = d := by rw [depth, List.length_nil, Nat.mul_zero, Nat.add_zero]
  rw [List.append_nil, hd] at h
  refine h.trans ?_
  cases L.valueAt d t <;> rfl

end Lang

end Precedence
