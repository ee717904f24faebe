import RiscyOS.Fs.Names

/-!
# The component buffer

A path walker holds the component it is at in thirteen bytes, `component`, and right after it the eleven
bytes of `component_83` and the rest of the open context.  `get_next_path_component` copies characters up to
the next slash or the end of the path, and the zero after them, without counting.  `PathWalker` has the
component as a string, whatever its length; here are the stores, by their index in the buffer, and for
which paths all of them are in it (`fitsBuffer_iff`).
-/

set_option autoImplicit false

namespace RiscyOS

open Memory

/-! ## The stores -/

/-- The copy loop of `get_next_path_component`, and the zero it ends with, from index `i` of `out`. -/
def copyComponent : List Byte → Nat → List (Nat × Byte)
  | [], i => [(i, 0)]
  | c :: rest, i => if c = slash then [(i, 0)] else (i, c) :: copyComponent rest (i + 1)

/-- The stores of `get_next_path_component` to `out`, in order. -/
def getNextPathComponentStores (path : List Byte) : List (Nat × Byte) :=
  let path := if path.head? = some slash then path.tail else path
  if path = [] then [] else copyComponent path 0

/-- What is left of the path. -/
def PathWalker.rest (p : PathWalker) : List Byte := p.fullPath.drop p.offset.toNat

/-- The stores of `path_walker_advance` to `component`. -/
def pathWalkerAdvanceStores (p : PathWalker) : List (Nat × Byte) := getNextPathComponentStores p.rest

/-- The walkers of a path: the one an open starts with, and those it is advanced to, as long as there is
something left. -/
inductive Walks (path : List Byte) : PathWalker → Prop
  | start : Walks path ⟨path, 0, [], List.replicate 11 0⟩
  | advance {p : PathWalker} (h : Walks path p) (hnext : pathWalkerHasNext p = true) :
      Walks path (pathWalkerAdvance p)

/-- **The path fits its buffer**: no store goes beyond the thirteen bytes, however often the walker is
advanced. -/
def FitsBuffer (path : List Byte) : Prop :=
  ∀ p, Walks path p → pathWalkerHasNext p = true → ∀ x ∈ pathWalkerAdvanceStores p, x.1 < 13

/-- The stores make the component. -/
theorem copyComponent_eq (path : List Byte) (i : Nat) :
    copyComponent path i = storesAt i (path.takeWhile (· ≠ slash) ++ [0]) := by
  induction path generalizing i with
  | nil => rfl
  | cons c rest ih =>
    rw [copyComponent]
    by_cases hc : c = slash
    · rw [if_pos hc, List.takeWhile_cons_of_neg (by simpa using hc)]
      rfl
    · rw [if_neg hc, ih, List.takeWhile_cons_of_pos (by simpa using hc)]
      rfl

/-- The last of them is the zero. -/
theorem storesAt_bounded_iff {bytes : List Byte} {i n : Nat} (hne : bytes ≠ []) :
    (∀ x ∈ storesAt i bytes, x.1 < n) ↔ i + bytes.length ≤ n := by
  constructor
  · intro h
    induction bytes generalizing i with
    | nil => exact absurd rfl hne
    | cons b bytes ih =>
      rw [List.length_cons]
      have hi := h (i, b) List.mem_cons_self
      by_cases hnil : bytes = []
      · rw [hnil]
        exact hi
      · have := ih hnil fun x hx => h x (List.mem_cons_of_mem _ hx)
        omega
  · intro h x hx
    exact (lt_of_mem_storesAt hx).trans_le h

/-! ## The components -/

/-- What is left of a path, less the slash it begins with. -/
def stripSlash (path : List Byte) : List Byte := if path.head? = some slash then path.tail else path

/-- A component is stored with its zero. -/
theorem getNextPathComponentStores_bounded_iff {path : List Byte} :
    (∀ x ∈ getNextPathComponentStores path, x.1 < 13) ↔
      ((stripSlash path).takeWhile (· ≠ slash)).length ≤ 12 := by
  rw [getNextPathComponentStores]
  change (∀ x ∈ if stripSlash path = [] then [] else copyComponent (stripSlash path) 0, x.1 < 13) ↔ _
  by_cases hnil : stripSlash path = []
  · rw [if_pos hnil, hnil]
    exact iff_of_true nofun (by decide)
  · rw [if_neg hnil, copyComponent_eq, storesAt_bounded_iff (by simp), List.length_append,
      List.length_singleton]
    omega

/-- The components of a path: what is between its slashes. -/
def AllFit (path : List Byte) : Prop := ∀ c ∈ path.splitOn slash, c.length ≤ 12

theorem allFit_nil : AllFit [] := by
  intro c hc
  rw [List.splitOn_nil, List.mem_singleton] at hc
  rw [hc]
  decide

/-- A slash at the beginning makes no difference. -/
theorem allFit_stripSlash {path : List Byte} : AllFit (stripSlash path) ↔ AllFit path := by
  rw [stripSlash]
  split
  · rename_i hhead
    obtain ⟨rest, rfl⟩ : ∃ rest, path = slash :: rest := by
      cases path with
      | nil => cases hhead
      | cons c rest => exact ⟨rest, by rw [Option.some.inj hhead]⟩
    have hsplit : (slash :: rest).splitOn slash = [] :: rest.splitOn slash :=
      List.splitOn_append_cons_self [] rest
    rw [AllFit, AllFit, List.tail_cons, hsplit, List.forall_mem_cons]
    exact (and_iff_right (Nat.zero_le 12)).symm
  · exact Iff.rfl

/-- **The first component and the others.** -/
theorem allFit_iff {path : List Byte} :
    AllFit path ↔ (path.takeWhile (· ≠ slash)).length ≤ 12 ∧ AllFit (path.dropWhile (· ≠ slash)) := by
  have hsplit : path.takeWhile (· ≠ slash) ++ path.dropWhile (· ≠ slash) = path :=
    List.takeWhile_append_dropWhile
  have hfirst : (path.takeWhile (· ≠ slash)).splitOn slash = [path.takeWhile (· ≠ slash)] :=
    List.splitOn_eq_singleton fun hmem => by simpa using List.mem_takeWhile_imp hmem
  cases hdrop : path.dropWhile (· ≠ slash) with
  | nil =>
    rw [hdrop, List.append_nil] at hsplit
    rw [hsplit] at hfirst ⊢
    rw [AllFit, hfirst, List.forall_mem_singleton]
    exact (and_iff_left allFit_nil).symm
  | cons b rest =>
    obtain rfl : b = slash := by
      have hhead := List.head?_dropWhile_not (fun x => decide (x ≠ slash)) path
      rw [hdrop] at hhead
      simpa using hhead
    have happend := List.splitOn_append_cons_self (a := slash) (path.takeWhile (· ≠ slash)) rest
    rw [hdrop] at hsplit
    rw [hsplit, hfirst] at happend
    have hrest : AllFit (slash :: rest) ↔ AllFit rest := allFit_stripSlash.symm
    rw [hrest, AllFit, happend, List.singleton_append, List.forall_mem_cons]
    exact Iff.rfl

/-! ## Walking a path -/

/-- A component and the slash before it are gone. -/
theorem length_dropWhile_stripSlash_lt {path : List Byte}
    (h : (stripSlash path).dropWhile (· ≠ slash) ≠ []) :
    ((stripSlash path).dropWhile (· ≠ slash)).length < path.length := by
  cases path with
  | nil => exact absurd rfl h
  | cons c rest =>
    have hle : (rest.dropWhile (· ≠ slash)).length ≤ rest.length := (List.dropWhile_suffix _).length_le
    rw [List.length_cons]
    by_cases hc : c = slash
    · rw [stripSlash, List.head?_cons, if_pos (congrArg some hc), List.tail_cons]
      exact Nat.lt_succ_of_le hle
    · rw [stripSlash, List.head?_cons, if_neg fun heq => hc (Option.some.inj heq),
        List.dropWhile_cons_of_pos (by simpa using hc)]
      exact Nat.lt_succ_of_le hle

/-- **Advancing** leaves the path from the next slash on, and nothing if there is none. -/
theorem pathWalkerAdvance_rest (p : PathWalker) :
    (pathWalkerHasNext (pathWalkerAdvance p) = true ↔
        (stripSlash p.rest).dropWhile (· ≠ slash) ≠ []) ∧
      (pathWalkerHasNext (pathWalkerAdvance p) = true →
        (pathWalkerAdvance p).rest = (stripSlash p.rest).dropWhile (· ≠ slash)) := by
  have hnext : getNextPathComponent p.rest =
      if stripSlash p.rest = [] then none
      else some ((stripSlash p.rest).takeWhile (· ≠ slash), (stripSlash p.rest).dropWhile (· ≠ slash)) := rfl
  have hlast : ∀ q : PathWalker, q.offset = -1 → ¬ pathWalkerHasNext q = true := by
    intro q hq h
    rw [pathWalkerHasNext, hq] at h
    exact absurd h (by decide)
  rw [pathWalkerAdvance, ← PathWalker.rest, hnext]
  by_cases hstrip : stripSlash p.rest = []
  · rw [if_pos hstrip, hstrip]
    exact ⟨iff_of_false (hlast _ rfl) (not_not.2 rfl), fun h => absurd h (hlast _ rfl)⟩
  rw [if_neg hstrip]
  by_cases hdrop : (stripSlash p.rest).dropWhile (· ≠ slash) = []
  · simp only [if_pos hdrop]
    exact ⟨iff_of_false (hlast _ rfl) (not_not.2 hdrop), fun h => absurd h (hlast _ rfl)⟩
  · simp only [if_neg hdrop]
    -- what is left is a suffix of the path, so that the offset leads to it
    have hsuffix : (stripSlash p.rest).dropWhile (· ≠ slash) <:+ p.fullPath := by
      refine (List.dropWhile_suffix _).trans (List.IsSuffix.trans ?_ (List.drop_suffix p.offset.toNat _))
      rw [stripSlash, PathWalker.rest]
      split
      · exact List.tail_suffix _
      · exact List.suffix_rfl
    have hle := hsuffix.length_le
    have hoffset : ((p.fullPath.length : Int) -
        ((stripSlash p.rest).dropWhile (· ≠ slash)).length).toNat =
          p.fullPath.length - ((stripSlash p.rest).dropWhile (· ≠ slash)).length := by omega
    refine ⟨iff_of_true (decide_eq_true (by dsimp only; omega)) hdrop, fun _ => ?_⟩
    rw [PathWalker.rest]
    dsimp only
    rw [hoffset]
    exact (List.suffix_iff_eq_drop.1 hsuffix).symm

/-- **When a path fits its buffer.**  For every path: no store goes beyond the thirteen bytes if and only if
none of its components has more than twelve characters. -/
theorem fitsBuffer_iff (path : List Byte) :
    FitsBuffer path ↔ ∀ c ∈ path.splitOn slash, c.length ≤ 12 := by
  constructor
  · intro h
    -- by induction on what is left, for every walker of the path
    have hrest : ∀ n p, p.rest.length = n → Walks path p → pathWalkerHasNext p = true → AllFit p.rest := by
      intro n
      induction n using Nat.strong_induction_on with
      | _ n ih =>
        intro p hn hp hnext
        have hfirst := getNextPathComponentStores_bounded_iff.1 (h p hp hnext)
        rw [← allFit_stripSlash, allFit_iff]
        refine ⟨hfirst, ?_⟩
        obtain ⟨hhas, hleft⟩ := pathWalkerAdvance_rest p
        by_cases hdrop : (stripSlash p.rest).dropWhile (· ≠ slash) = []
        · rw [hdrop]
          exact allFit_nil
        · have hadvance := hhas.2 hdrop
          rw [← hleft hadvance]
          refine ih _ ?_ _ rfl (.advance hp hnext) hadvance
          rw [hleft hadvance, ← hn]
          exact length_dropWhile_stripSlash_lt hdrop
    exact hrest _ _ rfl .start rfl
  · intro h p hp
    -- what is left of a path that fits fits
    have hfit : pathWalkerHasNext p = true → AllFit p.rest := by
      induction hp with
      | start => exact fun _ => h
      | @advance p hp hnext ih =>
        intro hadvance
        rw [(pathWalkerAdvance_rest p).2 hadvance]
        exact (allFit_iff.1 (allFit_stripSlash.2 (ih hnext))).2
    intro hnext
    exact getNextPathComponentStores_bounded_iff.2 (allFit_iff.1 (allFit_stripSlash.2 (hfit hnext))).1

/-- A component of thirteen characters has its zero stored in the first byte of `component_83`. -/
theorem fitsBuffer_fails : ¬ FitsBuffer (List.replicate 13 0x41) := by
  intro h
  exact absurd (h _ .start rfl (13, 0) (by decide)) (by decide)

end RiscyOS
