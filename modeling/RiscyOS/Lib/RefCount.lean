import Mathlib.Data.List.Nodup
import Mathlib.Data.List.Perm.Basic
import Mathlib.Logic.Function.Basic

/-!
# Reference counts

An object with several holders is given back when the last of them lets go, and nobody asks the holders:
the object carries a count.  `Counts` is that, with 0 for an object that is not there and a list of what
has been given back.

What makes a count right is that it is the number of holders, and this file is about one holder at a time.
`holders_change` says what the number does when one of them changes, and `Counts.exchange` that letting go
of all it held, with the objects it holds now made before, leaves the counts right and gives back exactly
the objects that nobody holds any more.  `Counts.enter` is the other event: a new holder comes in.
-/

set_option autoImplicit false

variable {α β : Type*}

/-- How many of `l` hold `r`. -/
def holders (l : List β) (holds : α → β → Bool) (r : α) : Nat := l.countP (holds r)

section Holders

variable {l : List β} {holds holds' : α → β → Bool} {a : β} {r : α}

/-- **One holder changes.** -/
theorem holders_change [DecidableEq β] (hl : l.Nodup) (ha : a ∈ l)
    (hsame : ∀ x ∈ l, x ≠ a → holds' r x = holds r x) :
    holders l holds' r + (holds r a).toNat = holders l holds r + (holds' r a).toNat := by
  have hperm := List.perm_cons_erase ha
  have hrest : (l.erase a).countP (holds' r) = (l.erase a).countP (holds r) := by
    refine List.countP_congr fun x hx => ?_
    obtain ⟨hne, hx⟩ := (List.Nodup.mem_erase_iff hl).1 hx
    rw [hsame x hx hne]
  rw [holders, holders, hperm.countP_eq, hperm.countP_eq, List.countP_cons, List.countP_cons, hrest]
  cases holds r a <;> cases holds' r a <;> simp

theorem holders_congr (hsame : ∀ x ∈ l, holds' r x = holds r x) :
    holders l holds' r = holders l holds r :=
  List.countP_congr fun x hx => by rw [hsame x hx]

/-- **A holder comes in.** -/
theorem holders_cons (hsame : ∀ x ∈ l, holds' r x = holds r x) :
    holders (a :: l) holds' r = holders l holds r + (holds' r a).toNat := by
  have hrest := holders_congr hsame
  rw [holders] at hrest
  rw [holders, List.countP_cons, hrest]
  cases holds' r a <;> rfl

theorem holders_le_length (l : List β) (holds : α → β → Bool) (r : α) : holders l holds r ≤ l.length :=
  List.countP_le_length

/-- An object that is held has a holder to count. -/
theorem holders_pos (ha : a ∈ l) (hr : holds r a = true) : 0 < holders l holds r :=
  List.countP_pos_iff.2 ⟨a, ha, hr⟩

end Holders

/-- The count of each object, and what has been given back. -/
@[ext] structure Counts (α : Type*) where
  count : α → Nat
  freed : List α

namespace Counts

variable [DecidableEq α] {c : Counts α} {r x : α} {rs : List α}

/-- One more holder. -/
def acquire (c : Counts α) (r : α) : Counts α :=
  { c with count := Function.update c.count r (c.count r + 1) }

/-- One holder fewer, and with the last the object is given back. -/
def release (c : Counts α) (r : α) : Counts α where
  count := Function.update c.count r (c.count r - 1)
  freed := if c.count r = 1 then r :: c.freed else c.freed

def acquireAll (c : Counts α) (rs : List α) : Counts α := rs.foldl acquire c

def releaseAll (c : Counts α) (rs : List α) : Counts α := rs.foldl release c

theorem acquire_count_of_ne (h : x ≠ r) : (c.acquire r).count x = c.count x :=
  Function.update_of_ne h _ _

theorem acquire_count_self : (c.acquire r).count r = c.count r + 1 := Function.update_self _ _ _

theorem acquireAll_freed : (c.acquireAll rs).freed = c.freed := by
  induction rs generalizing c with
  | nil => rfl
  | cons r rs ih => exact ih

theorem acquireAll_append (rs' : List α) :
    c.acquireAll (rs ++ rs') = (c.acquireAll rs).acquireAll rs' := List.foldl_append

theorem acquireAll_count (h : rs.Nodup) :
    (c.acquireAll rs).count x = c.count x + if x ∈ rs then 1 else 0 := by
  induction rs generalizing c with
  | nil => rfl
  | cons r rs ih =>
    obtain ⟨hr, hrs⟩ := List.nodup_cons.1 h
    rw [acquireAll, List.foldl_cons, ← acquireAll, ih hrs]
    by_cases hx : x = r
    · subst hx
      rw [if_neg hr, if_pos List.mem_cons_self, acquire_count_self]
    · rw [acquire_count_of_ne hx]
      simp only [List.mem_cons, hx, false_or]

theorem release_count_of_ne (h : x ≠ r) : (c.release r).count x = c.count x :=
  Function.update_of_ne h _ _

theorem release_count_self : (c.release r).count r = c.count r - 1 := Function.update_self _ _ _

/-- Who takes an object and gives it back at once changes nothing, as long as somebody else holds it. -/
theorem release_acquire (h : 0 < c.count r) : (c.acquire r).release r = c := by
  have hne : c.count r + 1 ≠ 1 := by omega
  ext x
  · by_cases hx : x = r
    · subst hx
      rw [release_count_self, acquire_count_self, Nat.add_sub_cancel]
    · rw [release_count_of_ne hx, acquire_count_of_ne hx]
  · rw [release, acquire_count_self, if_neg hne]
    rfl

theorem releaseAll_count (h : rs.Nodup) :
    (c.releaseAll rs).count x = if x ∈ rs then c.count x - 1 else c.count x := by
  induction rs generalizing c with
  | nil => rfl
  | cons r rs ih =>
    obtain ⟨hr, hrs⟩ := List.nodup_cons.1 h
    rw [releaseAll, List.foldl_cons, ← releaseAll, ih hrs]
    by_cases hx : x = r
    · subst hx
      rw [if_neg hr, if_pos List.mem_cons_self, release_count_self]
    · rw [release_count_of_ne hx]
      simp only [List.mem_cons, hx, false_or]

/-- What is given back is what was at its last holder. -/
theorem mem_releaseAll_freed (h : rs.Nodup) :
    x ∈ (c.releaseAll rs).freed ↔ x ∈ c.freed ∨ x ∈ rs ∧ c.count x = 1 := by
  induction rs generalizing c with
  | nil => simp [releaseAll]
  | cons r rs ih =>
    obtain ⟨hr, hrs⟩ := List.nodup_cons.1 h
    rw [releaseAll, List.foldl_cons, ← releaseAll, ih hrs]
    by_cases hx : x = r
    · subst hx
      by_cases hone : c.count x = 1 <;> simp [release, hone, hr]
    · rw [release_count_of_ne hx]
      by_cases hone : c.count r = 1 <;> simp [release, hone, hx]

/-- Nothing is given back twice. -/
theorem nodup_releaseAll_freed (h : rs.Nodup) (hc : c.freed.Nodup) (hdisj : ∀ r ∈ rs, r ∉ c.freed) :
    (c.releaseAll rs).freed.Nodup := by
  induction rs generalizing c with
  | nil => exact hc
  | cons r rs ih =>
    obtain ⟨hr, hrs⟩ := List.nodup_cons.1 h
    rw [releaseAll, List.foldl_cons, ← releaseAll]
    by_cases hone : c.count r = 1
    · have hfreed : (c.release r).freed = r :: c.freed := if_pos hone
      refine ih hrs ?_ fun x hx => ?_
      · rw [hfreed]
        exact List.nodup_cons.2 ⟨hdisj r List.mem_cons_self, hc⟩
      · rw [hfreed, List.mem_cons]
        rintro (rfl | hmem)
        · exact hr hx
        · exact hdisj x (List.mem_cons_of_mem _ hx) hmem
    · have hfreed : (c.release r).freed = c.freed := if_neg hone
      refine ih hrs (hfreed ▸ hc) fun x hx => ?_
      rw [hfreed]
      exact hdisj x (List.mem_cons_of_mem _ hx)

section Exchange

variable {l : List β} {holds holds' : α → β → Bool} {a : β} {new : List α}

/-- **A holder comes in** with what it holds acquired for it, and the counts stay right. -/
theorem enter (hsame : ∀ r, ∀ x ∈ l, holds' r x = holds r x) (hcount : ∀ r, c.count r = holders l holds r)
    (hrs : rs.Nodup) (hold : ∀ r, r ∈ rs ↔ holds' r a = true) (r : α) :
    (c.acquireAll rs).count r = holders (a :: l) holds' r := by
  rw [acquireAll_count hrs, holders_cons (hsame r), hcount]
  simp only [hold]
  cases holds' r a <;> rfl

/-- **A holder exchanges what it holds.**  With the new objects made, one count each, it lets go of the
old ones.  Then every count is the number of holders, and given back is what had a holder and has none. -/
theorem exchange [DecidableEq β] (hl : l.Nodup) (ha : a ∈ l)
    (hsame : ∀ r, ∀ x ∈ l, x ≠ a → holds' r x = holds r x) (hnew : ∀ r, holds' r a = decide (r ∈ new))
    (hfresh : ∀ r ∈ new, holders l holds r = 0)
    (hcount : ∀ r, c.count r = holders l holds r + if r ∈ new then 1 else 0) (hrs : rs.Nodup)
    (hold : ∀ r, r ∈ rs ↔ holds r a = true) :
    (∀ r, (c.releaseAll rs).count r = holders l holds' r) ∧
      ∀ r, r ∈ (c.releaseAll rs).freed ↔
        r ∈ c.freed ∨ 0 < holders l holds r ∧ holders l holds' r = 0 := by
  have hchange := fun r => holders_change hl ha (hsame r)
  have hin : ∀ r ∈ rs, r ∉ new ∧ holders l holds' r + 1 = holders l holds r := by
    intro r hr
    have hheld := (hold r).1 hr
    have hnot : r ∉ new := fun hmem => absurd (hfresh r hmem) (Nat.ne_of_gt (holders_pos ha hheld))
    have h := hchange r
    rw [hheld, hnew, decide_eq_false hnot] at h
    exact ⟨hnot, h⟩
  have hout : ∀ r, r ∉ rs → holders l holds' r = c.count r := by
    intro r hr
    have hnot : holds r a = false := by rwa [← Bool.not_eq_true, ← hold]
    have h := hchange r
    rw [hnot, hnew] at h
    rw [hcount]
    by_cases hmem : r ∈ new <;> simpa [hmem] using h
  constructor
  · intro r
    rw [releaseAll_count hrs]
    by_cases hr : r ∈ rs
    · obtain ⟨hnot, hone⟩ := hin r hr
      rw [if_pos hr, hcount, if_neg hnot, ← hone]
      rfl
    · rw [if_neg hr, hout r hr]
  · intro r
    rw [mem_releaseAll_freed hrs]
    refine or_congr_right ?_
    by_cases hr : r ∈ rs
    · obtain ⟨hnot, hone⟩ := hin r hr
      rw [hcount, if_neg hnot]
      simp only [hr, true_and]
      omega
    · have h := hout r hr
      rw [hcount] at h
      simp only [hr, false_and, false_iff]
      omega

end Exchange

end Counts
