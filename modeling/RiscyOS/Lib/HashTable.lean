import Mathlib.Logic.Function.Basic

/-!
# Hash tables with chaining

Buckets of records, where new records go to the front of their bucket and a search takes the first
record with the key.  A table so searched is a map from keys to records, whatever the hash function
is (`find_add`, `find_modify`), with nothing asked of the table: a record behind another one with the
same key is just never found.
-/

set_option autoImplicit false

namespace HashTable

variable {ι κ ρ : Type} [DecidableEq κ]

/-- The hash function, and what the key of a record is. -/
structure Shape (ι κ ρ : Type) where
  hash : κ → ι
  key : ρ → κ

/-- The records, by bucket. -/
abbrev Buckets (ι ρ : Type) := ι → List ρ

/-- Change the first element with a property. -/
def modifyFirst (p : ρ → Bool) (f : ρ → ρ) : List ρ → List ρ
  | [] => []
  | r :: rs => if p r then f r :: rs else r :: modifyFirst p f rs

variable (S : Shape ι κ ρ)

/-- Search the bucket of a key. -/
def find (t : Buckets ι ρ) (k : κ) : Option ρ := (t (S.hash k)).find? fun r => S.key r = k

/-- A new record, at the front of its bucket. -/
def add [DecidableEq ι] (t : Buckets ι ρ) (r : ρ) : Buckets ι ρ :=
  Function.update t (S.hash (S.key r)) (r :: t (S.hash (S.key r)))

/-- Change the record that a search finds. -/
def modify [DecidableEq ι] (t : Buckets ι ρ) (k : κ) (f : ρ → ρ) : Buckets ι ρ :=
  Function.update t (S.hash k) (modifyFirst (fun r => S.key r = k) f (t (S.hash k)))

variable {S} {t : Buckets ι ρ} {k k' : κ} {r : ρ} {f : ρ → ρ}

@[simp] theorem find_empty : find S (fun _ => []) k = none := rfl

/-- **A record that is added is found under its key**, and nothing else changes. -/
theorem find_add [DecidableEq ι] : find S (add S t r) k = if S.key r = k then some r else find S t k := by
  rw [find, find, add]
  by_cases hhash : S.hash k = S.hash (S.key r)
  · rw [hhash, Function.update_self, List.find?_cons]
    by_cases hkey : S.key r = k
    · simp [hkey]
    · simp [hkey]
  · have hkey : S.key r ≠ k := fun h => hhash (h ▸ rfl)
    rw [Function.update_of_ne hhash, if_neg hkey]

theorem find_modifyFirst_self (l : List ρ) (hf : ∀ r, S.key r = k → S.key (f r) = k) :
    (modifyFirst (fun r => S.key r = k) f l).find? (fun r => S.key r = k) =
      (l.find? fun r => S.key r = k).map f := by
  induction l with
  | nil => rfl
  | cons r rs ih =>
    rw [modifyFirst]
    by_cases hr : S.key r = k
    · simp [hr, hf r hr]
    · simpa [hr] using ih

theorem find_modifyFirst_of_ne (l : List ρ) (hf : ∀ r, S.key r = k → S.key (f r) = k) (hne : k ≠ k') :
    (modifyFirst (fun r => S.key r = k) f l).find? (fun r => S.key r = k') =
      l.find? fun r => S.key r = k' := by
  induction l with
  | nil => rfl
  | cons r rs ih =>
    rw [modifyFirst]
    by_cases hr : S.key r = k
    · simp [hr, hf r hr, hne]
    · simp [hr, List.find?_cons, ih]

/-- **A change to a record shows under its key**, and nowhere else. -/
theorem find_modify [DecidableEq ι] (hf : ∀ r, S.key r = k → S.key (f r) = k) :
    find S (modify S t k f) k' = if k = k' then (find S t k).map f else find S t k' := by
  rw [find, find, find, modify]
  by_cases hkey : k = k'
  · subst hkey
    rw [Function.update_self, if_pos rfl]
    exact find_modifyFirst_self _ hf
  · rw [if_neg hkey]
    by_cases hhash : S.hash k' = S.hash k
    · rw [hhash, Function.update_self]
      exact find_modifyFirst_of_ne _ hf hkey
    · rw [Function.update_of_ne hhash]

/-! ## What holds of all records -/

/-- Something holds of all the records. -/
def All (t : Buckets ι ρ) (P : ρ → Prop) : Prop := ∀ i, ∀ r ∈ t i, P r

variable {P : ρ → Prop}

theorem All.find (h : All t P) (hfind : find S t k = some r) : P r :=
  h _ r (List.mem_of_find?_eq_some hfind)

omit [DecidableEq κ] in
theorem All.add [DecidableEq ι] (h : All t P) (hr : P r) : All (add S t r) P := by
  intro i q hq
  by_cases hi : i = S.hash (S.key r)
  · rw [hi, HashTable.add, Function.update_self] at hq
    rcases List.mem_cons.1 hq with rfl | hq
    · exact hr
    · exact h _ q hq
  · rw [HashTable.add, Function.update_of_ne hi] at hq
    exact h i q hq

theorem mem_modifyFirst {p : ρ → Bool} {q : ρ} {l : List ρ} (h : q ∈ modifyFirst p f l) :
    q ∈ l ∨ ∃ r ∈ l, q = f r := by
  induction l with
  | nil => exact absurd h List.not_mem_nil
  | cons r rs ih =>
    rw [modifyFirst] at h
    split at h <;> rcases List.mem_cons.1 h with rfl | h
    · exact Or.inr ⟨r, List.mem_cons_self .., rfl⟩
    · exact Or.inl (List.mem_cons_of_mem _ h)
    · exact Or.inl (List.mem_cons_self ..)
    · exact (ih h).imp (List.mem_cons_of_mem _) fun ⟨r', hr', hq⟩ => ⟨r', List.mem_cons_of_mem _ hr', hq⟩

theorem All.modify [DecidableEq ι] (h : All t P) (hf : ∀ r, P r → P (f r)) : All (modify S t k f) P := by
  intro i q hq
  by_cases hi : i = S.hash k
  · rw [hi, HashTable.modify, Function.update_self] at hq
    rcases mem_modifyFirst hq with hq | ⟨r, hr, rfl⟩
    · exact h _ q hq
    · exact hf r (h _ r hr)
  · rw [HashTable.modify, Function.update_of_ne hi] at hq
    exact h i q hq

end HashTable
