import Mathlib.Order.Bounds.Basic
import RiscyOS.Fs.Directory

/-!
# Names that begin with `0xE5`

A directory entry whose first byte is `0xE5` is free, so a name that really begins with that character is
stored with `0x05` in its place.  `fs_open_step` takes the first byte of the stored name back to what it
stands for, in `name0`, and then compares the bytes as they are stored: `name0` is not used.  So a name
that begins with `0xE5` is never found, and one that begins with `0x05` is found where another is meant.
`honoursEscape_iff` says that this is all there is to it.
-/

set_option autoImplicit false

namespace RiscyOS

open Memory

/-! ## What is meant -/

/-- The name an entry stands for: a stored first byte `0x05` is read as `0xE5`. -/
def DirEntry.realName (e : DirEntry) : List Byte :=
  match e.name with
  | [] => []
  | b :: rest => (if b = 0x05 then 0xE5 else b) :: rest

/-- Entry `i` of the sector counts: it is in use, and the directory does not end before it or at it. -/
structure Listed (s : Sector) (i : Nat) : Prop where
  lt : i < entriesPerSector
  not_isLast : ∀ j ≤ i, ¬ (dirEntry s j).IsLast
  inUse : (dirEntry s i).InUse

/-- Entry `i` counts, and has the name, by what `nameOf` takes for the name of an entry. -/
def Qualifies (nameOf : DirEntry → List Byte) (s : Sector) (component83 : List Byte) (i : Nat) : Prop :=
  Listed s i ∧ nameOf (dirEntry s i) = component83

/-! ## What is selected -/

/-- The loop over the entries of a sector once more, for the number of the entry it ends at with a match. -/
def matchIndex (s : Sector) (component83 : List Byte) : Nat → Nat → Option Nat
  | 0, _ => none
  | n + 1, i =>
    if s (32 * i) = 0 then none
    else if s (32 * i) = 0xE5 then matchIndex s component83 n (i + 1)
    else if (dirEntry s i).attr &&& 0x0F = 0x0F then matchIndex s component83 n (i + 1)
    else if (dirEntry s i).name ≠ component83 then matchIndex s component83 n (i + 1)
    else some i

/-- It is the same loop. -/
theorem scanDir_found_iff {s : Sector} {component83 : List Byte} {e : DirEntry} {n i : Nat} :
    scanDir s component83 n i = .found e ↔
      ∃ k, matchIndex s component83 n i = some k ∧ dirEntry s k = e := by
  induction n generalizing i with
  | zero => simp [scanDir, matchIndex]
  | succ n ih =>
    rw [scanDir, matchIndex]
    by_cases hlast : s (32 * i) = 0
    · rw [if_pos hlast, if_pos hlast]
      simp
    rw [if_neg hlast, if_neg hlast]
    by_cases hfree : s (32 * i) = 0xE5
    · rw [if_pos hfree, if_pos hfree, ih]
    rw [if_neg hfree, if_neg hfree]
    by_cases hlfn : (dirEntry s i).attr &&& 0x0F = 0x0F
    · rw [if_pos hlfn, if_pos hlfn, ih]
    rw [if_neg hlfn, if_neg hlfn]
    by_cases hname : (dirEntry s i).name ≠ component83
    · rw [if_pos hname, if_pos hname, ih]
    · rw [if_neg hname, if_neg hname]
      constructor
      · exact fun h => ⟨i, rfl, DirScan.found.inj h⟩
      · rintro ⟨k, hk, rfl⟩
        rw [← Option.some.inj hk]

/-- One turn of the loop: it ends, or stops here, or goes on. -/
theorem matchIndex_succ (s : Sector) (component83 : List Byte) (n i : Nat) :
    matchIndex s component83 (n + 1) i =
      if (dirEntry s i).IsLast then none
      else if (dirEntry s i).InUse ∧ (dirEntry s i).name = component83 then some i
      else matchIndex s component83 n (i + 1) := by
  rw [matchIndex]
  by_cases hlast : s (32 * i) = 0
  · rw [if_pos hlast, if_pos (dirEntry_isLast.2 hlast)]
  rw [if_neg hlast, if_neg (mt dirEntry_isLast.1 hlast)]
  by_cases hfree : s (32 * i) = 0xE5
  · rw [if_pos hfree, if_neg fun h => (dirEntry_inUse.1 h.1).1 hfree]
  rw [if_neg hfree]
  by_cases hlfn : (dirEntry s i).attr &&& 0x0F = 0x0F
  · rw [if_pos hlfn, if_neg fun h => (dirEntry_inUse.1 h.1).2 hlfn]
  rw [if_neg hlfn]
  by_cases hname : (dirEntry s i).name = component83
  · rw [if_neg (not_not.2 hname), if_pos ⟨dirEntry_inUse.2 ⟨hfree, hlfn⟩, hname⟩]
  · rw [if_pos hname, if_neg fun h => hname h.2]

/-- From entry `i` on, with the directory not ended before it, the loop finds the first that qualifies. -/
theorem matchIndex_eq_some_iff {s : Sector} {component83 : List Byte} {n i k : Nat}
    (hn : i + n = entriesPerSector) (hi : ∀ j < i, ¬ (dirEntry s j).IsLast) :
    matchIndex s component83 n i = some k ↔
      i ≤ k ∧ Qualifies DirEntry.name s component83 k ∧
        ∀ j, i ≤ j → Qualifies DirEntry.name s component83 j → k ≤ j := by
  induction n generalizing i with
  | zero =>
    refine iff_of_false nofun fun h => ?_
    have := h.2.1.1.lt
    omega
  | succ n ih =>
    rw [matchIndex_succ]
    by_cases hlast : (dirEntry s i).IsLast
    · rw [if_pos hlast]
      exact iff_of_false nofun fun h => h.2.1.1.not_isLast i h.1 hlast
    rw [if_neg hlast]
    have hle : ∀ j ≤ i, ¬ (dirEntry s j).IsLast := fun j hj =>
      (Nat.eq_or_lt_of_le hj).elim (fun h => h ▸ hlast) (hi j)
    by_cases hmatch : (dirEntry s i).InUse ∧ (dirEntry s i).name = component83
    · have hhere : Qualifies DirEntry.name s component83 i := ⟨⟨by omega, hle, hmatch.1⟩, hmatch.2⟩
      rw [if_pos hmatch, Option.some.injEq]
      constructor
      · rintro rfl
        exact ⟨le_rfl, hhere, fun j hij _ => hij⟩
      · exact fun h => le_antisymm h.1 (h.2.2 i le_rfl hhere)
    · -- what is first from here on is first from the next entry on
      have hnot : ∀ j, Qualifies DirEntry.name s component83 j → j ≠ i := by
        rintro j hj rfl
        exact hmatch ⟨hj.1.inUse, hj.2⟩
      rw [if_neg hmatch, ih (by omega) fun j hj => hle j (by omega)]
      constructor
      · rintro ⟨hik, hk, hmin⟩
        refine ⟨by omega, hk, fun j hij hj => hmin j ?_ hj⟩
        have := hnot j hj
        omega
      · rintro ⟨hik, hk, hmin⟩
        refine ⟨?_, hk, fun j hij hj => hmin j (by omega) hj⟩
        have := hnot k hk
        omega

/-- **The loop selects the first entry that counts and has the name as it is stored.** -/
theorem matchIndex_isLeast {s : Sector} {component83 : List Byte} {k : Nat} :
    matchIndex s component83 entriesPerSector 0 = some k ↔
      IsLeast {i | Qualifies DirEntry.name s component83 i} k := by
  rw [matchIndex_eq_some_iff (Nat.zero_add _) nofun]
  constructor
  · exact fun h => ⟨h.2.1, fun j hj => h.2.2 j (Nat.zero_le j) hj⟩
  · exact fun h => ⟨Nat.zero_le k, h.1, fun j _ hj => h.2 hj⟩

/-! ## The escape -/

/-- The escape is honoured: what is selected is the first entry that counts and stands for the name. -/
def HonoursEscape (s : Sector) (component83 : List Byte) : Prop :=
  ∀ k, matchIndex s component83 entriesPerSector 0 = some k ↔
    IsLeast {i | Qualifies DirEntry.realName s component83 i} k

theorem dirEntry_name_eq_cons (s : Sector) (i : Nat) :
    (dirEntry s i).name = s (32 * i) :: (dirEntry s i).name.tail := rfl

theorem dirEntry_realName (s : Sector) (i : Nat) :
    (dirEntry s i).realName =
      (if s (32 * i) = 0x05 then 0xE5 else s (32 * i)) :: (dirEntry s i).name.tail := rfl

/-- Then no entry that counts is stored under `0x05` and the rest of a component that begins with `0x05`
or `0xE5`. -/
theorem HonoursEscape.name_ne {s : Sector} {component83 : List Byte} (h : HonoursEscape s component83)
    (hhead : component83.head? = some 0x05 ∨ component83.head? = some 0xE5) {i : Nat} (hi : Listed s i) :
    (dirEntry s i).name ≠ 0x05 :: component83.tail := by
  intro hname
  obtain ⟨b, rest, rfl⟩ : ∃ b rest, component83 = b :: rest := by
    cases component83 with
    | nil => exact hhead.elim nofun nofun
    | cons b rest => exact ⟨b, rest, rfl⟩
  have hfirst : s (32 * i) = 0x05 := (List.cons.inj hname).1
  rcases hhead with hb | hb <;> obtain rfl := Option.some.inj hb
  · -- an entry stored under the component is found, and none stands for it
    obtain ⟨k, hk⟩ : ∃ k, IsLeast {i | Qualifies DirEntry.name s (0x05 :: rest) i} k := by
      classical
      exact ⟨_, Nat.isLeast_find ⟨i, hi, hname⟩⟩
    have hreal := (h k).1 (matchIndex_isLeast.2 hk)
    have heq := (List.cons.inj ((dirEntry_realName s k).symm.trans hreal.1.2)).1
    split at heq
    · exact absurd heq (by decide)
    · rename_i hne
      exact hne heq
  · -- an entry stands for the component, and what is stored under it is free
    obtain ⟨k, hk⟩ : ∃ k, IsLeast {i | Qualifies DirEntry.realName s (0xE5 :: rest) i} k := by
      classical
      refine ⟨_, Nat.isLeast_find ⟨i, hi, ?_⟩⟩
      rw [dirEntry_realName, if_pos hfirst, hname]
      rfl
    have hstored := matchIndex_isLeast.1 ((h k).2 hk)
    exact (dirEntry_inUse.1 hstored.1.1.inUse).1 (List.cons.inj hstored.1.2).1

/-- **When the escape is honoured.**  For every sector and component: the entry selected is the one meant
if and only if the component begins with neither `0x05` nor `0xE5`, or no entry that counts is stored under
`0x05` and the rest of the component. -/
theorem honoursEscape_iff (s : Sector) (component83 : List Byte) :
    HonoursEscape s component83 ↔
      (component83.head? = some 0x05 ∨ component83.head? = some 0xE5 →
        ∀ i, Listed s i → (dirEntry s i).name ≠ 0x05 :: component83.tail) := by
  constructor
  · exact fun h hhead i hi => h.name_ne hhead hi
  · intro h k
    have hsame : ∀ i, Qualifies DirEntry.name s component83 i ↔
        Qualifies DirEntry.realName s component83 i := by
      refine fun i => and_congr_right fun hi => ?_
      by_cases hfirst : s (32 * i) = 0x05
      · refine iff_of_false (fun hname => ?_) (fun hname => ?_)
        · rw [← hname] at h
          exact h (Or.inl (by rw [dirEntry_name_eq_cons, hfirst]; rfl)) i hi
            (by rw [dirEntry_name_eq_cons, hfirst]; rfl)
        · rw [dirEntry_realName, if_pos hfirst] at hname
          rw [← hname] at h
          exact h (Or.inr rfl) i hi (by rw [dirEntry_name_eq_cons, hfirst]; rfl)
      · rw [dirEntry_realName, if_neg hfirst, ← dirEntry_name_eq_cons]
    rw [matchIndex_isLeast]
    exact iff_of_eq (congrArg (IsLeast · k) (Set.ext hsame))

/-- A directory with one file, whose name is `0xE5` and `A`: stored with `0x05` in the place of `0xE5`. -/
def escapedSector : Sector :=
  sectorOf ([0x05, 0x41] ++ List.replicate 9 0x20 ++ [0x20] ++ List.replicate 14 0 ++ [3, 0, 9, 0, 0, 0])

/-- It is not found. -/
theorem escape_not_honoured : ¬ HonoursEscape escapedSector (makeFat83Name [0xE5, 0x41]) := by
  refine fun h => h.name_ne (by decide) (i := 0) ⟨by decide, ?_, by decide⟩ (by decide)
  intro j hj
  obtain rfl := Nat.le_zero.1 hj
  decide

end RiscyOS
