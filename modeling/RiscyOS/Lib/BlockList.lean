import Mathlib.Data.List.Chain
import Mathlib.Data.List.Pairwise

/-!
# Heaps as lists of blocks

A heap managed with in-band headers is a sequence of blocks laid end to end: a header of `hdr`
bytes, a payload of `size` bytes, the next header, and so on.  This file is the theory of such
sequences, with the memory they are stored in left out: addresses are natural numbers, and a heap
is a list of `Block`s starting at some address.

Four operations rewrite the list.  `place` turns a free block into a used one, splitting off the
rest when there is room for another header; `release` clears a used flag; and `coalesce` is one
traversal that merges every run of free blocks.  What a client of the heap owns is `live`, the
payload ranges of the used blocks in address order.  The lemmas say how each operation changes
`live` and the total `span`, and that `NoAdjFree` — no two neighbours are both free — survives.
-/

set_option autoImplicit false

namespace BlockList

/-- A block: the size of its payload, and whether somebody owns it. -/
structure Block where
  size : Nat
  used : Bool
  deriving DecidableEq, Repr

variable (hdr : Nat)

/-- The bytes a sequence of blocks occupies, headers included. -/
def span : List Block → Nat
  | [] => 0
  | b :: bs => hdr + b.size + span bs

/-- The payload ranges of the used blocks, as pairs of an address and a size, for a sequence
starting at address `a`. -/
def live : Nat → List Block → List (Nat × Nat)
  | _, [] => []
  | a, b :: bs =>
    if b.used then (a + hdr, b.size) :: live (a + hdr + b.size) bs
    else live (a + hdr + b.size) bs

/-- The addresses of the headers, for a sequence starting at address `a`. -/
def headers : Nat → List Block → List Nat
  | _, [] => []
  | a, b :: bs => a :: headers (a + hdr + b.size) bs

/-- No two neighbouring blocks are both free. -/
def NoAdjFree (bs : List Block) : Prop := bs.IsChain fun b c => b.used = true ∨ c.used = true

/-- What becomes of a free block when `size` bytes of it are handed out: it is split when asked to,
and handed out whole otherwise. -/
def place (size : Nat) (split : Bool) (b : Block) : List Block :=
  if split then [⟨size, true⟩, ⟨b.size - size - hdr, false⟩] else [⟨b.size, true⟩]

/-- One traversal that merges free neighbours, with `b` the block it stands on. -/
def coalesce (b : Block) : List Block → List Block
  | [] => [b]
  | c :: bs =>
    if b.used = false ∧ c.used = false then coalesce ⟨b.size + hdr + c.size, false⟩ bs
    else b :: coalesce c bs

/-! ## Spans and live ranges -/

variable {hdr} {a : Nat} {b : Block} {bs cs : List Block}

theorem span_append : span hdr (bs ++ cs) = span hdr bs + span hdr cs := by
  induction bs with
  | nil => simp [span]
  | cons b bs ih => rw [List.cons_append, span, span, ih]; omega

theorem live_append :
    live hdr a (bs ++ cs) = live hdr a bs ++ live hdr (a + span hdr bs) cs := by
  induction bs generalizing a with
  | nil => simp [live, span]
  | cons b bs ih =>
    rw [List.cons_append, live, live, ih, span,
      show a + hdr + b.size + span hdr bs = a + (hdr + b.size + span hdr bs) by omega]
    split <;> simp

theorem headers_append :
    headers hdr a (bs ++ cs) = headers hdr a bs ++ headers hdr (a + span hdr bs) cs := by
  induction bs generalizing a with
  | nil => simp [headers, span]
  | cons b bs ih =>
    rw [List.cons_append, headers, headers, ih, span, List.cons_append,
      show a + hdr + b.size + span hdr bs = a + (hdr + b.size + span hdr bs) by omega]

/-- Headers lie inside the heap. -/
theorem headers_bounds {i : Nat} (h : i ∈ headers hdr a bs) : a ≤ i ∧ i + hdr ≤ a + span hdr bs := by
  induction bs generalizing a with
  | nil => exact absurd h List.not_mem_nil
  | cons b bs ih =>
    rw [headers, List.mem_cons] at h
    rw [span]
    rcases h with rfl | h
    · omega
    · have := ih h
      omega

/-- Another header lies before a block or behind it. -/
theorem headers_apart {pre post : List Block} {i : Nat}
    (h : i ∈ headers hdr a (pre ++ b :: post)) :
    i + hdr ≤ a + span hdr pre ∨ i = a + span hdr pre ∨ a + span hdr pre + hdr + b.size ≤ i := by
  rw [headers_append, List.mem_append, headers, List.mem_cons] at h
  rcases h with h | h | h
  · exact Or.inl (headers_bounds h).2
  · exact Or.inr (Or.inl h)
  · exact Or.inr (Or.inr (headers_bounds h).1)

/-- Every block costs at least its header, so a heap has only so many. -/
theorem length_mul_le_span (hdr : Nat) (bs : List Block) :
    bs.length * hdr ≤ span hdr bs := by
  induction bs with
  | nil => simp [span]
  | cons b bs ih => rw [List.length_cons, Nat.succ_mul, span]; omega

/-- Live ranges lie inside the heap, past the first header. -/
theorem live_bounds {q n : Nat} (h : (q, n) ∈ live hdr a bs) :
    a + hdr ≤ q ∧ q + n ≤ a + span hdr bs := by
  induction bs generalizing a with
  | nil => simp [live] at h
  | cons b bs ih =>
    rw [live] at h
    rw [span]
    split at h
    · rcases List.mem_cons.1 h with h | h
      · obtain ⟨rfl, rfl⟩ := Prod.mk.inj h
        omega
      · have := ih h
        omega
    · have := ih h
      omega

/-- **Live ranges do not overlap**: they come in address order, with a header between any two. -/
theorem live_pairwise : (live hdr a bs).Pairwise fun x y => x.1 + x.2 + hdr ≤ y.1 := by
  induction bs generalizing a with
  | nil => simp [live]
  | cons b bs ih =>
    rw [live]
    split
    · refine List.pairwise_cons.2 ⟨fun y hy => ?_, ih⟩
      obtain ⟨q, n⟩ := y
      exact (live_bounds hy).1
    · exact ih

/-- Any two live ranges are apart. -/
theorem live_disjoint {x y : Nat × Nat} (hx : x ∈ live hdr a bs) (hy : y ∈ live hdr a bs)
    (hne : x ≠ y) : x.1 + x.2 ≤ y.1 ∨ y.1 + y.2 ≤ x.1 := by
  have : Std.Symm fun x y : Nat × Nat => x.1 + x.2 ≤ y.1 ∨ y.1 + y.2 ≤ x.1 :=
    ⟨fun _ _ h => h.symm⟩
  have hor : (live hdr a bs).Pairwise fun x y => x.1 + x.2 ≤ y.1 ∨ y.1 + y.2 ≤ x.1 :=
    live_pairwise.imp fun h => Or.inl (by omega)
  exact hor.forall hx hy hne

/-- No byte of a live range lies in a header. -/
theorem live_header_apart {pre post : List Block} {q n x : Nat}
    (h : (q, n) ∈ live hdr a (pre ++ b :: post)) (hq : q ≤ x) (hn : x < q + n) :
    x < a + span hdr pre ∨ a + span hdr pre + hdr ≤ x := by
  rw [live_append, List.mem_append] at h
  rcases h with h | h
  · exact Or.inl (lt_of_lt_of_le hn (live_bounds h).2)
  · exact Or.inr ((live_bounds h).1.trans hq)

/-- A live range with a byte behind the first block is the payload of a later one. -/
theorem mem_live_tail {q n x : Nat} (h : (q, n) ∈ live hdr a (b :: bs)) (hn : x < q + n)
    (hx : a + hdr + b.size ≤ x) : (q, n) ∈ live hdr (a + hdr + b.size) bs := by
  rw [live] at h
  split at h
  · rcases List.mem_cons.1 h with heq | hmem
    · obtain ⟨rfl, rfl⟩ := Prod.mk.inj heq
      omega
    · exact hmem
  · exact h

/-- Every live range is the payload of some used block. -/
theorem exists_of_mem_live {q n : Nat} (h : (q, n) ∈ live hdr a bs) :
    ∃ pre post, bs = pre ++ ⟨n, true⟩ :: post ∧ q = a + span hdr pre + hdr := by
  induction bs generalizing a with
  | nil => simp [live] at h
  | cons b bs ih =>
    have tail (h : (q, n) ∈ live hdr (a + hdr + b.size) bs) :
        ∃ pre post, b :: bs = pre ++ ⟨n, true⟩ :: post ∧ q = a + span hdr pre + hdr := by
      obtain ⟨pre, post, hbs, hq⟩ := ih h
      refine ⟨b :: pre, post, by rw [hbs]; rfl, ?_⟩
      rw [span]
      omega
    rw [live] at h
    split at h
    · rename_i hu
      rcases List.mem_cons.1 h with h | h
      · obtain ⟨rfl, rfl⟩ := Prod.mk.inj h
        exact ⟨[], bs, by rw [← hu]; rfl, by simp [span]⟩
      · exact tail h
    · exact tail h

/-- A heap in which nothing is live and no two neighbours are free is a single free block, or
empty. -/
theorem eq_singleton_of_live_nil (hadj : NoAdjFree bs) (hlive : live hdr a bs = [])
    (hne : bs ≠ []) : ∃ n, bs = [⟨n, false⟩] := by
  have hfree : ∀ (a : Nat) (bs : List Block), live hdr a bs = [] → ∀ c ∈ bs, c.used = false := by
    intro a bs
    induction bs generalizing a with
    | nil => simp
    | cons b bs ih =>
      intro h c hc
      rw [live] at h
      split at h
      · cases h
      · rename_i hu
        rcases List.mem_cons.1 hc with rfl | hc
        · simpa using hu
        · exact ih _ h c hc
  match bs, hne with
  | [b], _ => exact ⟨b.size, by rw [← hfree a [b] hlive b (by simp)]⟩
  | b :: c :: bs, _ =>
    have h1 := hfree a _ hlive b (by simp)
    have h2 := hfree a _ hlive c (by simp)
    have := (List.isChain_cons_cons.1 hadj).1
    simp [h1, h2] at this

/-! ## Handing out a block -/

/-- Placing an allocation keeps the span, provided a split leaves room for the header. -/
theorem span_place {size : Nat} {split : Bool} (h : split = true → size + hdr ≤ b.size) :
    span hdr (place hdr size split b) = hdr + b.size := by
  cases split with
  | false => simp [place, span]
  | true =>
    have := h rfl
    simp only [place, span, if_true]
    omega

/-- Placing an allocation adds one live range, the payload of the block, and keeps the others. -/
theorem live_place (a : Nat) {size : Nat} {split : Bool} (pre post : List Block)
    (h : split = true → size + hdr ≤ b.size) (hfree : b.used = false) :
    ∃ n, live hdr a (pre ++ place hdr size split b ++ post) =
        live hdr a pre ++ (a + span hdr pre + hdr, n) ::
          live hdr (a + span hdr (pre ++ [b])) post ∧
      live hdr a (pre ++ b :: post) =
        live hdr a pre ++ live hdr (a + span hdr (pre ++ [b])) post := by
  have hspan : span hdr (pre ++ [b]) = span hdr (pre ++ place hdr size split b) := by
    rw [span_append, span_append, span_place h]
    simp [span]
  refine ⟨if split then size else b.size, ?_, ?_⟩
  · rw [live_append, hspan, live_append]
    cases split <;> simp [place, live]
  · rw [show pre ++ b :: post = (pre ++ [b]) ++ post by simp, live_append, live_append]
    simp [live, hfree]

/-- Handing out a free block leaves no two free neighbours. -/
theorem NoAdjFree.place {size : Nat} {split : Bool} {pre post : List Block}
    (h : NoAdjFree (pre ++ b :: post)) (hfree : b.used = false) :
    NoAdjFree (pre ++ place hdr size split b ++ post) := by
  rw [NoAdjFree, List.isChain_append] at h
  obtain ⟨hpre, hpost, hlink⟩ := h
  have hpost' : ∀ c ∈ post.head?, c.used = true := by
    intro c hc
    cases post with
    | nil => cases hc
    | cons d post =>
      obtain rfl : d = c := by simpa using hc
      simpa [hfree] using (List.isChain_cons_cons.1 hpost).1
  have htail := (List.isChain_cons.1 hpost).2
  rw [NoAdjFree, List.append_assoc, List.isChain_append]
  refine ⟨hpre, ?_, fun x _ y hy => ?_⟩
  · cases split with
    | false => exact List.isChain_cons.2 ⟨fun _ _ => Or.inl rfl, htail⟩
    | true =>
      refine List.isChain_cons_cons.2 ⟨Or.inl rfl, List.isChain_cons.2 ⟨fun c hc => ?_, htail⟩⟩
      exact Or.inr (hpost' c hc)
  · cases split <;> · obtain rfl := Option.some.inj hy; exact Or.inr rfl

/-! ## Giving a block back -/

/-- Clearing a used flag removes exactly that live range. -/
theorem live_release (hdr a n : Nat) (pre post : List Block) :
    live hdr a (pre ++ ⟨n, false⟩ :: post) =
        live hdr a pre ++ live hdr (a + span hdr pre + hdr + n) post ∧
      live hdr a (pre ++ ⟨n, true⟩ :: post) =
        live hdr a pre ++ (a + span hdr pre + hdr, n) ::
          live hdr (a + span hdr pre + hdr + n) post := by
  constructor <;> rw [live_append, live] <;> rfl

/-- **Merging does not move anything.**  The traversal keeps every live range where it is. -/
theorem live_coalesce : live hdr a (coalesce hdr b bs) = live hdr a (b :: bs) := by
  induction bs generalizing a b with
  | nil => rfl
  | cons c bs ih =>
    rw [coalesce]
    split
    · rename_i h
      rw [ih, live, live, live]
      simp only [h.1, h.2, Bool.false_eq_true, if_false]
      congr 1
      omega
    · rw [live, ih, ← live]

/-- The traversal starts with the block it stands on, so a used block stays first. -/
theorem head_coalesce_used (hu : b.used = true) : (coalesce hdr b bs).head? = some b := by
  cases bs with
  | nil => rfl
  | cons c bs => rw [coalesce, if_neg (by simp [hu])]; rfl

/-- **After the traversal no two neighbours are free.** -/
theorem noAdjFree_coalesce : NoAdjFree (coalesce hdr b bs) := by
  induction bs generalizing b with
  | nil => exact List.isChain_singleton _
  | cons c bs ih =>
    rw [coalesce]
    split
    · exact ih
    · rename_i h
      refine List.isChain_cons.2 ⟨fun d hd => ?_, ih⟩
      by_cases hb : b.used = true
      · exact Or.inl hb
      · have hc : c.used = true := by
          by_contra hc
          exact h ⟨by simpa using hb, by simpa using hc⟩
        rw [head_coalesce_used hc] at hd
        obtain rfl := Option.some.inj hd
        exact Or.inr hc

/-- Sizes stay multiples of `d` when the header is one. -/
theorem dvd_coalesce {d : Nat} (hd : d ∣ hdr) (h : ∀ c ∈ b :: bs, d ∣ c.size) :
    ∀ c ∈ coalesce hdr b bs, d ∣ c.size := by
  induction bs generalizing b with
  | nil => exact h
  | cons c bs ih =>
    have hb := h b (by simp)
    have hc := h c (by simp)
    have hbs : ∀ e ∈ bs, d ∣ e.size := fun e he => h e (by simp [he])
    rw [coalesce]
    split
    · exact ih (List.forall_mem_cons.2 ⟨Nat.dvd_add (Nat.dvd_add hb hd) hc, hbs⟩)
    · exact List.forall_mem_cons.2 ⟨hb, ih (List.forall_mem_cons.2 ⟨hc, hbs⟩)⟩

/-! ## Canonical form

A heap without free neighbours is determined by where it ends and what is live in it. -/

/-- Live ranges are told apart by where they start. -/
theorem live_filter_ne (hhdr : 0 < hdr) {a' : Nat} (pre post : List Block) (n : Nat)
    (ha : a + span hdr pre + hdr ≤ a') :
    (live hdr a pre ++ (a + span hdr pre + hdr, n) :: live hdr a' post).filter
        (fun r => r.1 ≠ a + span hdr pre + hdr) = live hdr a pre ++ live hdr a' post := by
  have hpre : ∀ r ∈ live hdr a pre, decide (r.1 ≠ a + span hdr pre + hdr) = true := by
    rintro ⟨q, k⟩ hr
    have := (live_bounds hr).2
    exact decide_eq_true (show q ≠ _ by omega)
  have hpost : ∀ r ∈ live hdr a' post, decide (r.1 ≠ a + span hdr pre + hdr) = true := by
    rintro ⟨q, k⟩ hr
    have := (live_bounds hr).1
    exact decide_eq_true (show q ≠ _ by omega)
  rw [List.filter_append, List.filter_cons_of_neg (by simp), List.filter_eq_self.2 hpre,
    List.filter_eq_self.2 hpost]

/-- Giving back a block takes out its range. -/
theorem live_release_filter (hhdr : 0 < hdr) (pre post : List Block) (n : Nat) :
    live hdr a (pre ++ ⟨n, false⟩ :: post) =
      (live hdr a (pre ++ ⟨n, true⟩ :: post)).filter fun r => r.1 ≠ a + span hdr pre + hdr := by
  obtain ⟨hfree, hused⟩ := live_release hdr a n pre post
  rw [hfree, hused, live_filter_ne hhdr pre post n (Nat.le_add_right _ _)]

/-- **Handing out a block and taking its range out again** leaves the ranges there were. -/
theorem live_place_filter (hhdr : 0 < hdr) (a : Nat) {size : Nat} {split : Bool}
    (pre post : List Block) (h : split = true → size + hdr ≤ b.size) (hfree : b.used = false) :
    (live hdr a (pre ++ place hdr size split b ++ post)).filter
        (fun r => r.1 ≠ a + span hdr pre + hdr) = live hdr a (pre ++ b :: post) := by
  obtain ⟨n, hnew, hold⟩ := live_place a pre post h hfree
  rw [hnew, hold, live_filter_ne hhdr pre post n]
  rw [span_append, span]
  omega

/-- A heap that starts with a free block has its first live range further on. -/
theorem live_ne_of_free (hhdr : 0 < hdr) {n : Nat} {l : List (Nat × Nat)} (hb : b.used = false)
    (h : live hdr a (b :: bs) = (a + hdr, n) :: l) : False := by
  rw [live, if_neg (by simp [hb])] at h
  have := (live_bounds (h ▸ List.mem_cons_self)).1
  omega

/-- **Without free neighbours the blocks are determined by the live ranges.** -/
theorem NoAdjFree.eq_of_live (hhdr : 0 < hdr) (hb : NoAdjFree bs) (hc : NoAdjFree cs)
    (hlive : live hdr a bs = live hdr a cs) (hspan : span hdr bs = span hdr cs) : bs = cs := by
  induction bs generalizing a cs with
  | nil =>
    rcases cs with _ | ⟨c, cs⟩
    · rfl
    · rw [span, span] at hspan
      omega
  | cons b bs ih =>
    rcases cs with _ | ⟨c, cs⟩
    · rw [span, span] at hspan
      omega
    rw [span, span] at hspan
    have htails : b = c → b :: bs = c :: cs := by
      rintro rfl
      have hlive' : live hdr (a + hdr + b.size) bs = live hdr (a + hdr + b.size) cs := by
        rw [live, live] at hlive
        split at hlive
        · exact (List.cons.inj hlive).2
        · exact hlive
      rw [ih (List.isChain_cons.1 hb).2 (List.isChain_cons.1 hc).2 hlive' (by omega)]
    refine htails ?_
    obtain ⟨n, u⟩ := b
    obtain ⟨k, v⟩ := c
    cases u <;> cases v
    · -- both are free, and what follows them is not
      rcases bs with _ | ⟨d, bs⟩
      · obtain ⟨j, hj⟩ := eq_singleton_of_live_nil hc (hlive.symm.trans rfl) (List.cons_ne_nil _ _)
        obtain rfl : cs = [] := (List.cons.inj hj).2
        simp only [span] at hspan
        rw [show n = k by omega]
      · have hd : d.used = true := ((List.isChain_cons_cons.1 hb).1).resolve_left (by simp)
        rcases cs with _ | ⟨e, cs⟩
        · rw [live, if_neg (by simp), live, if_pos hd] at hlive
          exact absurd hlive (by simp [live])
        · have he : e.used = true := ((List.isChain_cons_cons.1 hc).1).resolve_left (by simp)
          rw [live, if_neg (by simp), live, if_pos hd, live, if_neg (by simp), live, if_pos he] at hlive
          have := (Prod.mk.inj (List.cons.inj hlive).1).1
          simp only at this
          rw [show n = k by omega]
    · exact (live_ne_of_free hhdr rfl (hlive.trans (if_pos rfl))).elim
    · exact (live_ne_of_free hhdr rfl (hlive.symm.trans (if_pos rfl))).elim
    · rw [live, live, if_pos rfl, if_pos rfl] at hlive
      rw [show n = k from (Prod.mk.inj (List.cons.inj hlive).1).2]

end BlockList
