import RiscyOS.Fs.Moves

/-!
# One continuation per operation

However many operations are under way, each context in use has exactly one thing that will continue
it: a request in the scheduler's hands, or a seek made on its behalf, or, while it runs, the callback
that is due.  `FsInv` says so by counting.  A closure is counted once for every request that carries
it, once for every seek that is to call it, and once if it is at hand; and for the step functions of
opens, reads and seeks that number is the number of contexts it has, which is one or none.

Every `Move` and every `Start` keeps the count, and so do the scheduler's own events, which only take
a closure from the head of the queue and hand it over.  That is all there is to it, and it does not
depend on the card: reads may fail to start, interrupts may come for nothing, statuses may be
anything.
-/

set_option autoImplicit false

namespace RiscyOS

open Memory FsEffect

/-! ## The books -/

section Books

variable {L : Ledger BlockKind Ptr} {o : OpLog} {p : Ptr} {k : FsClosure} {es : List FsEffect}
  {cs cs' : List FsClosure}

theorem mem_contexts : k ∈ L.blocks.filterMap contextOf ↔ (.context k.1, k.2) ∈ L.blocks := by
  rw [List.mem_filterMap]
  constructor
  · rintro ⟨⟨t, p⟩, hb, hc⟩
    cases t with
    | context cb => rwa [← Option.some.inj hc]
    | request | region | file => exact absurd hc (by simp [contextOf])
  · exact fun h => ⟨_, h, rfl⟩

theorem nodup_contexts (h : L.WellFormed) : (L.blocks.filterMap contextOf).Nodup := by
  refine List.Nodup.filterMap ?_ (List.Nodup.of_map _ h)
  rintro ⟨t, p⟩ ⟨t', p'⟩ k hk hk'
  cases t with
  | context cb =>
    cases t' with
    | context cb' =>
      obtain ⟨rfl, rfl⟩ := Prod.mk.inj ((Option.some.inj hk).trans (Option.some.inj hk').symm)
      rfl
    | request | region | file => exact absurd hk' (by simp [contextOf])
  | request | region | file => exact absurd hk (by simp [contextOf])

/-- Looking at a context that is there changes nothing. -/
theorem Touches.heap (h : Touches p es) : ∀ L : Ledger BlockKind Ptr,
    (es.foldl applyHeap L).blocks = L.blocks ∧ (L.Live p → es.foldl applyHeap L = L) := by
  induction es with
  | nil => exact fun _ => ⟨rfl, fun _ => rfl⟩
  | cons e es ih =>
    intro L
    have ih := ih (fun e he => h e (List.mem_cons_of_mem _ he)) (applyHeap L e)
    rw [List.foldl_cons]
    rcases h e List.mem_cons_self with rfl | ⟨c, rfl⟩
    · refine ⟨ih.1, fun hlive => ?_⟩
      have hsame : applyHeap L (access p) = L := (L.faults_of_live hlive).2
      rw [hsame] at ih ⊢
      exact ih.2 hlive
    · exact ih

theorem Touches.ops (h : Touches p es) : ∀ o : OpLog, es.foldl OpLog.apply o = o := by
  induction es with
  | nil => exact fun _ => rfl
  | cons e es ih =>
    intro o
    rw [List.foldl_cons, ih (fun e he => h e (List.mem_cons_of_mem _ he))]
    rcases h e List.mem_cons_self with rfl | ⟨c, rfl⟩ <;> rfl

/-- The numbers of the operations: those under way have different ones, and none of them is among
the completed, which are all different too. -/
structure OpsOk (o : OpLog) (cs : List FsClosure) : Prop where
  lt : ∀ k ∈ cs, o.number k < o.count
  pending : ∀ k ∈ cs, o.number k ∉ o.completed
  inj : ∀ k ∈ cs, ∀ k' ∈ cs, o.number k = o.number k' → k = k'
  completed_lt : ∀ n ∈ o.completed, n < o.count
  once : o.completed.Nodup

theorem OpsOk.subset (h : OpsOk o cs) (hsub : cs' ⊆ cs) : OpsOk o cs' :=
  ⟨fun k hk => h.lt k (hsub hk), fun k hk => h.pending k (hsub hk),
    fun k hk k' hk' => h.inj k (hsub hk) k' (hsub hk'), h.completed_lt, h.once⟩

/-- An operation is started. -/
theorem OpsOk.alloc (h : OpsOk o cs) (hk : k ∉ cs) : OpsOk (o.apply (allocCtx k.1 k.2)) (k :: cs) := by
  have hne : ∀ k' ∈ cs, k' ≠ k := fun k' hk' heq => hk (heq ▸ hk')
  have hold : ∀ k' ∈ cs, (o.apply (allocCtx k.1 k.2)).number k' = o.number k' := fun k' hk' =>
    Function.update_of_ne (hne k' hk') _ _
  have hnew : (o.apply (allocCtx k.1 k.2)).number k = o.count := Function.update_self ..
  refine ⟨fun k' hk' => ?_, fun k' hk' => ?_, fun k₁ h₁ k₂ h₂ heq => ?_,
    fun n hn => Nat.lt_succ_of_lt (h.completed_lt n hn), h.once⟩
  · rcases List.mem_cons.1 hk' with rfl | hk'
    · rw [hnew]
      exact Nat.lt_succ_self _
    · rw [hold k' hk']
      exact Nat.lt_succ_of_lt (h.lt k' hk')
  · rcases List.mem_cons.1 hk' with rfl | hk'
    · rw [hnew]
      exact fun hc => lt_irrefl _ (h.completed_lt _ hc)
    · rw [hold k' hk']
      exact h.pending k' hk'
  · rcases List.mem_cons.1 h₁ with e₁ | m₁ <;> rcases List.mem_cons.1 h₂ with e₂ | m₂
    · rw [e₁, e₂]
    · rw [e₁, hnew, hold k₂ m₂] at heq
      exact absurd (h.lt k₂ m₂) (by omega)
    · rw [e₂, hnew, hold k₁ m₁] at heq
      exact absurd (h.lt k₁ m₁) (by omega)
    · rw [hold k₁ m₁, hold k₂ m₂] at heq
      exact h.inj k₁ m₁ k₂ m₂ heq

/-- An operation completes. -/
theorem OpsOk.complete (h : OpsOk o cs) (hk : k ∈ cs) (hsub : cs' ⊆ cs) (hk' : k ∉ cs') :
    OpsOk (o.apply (.complete k)) cs' := by
  refine ⟨fun j hj => h.lt j (hsub hj), fun j hj hc => ?_, (h.subset hsub).inj, fun n hn => ?_, ?_⟩
  · rcases List.mem_append.1 hc with hc | hc
    · exact h.pending j (hsub hj) hc
    · exact hk' (h.inj j (hsub hj) k hk (List.mem_singleton.1 hc) ▸ hj)
  · rcases List.mem_append.1 hn with hn | hn
    · exact h.completed_lt n hn
    · exact List.mem_singleton.1 hn ▸ h.lt k hk
  · refine List.nodup_append.2 ⟨h.once, List.nodup_singleton _, fun n hn m hm heq => ?_⟩
    exact h.pending k hk (List.mem_singleton.1 hm ▸ heq ▸ hn)

end Books

/-! ## The invariant -/

/-- Whoever is no operation is not counted. -/
theorem count_eq_zero_of_not_isOp {c x : FsClosure} (hc : c.1.isOp = false) (hx : x.1.isOp) :
    [c].count x = 0 := by
  refine List.count_eq_zero_of_not_mem fun hmem => ?_
  rw [List.mem_singleton.1 hmem, hc] at hx
  exact absurd hx Bool.false_ne_true

/-- The seeks made on behalf of others, by whom they are to call. -/
def FsSys.callers (s : FsSys) : List FsClosure := s.contexts.filterMap (caller s.world)

/-- **The invariant**, with `rs` the closures in the scheduler's hands and `ds` those at hand. -/
structure FsInv (loader : Prop) (s : FsSys) (rs ds : List FsClosure) : Prop where
  sched : SchedHolds s.io rs
  heap : s.heap.WellFormed
  held : ∀ r ∈ s.io.held, (.request, r) ∈ s.heap.blocks
  ctxOk : ∀ k ∈ s.contexts, CtxOk loader s.world k
  one : ∀ k : FsClosure, k.1.isOp →
    ds.count k + rs.count k + s.callers.count k = s.contexts.count k
  requests : ∀ k ∈ rs, k.1.isOp
  atHand : ∀ k ∈ ds, k.1.isOp ∨ k.1 = .client
  ops : OpsOk s.ops s.contexts

/-- The closures that are due. -/
def FsSys.dues (s : FsSys) : List FsClosure := s.due.toList.map Prod.fst

/-- The closures an action hands on. -/
def closuresOf : FsAction → List FsClosure
  | .post _ k => [k]
  | .call k _ => [k]
  | .stop => []

section Inv

variable {loader : Prop} {info : FsRunningInfo} {getNextCluster : Sector → Word → Word}
  {disk : Word → Sector} {s s' : FsSys} {rs ds : List FsClosure} {k : FsClosure} {a : Supply}

/-- A closure of an operation that is at hand has its context. -/
theorem FsInv.mem_contexts_of_atHand (h : FsInv loader s rs ds) (hk : k ∈ ds) (hop : k.1.isOp) :
    k ∈ s.contexts := by
  have hone := h.one k hop
  have hpos := List.count_pos_iff.2 hk
  exact List.count_pos_iff.1 (by omega)

theorem contexts_live (hk : k ∈ s.contexts) : s.heap.Live k.2 :=
  Ledger.live_of_mem (mem_contexts.1 hk)

/-- What `kmalloc` hands out is the address of no context. -/
theorem not_mem_contexts (hp : ¬ s.heap.Live k.2) : k ∉ s.contexts :=
  fun hk => hp (contexts_live hk)

/-- Reads behind the scheduler's back are none of its business. -/
theorem stray_sched (l : List Word) : ∀ io : IoState FsCallback Sector,
    (l.foldl ioStray io).gIoSched = io.gIoSched ∧ (l.foldl ioStray io).req = io.req ∧
      (l.foldl ioStray io).held = io.held ∧ (l.foldl ioStray io).pump = io.pump := by
  induction l with
  | nil => exact fun _ => ⟨rfl, rfl, rfl, rfl⟩
  | cons lba l ih =>
    intro io
    obtain ⟨hsched, hreq, hheld, hpump⟩ := ih (ioStray io lba)
    exact ⟨hsched, hreq, hheld, hpump⟩

theorem SchedHolds.strays (h : SchedHolds s.io rs) (l : List Word) :
    SchedHolds (l.foldl ioStray s.io) rs := by
  obtain ⟨hsched, hreq, hheld, hpump⟩ := stray_sched l s.io
  exact h.congr hsched hreq hheld fun r hr => hpump ▸ hr

/-- The callers after the operations `own` have run, if those of them that are in use keep theirs. -/
theorem callers_of_frame {w' : FsWorld} {own : List FsClosure} {cs : List FsClosure}
    (hf : Frame s.world w' own) (hown : ∀ k ∈ cs, k ∈ own → caller w' k = caller s.world k) :
    cs.filterMap (caller w') = cs.filterMap (caller s.world) := by
  refine List.filterMap_congr fun k hk => ?_
  by_cases hk' : k ∈ own
  · exact hown k hk hk'
  · exact hf.caller_eq hk'

/-! ## Effects -/

variable {w' : FsWorld} {l l' : List FsEffect} {ds' : List FsClosure}

theorem book_heap : (s.book info w' l).heap = l.foldl applyHeap s.heap := rfl

theorem book_ops : (s.book info w' l).ops = l.foldl OpLog.apply s.ops := rfl

theorem book_held : (s.book info w' l).io.held = s.io.held := (stray_sched _ s.io).2.2.1

theorem book_contexts {bs : List (BlockKind × Ptr)}
    (h : (l.foldl applyHeap s.heap).blocks = bs) :
    (s.book info w' l).contexts = bs.filterMap contextOf :=
  congrArg (List.filterMap contextOf) h

theorem book_append (w₁ : FsWorld) :
    s.book info w' (l ++ l') = (s.book info w₁ l).book info w' l' := by
  simp only [FsSys.book, List.filterMap_append, List.foldl_append, List.append_assoc]

/-- A context that is there is looked at, and keeps its caller. -/
theorem FsInv.touch (h : FsInv loader s rs ds) (hk : k ∈ s.contexts) (ht : Touches k.2 l)
    (hf : Frame s.world w' [k]) (hok : CtxOk loader w' k) (hc : caller w' k = caller s.world k) :
    FsInv loader (s.book info w' l) rs ds := by
  have hheap : l.foldl applyHeap s.heap = s.heap := (ht.heap s.heap).2 (contexts_live hk)
  have hctx : (s.book info w' l).contexts = s.contexts := book_contexts (congrArg _ hheap)
  have hcallers : (s.book info w' l).callers = s.callers := by
    rw [FsSys.callers, hctx]
    exact callers_of_frame hf fun j _ hj => List.mem_singleton.1 hj ▸ hc
  refine ⟨h.sched.strays _, ?_, ?_, fun j hj => ?_, ?_, h.requests, h.atHand, ?_⟩
  · rw [book_heap, hheap]
    exact h.heap
  · rw [book_held, book_heap, hheap]
    exact h.held
  · rw [hctx] at hj
    by_cases hjk : j = k
    · exact hjk ▸ hok
    · exact hf.ctxOk (fun hc => hjk (List.mem_singleton.1 hc)) (h.ctxOk j hj)
  · rw [hctx, hcallers]
    exact h.one
  · rw [hctx, book_ops, ht.ops]
    exact h.ops

/-- A new context `j`, with the others in use left alone. -/
theorem FsInv.alloc {p : Ptr} {j : FsClosure} (h : FsInv loader s rs ds) (ht : Touches p l)
    (ht' : Touches j.2 l') (hj : ¬ s.heap.Live j.2)
    (hsame : ∀ i ∈ s.contexts, CtxOk loader w' i ∧ caller w' i = caller s.world i)
    (hok : CtxOk loader w' j)
    (hone : ∀ x : FsClosure, x.1.isOp →
      ds'.count x + (caller w' j).toList.count x = ds.count x + [j].count x)
    (hhand : ∀ x ∈ ds', x.1.isOp ∨ x.1 = .client) :
    FsInv loader (s.book info w' (l ++ allocCtx j.1 j.2 :: l')) rs ds' := by
  have hblocks : ((l ++ allocCtx j.1 j.2 :: l').foldl applyHeap s.heap).blocks =
      (.context j.1, j.2) :: s.heap.blocks := by
    rw [List.foldl_append, List.foldl_cons, (ht'.heap _).1]
    exact congrArg _ (ht.heap s.heap).1
  have hctx : (s.book info w' (l ++ allocCtx j.1 j.2 :: l')).contexts = j :: s.contexts :=
    book_contexts hblocks
  have hcallers : (s.book info w' (l ++ allocCtx j.1 j.2 :: l')).callers =
      (caller w' j).toList ++ s.callers := by
    have hrest : s.contexts.filterMap (caller w') = s.callers :=
      List.filterMap_congr fun i hi => (hsame i hi).2
    rw [FsSys.callers, hctx, ← hrest]
    change (j :: s.contexts).filterMap (caller w') = _
    rw [List.filterMap_cons]
    cases caller w' j <;> rfl
  refine ⟨h.sched.strays _, ?_, fun r hr => ?_, fun i hi => ?_, fun x hx => ?_, h.requests, hhand, ?_⟩
  · rw [Ledger.WellFormed, book_heap, hblocks]
    exact List.nodup_cons.2 ⟨hj, h.heap⟩
  · rw [book_held] at hr
    rw [book_heap, hblocks]
    exact List.mem_cons_of_mem _ (h.held r hr)
  · rw [hctx] at hi
    rcases List.mem_cons.1 hi with rfl | hi
    · exact hok
    · exact (hsame i hi).1
  · have hcount := hone x hx
    have hold := h.one x hx
    rw [hctx, hcallers, List.count_append, List.count_cons]
    rw [List.count_cons, List.count_nil] at hcount
    omega
  · rw [hctx, book_ops, List.foldl_append, List.foldl_cons, ht.ops, ht'.ops]
    exact h.ops.alloc (not_mem_contexts hj)

/-- What follows the release of a context changes nothing any more, but for the callback. -/
theorem Closing.heap (hclose : Closing k l') (L : Ledger BlockKind Ptr) :
    (l'.foldl applyHeap (L.apply (.free k.2))).blocks = (L.apply (.free k.2)).blocks := by
  cases hclose with
  | clean => rfl
  | silent => rfl
  | twice =>
    simp only [List.foldl_cons, List.foldl_nil, applyHeap, Ledger.apply, List.filter_filter,
      Bool.and_self]

theorem Closing.ops (hclose : Closing k l') {o : OpLog} {cs cs' : List FsClosure} (h : OpsOk o cs)
    (hk : k ∈ cs) (hsub : cs' ⊆ cs) (hk' : k ∉ cs') : OpsOk (l'.foldl OpLog.apply o) cs' := by
  cases hclose with
  | clean => exact h.complete hk hsub hk'
  | silent => exact h.subset hsub
  | twice => exact h.complete hk hsub hk'

/-- **The context of an operation is released**, and with it what it was to call comes to hand. -/
theorem FsInv.release (h : FsInv loader s rs [k]) (hk : k ∈ s.contexts) (ht : Touches k.2 l)
    (hf : Frame s.world w' [k]) (hclose : Closing k l')
    (hone : ∀ x : FsClosure, x.1.isOp → ds'.count x = (caller s.world k).toList.count x)
    (hhand : ∀ x ∈ ds', x.1.isOp ∨ x.1 = .client) :
    FsInv loader (s.book info w' (l ++ free k.2 :: l')) rs ds' := by
  have hmem : ((.context k.1, k.2) : BlockKind × Ptr) ∈ s.heap.blocks := mem_contexts.1 hk
  have hblocks : ((l ++ free k.2 :: l').foldl applyHeap s.heap).blocks =
      (s.heap.apply (.free k.2)).blocks := by
    rw [List.foldl_append, (ht.heap s.heap).2 (contexts_live hk), List.foldl_cons]
    exact hclose.heap s.heap
  have hctx : (s.book info w' (l ++ free k.2 :: l')).contexts =
      (s.heap.apply (.free k.2)).blocks.filterMap contextOf := book_contexts hblocks
  -- the context is the one that goes
  have hperm : s.contexts.Perm (k :: (s.book info w' (l ++ free k.2 :: l')).contexts) := by
    rw [hctx]
    exact (h.heap.perm_free hmem).filterMap contextOf
  have hnotMem : k ∉ (s.book info w' (l ++ free k.2 :: l')).contexts :=
    (List.nodup_cons.1 (hperm.nodup_iff.1 (nodup_contexts h.heap))).1
  have hsub : (s.book info w' (l ++ free k.2 :: l')).contexts ⊆ s.contexts := fun j hj =>
    hperm.mem_iff.2 (List.mem_cons_of_mem _ hj)
  have hne : ∀ j ∈ (s.book info w' (l ++ free k.2 :: l')).contexts, j ∉ [k] := fun j hj hc =>
    hnotMem (List.mem_singleton.1 hc ▸ hj)
  have hcallers : s.callers.Perm
      ((caller s.world k).toList ++ (s.book info w' (l ++ free k.2 :: l')).callers) := by
    have hrest : (s.book info w' (l ++ free k.2 :: l')).callers =
        (s.book info w' (l ++ free k.2 :: l')).contexts.filterMap (caller s.world) :=
      List.filterMap_congr fun j hj => hf.caller_eq (hne j hj)
    have hall := hperm.filterMap (caller s.world)
    rw [List.filterMap_cons] at hall
    rw [hrest]
    cases hck : caller s.world k with
    | none => rw [hck] at hall; exact hall
    | some c => rw [hck] at hall; exact hall
  refine ⟨h.sched.strays _, ?_, fun r hr => ?_, fun j hj => ?_, fun x hx => ?_, h.requests, hhand, ?_⟩
  · rw [Ledger.WellFormed, book_heap, hblocks]
    exact h.heap.free
  · rw [book_held] at hr
    rw [book_heap, hblocks, Ledger.mem_free]
    refine ⟨h.held r hr, fun heq => ?_⟩
    exact absurd (h.heap.eq_of_snd_eq (h.held r hr) hmem heq) (by simp)
  · exact hf.ctxOk (hne j hj) (h.ctxOk j (hsub hj))
  · have hold := h.one x hx
    rw [hperm.count_eq, hcallers.count_eq, List.count_cons, List.count_append, List.count_cons,
      List.count_nil] at hold
    rw [hone x hx]
    omega
  · rw [book_ops, List.foldl_append, ht.ops, List.foldl_cons]
    exact hclose.ops h.ops hk hsub hnotMem

/-! ## Moves and starts -/

/-- **Every move keeps the invariant**, unless it goes on to a loader. -/
theorem FsInv.move {es : List FsEffect} {act : FsAction} (h : FsInv loader s rs [k])
    (hop : k.1.isOp) (hfresh : a.Fresh s) (hm : Move loader (a.stock s.world) w' k es act)
    (helf : ∀ c status, act = .call c status → c.1 ≠ .elfStep) :
    FsInv loader (s.book info w' es) rs (closuresOf act) := by
  have hk : k ∈ s.contexts := h.mem_contexts_of_atHand List.mem_cons_self hop
  cases hm with
  | again ht hf hok hc => exact h.touch hk ht ⟨hf.opens, hf.reads, hf.seeks⟩ hok hc
  | retry ht hf hok hc => exact h.touch hk ht ⟨hf.opens, hf.reads, hf.seeks⟩ hok hc
  | @delegate l l' j lba ht ht' hj hopj hf hok hc hok' hc' =>
    have hlive : ¬ s.heap.Live j.2 := by
      rw [hj]
      exact (hfresh.2 a.ctx (by simp [Supply.addresses])).2
    have hframe : Frame s.world w' [k, j] := ⟨hf.opens, hf.reads, hf.seeks⟩
    refine h.alloc ht ht' hlive (fun i hi => ?_) hok' (fun x _ => ?_) ?_
    · by_cases hik : i = k
      · exact hik ▸ ⟨hok, hc⟩
      · have hij : i ≠ j := fun heq => not_mem_contexts hlive (heq ▸ hi)
        have hnot : i ∉ [k, j] := by simp [hik, hij]
        exact ⟨hframe.ctxOk hnot (h.ctxOk i hi), hframe.caller_eq hnot⟩
    · rw [hc', closuresOf]
      exact Nat.add_comm _ _
    · exact fun x hx => Or.inl (List.mem_singleton.1 hx ▸ hopj)
  | @finish l l' c status ht hf hclose hc hkind =>
    refine h.release hk ht ⟨hf.opens, hf.reads, hf.seeks⟩ hclose (fun x hx => ?_) fun x hx => ?_
    · have hiff : caller s.world k = some x ↔ c = x := hc x hx
      rw [closuresOf]
      by_cases hcx : c = x
      · rw [hiff.2 hcx, hcx]
        rfl
      · have hnot : x ∉ (caller s.world k).toList := fun hmem =>
          hcx (hiff.1 (Option.mem_toList.1 hmem))
        rw [List.count_eq_zero_of_not_mem hnot,
          List.count_eq_zero_of_not_mem fun hmem => hcx (List.mem_singleton.1 hmem).symm]
    · obtain rfl := List.mem_singleton.1 hx
      rcases hkind with hc | hc | ⟨-, hc, -⟩
      · exact Or.inl hc
      · exact Or.inr hc
      · exact absurd hc (helf x status rfl)
  | quit ht hf hclose hc =>
    refine h.release hk ht ⟨hf.opens, hf.reads, hf.seeks⟩ hclose (fun x _ => ?_) (by simp [closuresOf])
    rw [show caller s.world k = none from hc]
    rfl

/-- Blocks that hold no context come and go. -/
theorem FsInv.other (h : FsInv loader s rs ds) (hf : Frame s.world w' [])
    (hheap : (l.foldl applyHeap s.heap).WellFormed)
    (hheld : ∀ r ∈ s.io.held, (.request, r) ∈ (l.foldl applyHeap s.heap).blocks)
    (hctx : (l.foldl applyHeap s.heap).blocks.filterMap contextOf = s.contexts)
    (hops : l.foldl OpLog.apply s.ops = s.ops) (hone : ∀ x : FsClosure, x.1.isOp → ds'.count x = ds.count x)
    (hhand : ∀ x ∈ ds', x.1.isOp ∨ x.1 = .client) :
    FsInv loader (s.book info w' l) rs ds' := by
  have hctx' : (s.book info w' l).contexts = s.contexts := hctx
  have hcallers : (s.book info w' l).callers = s.callers := by
    rw [FsSys.callers, hctx']
    exact callers_of_frame hf fun _ _ hj => absurd hj List.not_mem_nil
  refine ⟨h.sched.strays _, hheap, ?_, fun j hj => ?_, fun x hx => ?_, h.requests, hhand, ?_⟩
  · rw [book_held]
    exact hheld
  · exact hf.ctxOk List.not_mem_nil (h.ctxOk j (hctx' ▸ hj))
  · rw [hctx', hcallers, hone x hx]
    exact h.one x hx
  · rw [hctx', book_ops, hops]
    exact h.ops

/-- A block that holds no context is released. -/
theorem FsInv.contexts_free {b : BlockKind × Ptr} (h : FsInv loader s rs ds) (hb : b ∈ s.heap.blocks)
    (hnone : contextOf b = none) :
    (s.heap.apply (.free b.2)).blocks.filterMap contextOf = s.contexts := by
  rw [FsSys.contexts, Ledger.apply]
  refine (List.filterMap_filter ..).trans (List.filterMap_congr fun c hc => ?_)
  by_cases heq : c.2 = b.2
  · rw [h.heap.eq_of_snd_eq hc hb heq, if_neg (by simp), hnone]
  · rw [if_pos (by simpa using heq)]

/-- A program is loaded: the loader's context comes first, which nothing here is to continue, and then
that of the open. -/
theorem FsInv.load (h : FsInv loader s rs []) (hfresh : a.Fresh s)
    (hf : Frame (a.stock s.world) w' [(.fsOpenStep, a.ctx₂)])
    (hok : CtxOk loader w' (.fsOpenStep, a.ctx₂)) :
    FsInv loader (s.book info w' ([allocCtx .elfStep a.ctx, access a.ctx] ++
      [allocCtx .fsOpenStep a.ctx₂, access a.ctx₂])) rs [(.fsOpenStep, a.ctx₂)] := by
  have hctx : ¬ s.heap.Live a.ctx := (hfresh.2 a.ctx (by simp [Supply.addresses])).2
  have hnil : ∀ p, Touches p [] := fun p _ he => absurd he List.not_mem_nil
  have hframe : Frame s.world w' [(.fsOpenStep, a.ctx₂)] := ⟨hf.opens, hf.reads, hf.seeks⟩
  have h₁ : FsInv loader (s.book info s.world [allocCtx .elfStep a.ctx, access a.ctx]) rs [] := by
    refine h.alloc (j := (.elfStep, a.ctx)) (l := []) (hnil a.ctx) touches_access hctx
      (fun i hi => ⟨h.ctxOk i hi, rfl⟩) trivial (fun x hx => ?_) (by simp)
    rw [count_eq_zero_of_not_isOp rfl hx]
    rfl
  have hlive : ¬ (s.book info s.world [allocCtx .elfStep a.ctx, access a.ctx]).heap.Live a.ctx₂ := by
    intro hc
    have hne : a.ctx₂ ≠ a.ctx := fun heq => by
      have hnd := hfresh.1
      simp [Supply.addresses, heq] at hnd
    rcases List.mem_cons.1 hc with heq | hc
    · exact hne heq
    · exact (hfresh.2 a.ctx₂ (by simp [Supply.addresses])).2 hc
  rw [book_append s.world]
  refine h₁.alloc (j := (.fsOpenStep, a.ctx₂)) (l := []) (hnil a.ctx) touches_access hlive
    (fun i hi => ?_) hok (fun x _ => (Nat.zero_add _).symm) fun x hx => Or.inl (List.mem_singleton.1 hx ▸ rfl)
  have hnot : i ∉ [(FsCallback.fsOpenStep, a.ctx₂)] := fun hc =>
    not_mem_contexts hlive (List.mem_singleton.1 hc ▸ hi)
  exact ⟨hframe.ctxOk hnot (h₁.ctxOk i hi), hframe.caller_eq hnot⟩

/-- **Every start keeps the invariant.** -/
theorem FsInv.start {op : FsOp} {es : List FsEffect} {act : FsAction} (h : FsInv loader s rs [])
    (hfresh : a.Fresh s) (hallowed : op.Allowed s)
    (hm : Start loader op (a.stock s.world) w' es act) :
    FsInv loader (s.book info w' es) rs (closuresOf act) := by
  have hctx : ¬ s.heap.Live a.ctx := (hfresh.2 a.ctx (by simp [Supply.addresses])).2
  cases hm with
  | @posted l k lba ht hk hopk hf hok hc =>
    have hlive : ¬ s.heap.Live k.2 := by
      rw [hk]
      exact hctx
    have hframe : Frame s.world w' [k] := ⟨hf.opens, hf.reads, hf.seeks⟩
    have hnil : Touches k.2 [] := fun _ he => absurd he List.not_mem_nil
    refine h.alloc (l := []) hnil ht hlive (fun i hi => ?_) hok (fun x hx => ?_) ?_
    · have hnot : i ∉ [k] := fun hc => not_mem_contexts hlive (List.mem_singleton.1 hc ▸ hi)
      exact ⟨hframe.ctxOk hnot (h.ctxOk i hi), hframe.caller_eq hnot⟩
    · have hnot : x ∉ (caller w' k).toList := fun hmem => by
        rw [hc x (Option.mem_toList.1 hmem)] at hx
        exact absurd hx Bool.false_ne_true
      rw [List.count_eq_zero_of_not_mem hnot, List.count_nil, Nat.zero_add]
      rfl
    · exact fun x hx => Or.inl (List.mem_singleton.1 hx ▸ hopk)
  | @called c status hf hc =>
    refine h.other ⟨hf.opens, hf.reads, hf.seeks⟩ h.heap h.held rfl rfl (fun x hx => ?_) fun x hx => ?_
    · exact count_eq_zero_of_not_isOp (by rw [hc]; rfl) hx
    · exact Or.inr (List.mem_singleton.1 hx ▸ hc)
  | made hf =>
    refine h.other ⟨hf.opens, hf.reads, hf.seeks⟩ (h.heap.alloc hctx) (fun r hr => ?_) rfl rfl
      (fun x _ => rfl) (by simp [closuresOf])
    exact List.mem_cons_of_mem _ (h.held r hr)
  | @closed file ctx c status hop hf hc =>
    have hfile : ((.file, file) : BlockKind × Ptr) ∈ s.heap.blocks := by
      rw [hop] at hallowed
      exact hallowed
    refine h.other ⟨hf.opens, hf.reads, hf.seeks⟩ h.heap.free (fun r hr => ?_)
      (h.contexts_free hfile rfl) rfl (fun x hx => ?_) fun x hx => ?_
    · refine Ledger.mem_free.2 ⟨h.held r hr, fun heq => ?_⟩
      exact absurd (h.heap.eq_of_snd_eq (h.held r hr) hfile heq) (by simp)
    · exact count_eq_zero_of_not_isOp (by rw [hc]; rfl) hx
    · exact Or.inr (List.mem_singleton.1 hx ▸ hc)
  | @loaded lba hl hf hok => exact h.load hfresh hf hok

/-! ## Events -/

/-- **A read is submitted**: the closure goes into the scheduler's hands. -/
theorem FsInv.post {lba : Word} {req : Ptr} {resp : SdResponse} {io : IoState FsCallback Sector}
    (h : FsInv loader s rs [k]) (hop : k.1.isOp) (hreq : ¬ s.heap.Live req)
    (hs : sdStep disk (.submit req lba k.1 k.2 resp) s.io = some io) :
    FsInv loader { s with io := io, heap := s.heap.apply (.alloc .request req) } (rs ++ [k]) [] := by
  rw [sdStep, Option.ite_none_right_eq_some] at hs
  obtain ⟨⟨-, hnull, hfresh⟩, hs⟩ := hs
  obtain rfl := Option.some.inj hs
  refine ⟨h.sched.post hnull hfresh, h.heap.alloc hreq, fun r hr => ?_, h.ctxOk, fun x hx => ?_,
    fun x hx => ?_, by simp, h.ops⟩
  · rw [ioPostWith_held] at hr
    rcases List.mem_cons.1 hr with rfl | hr
    · exact List.mem_cons_self
    · exact List.mem_cons_of_mem _ (h.held r hr)
  · have hold := h.one x hx
    change [].count x + (rs ++ [k]).count x + s.callers.count x = s.contexts.count x
    rw [List.count_append, List.count_nil]
    omega
  · rcases List.mem_append.1 hx with hx | hx
    · exact h.requests x hx
    · exact List.mem_singleton.1 hx ▸ hop

/-- **A function has run to its end.** -/
theorem FsInv.act {act : FsAction} {req : Ptr} {resp : SdResponse}
    (h : FsInv loader s rs (closuresOf act)) (hdue : s.due = none)
    (hop : ∀ lba k, act = .post lba k → k.1.isOp) (hreq : ¬ s.heap.Live req)
    (hs : s.act disk req resp act = some s') : ∃ rs', FsInv loader s' rs' s'.dues := by
  cases act with
  | post lba k =>
    rw [FsSys.act, Option.map_eq_some_iff] at hs
    obtain ⟨io, hio, rfl⟩ := hs
    refine ⟨rs ++ [k], ?_⟩
    rw [show ({ s with io := io, heap := s.heap.apply (.alloc .request req) } : FsSys).dues = [] by
      rw [FsSys.dues, hdue]; rfl]
    exact h.post (hop lba k rfl) hreq hio
  | call k status =>
    obtain rfl := Option.some.inj hs
    exact ⟨rs, h.sched, h.heap, h.held, h.ctxOk, h.one, h.requests, h.atHand, h.ops⟩
  | stop =>
    obtain rfl := Option.some.inj hs
    rw [FsSys.dues, hdue]
    exact ⟨rs, h⟩

/-- What the card does is not seen. -/
theorem FsInv.card {io : IoState FsCallback Sector} (h : FsInv loader s rs ds)
    (hsched : SchedHolds io rs) (hheld : io.held = s.io.held) :
    FsInv loader { s with io := io } rs ds :=
  ⟨hsched, h.heap, fun r hr => h.held r (hheld ▸ hr), h.ctxOk, h.one, h.requests, h.atHand, h.ops⟩

/-- A client is called, and whatever it does is for other events to say. -/
theorem FsInv.client (h : FsInv loader s rs [k]) (hk : k.1 = .client) (hf : Frame s.world w' []) :
    FsInv loader (s.book info w' []) rs [] := by
  refine h.other hf h.heap h.held rfl rfl (fun x hx => ?_) (by simp)
  exact (count_eq_zero_of_not_isOp (by rw [hk]; rfl) hx).symm

/-- **The pump answers a request**: its closure comes to hand. -/
theorem FsInv.test {status : Int} (h : FsInv loader s rs [])
    (hne : s.io.gSdIrqRing.head ≠ s.io.gSdIrqRing.tail) (hflight : s.io.gIoSched.inFlight ≠ null) :
    ∃ rs', FsInv loader { s with
      io := ioSchedPumpTest s.io
      due := some ((s.io.req s.io.gIoSched.inFlight).closure, status) } rs'
        [(s.io.req s.io.gIoSched.inFlight).closure] := by
  obtain ⟨rs', rfl, hsched⟩ := h.sched.test hne hflight
  refine ⟨rs', hsched, h.heap, fun r hr => h.held r ?_, h.ctxOk, fun x hx => ?_,
    fun x hx => h.requests x (List.mem_cons_of_mem _ hx), fun x hx => Or.inl ?_, h.ops⟩
  · rwa [ioSchedPumpTest, if_pos hne] at hr
  · have hold := h.one x hx
    change [_].count x + rs'.count x + s.callers.count x = s.contexts.count x
    rw [List.count_nil, List.count_cons] at hold
    rw [List.count_cons, List.count_nil]
    omega
  · exact h.requests x (List.mem_singleton.1 hx ▸ List.mem_cons_self)

/-- The request whose callback runs is a block of the heap. -/
theorem FsInv.request_mem {r : Ptr} (h : FsInv loader s rs ds) (hpump : s.io.pump = .callback r) :
    (.request, r) ∈ s.heap.blocks := by
  obtain ⟨q, hshape, -⟩ := h.sched
  exact h.held r (hshape.running r hpump).1

/-- **The callback returns**, and the pump frees the request. -/
theorem FsInv.ret {r : Ptr} {resp : SdResponse} (h : FsInv loader s rs ds)
    (hpump : s.io.pump = .callback r) :
    FsInv loader { s with
      io := ioSchedPumpReturnWith resp r s.io
      heap := s.heap.apply (.free r) } rs ds := by
  have hmem := h.request_mem hpump
  have hctx : (s.heap.apply (.free r)).blocks.filterMap contextOf = s.contexts :=
    h.contexts_free hmem rfl
  refine ⟨h.sched.ret hpump, h.heap.free, fun r' hr' => ?_, fun j hj => ?_, fun x hx => ?_, h.requests,
    h.atHand, ?_⟩
  · rw [ioSchedPumpReturnWith_held, List.mem_filter, decide_eq_true_eq] at hr'
    exact Ledger.mem_free.2 ⟨h.held r' hr'.1, hr'.2⟩
  · exact h.ctxOk j (hctx ▸ hj)
  · change ds.count x + rs.count x +
      ((s.heap.apply (.free r)).blocks.filterMap contextOf |>.filterMap (caller s.world)).count x =
        ((s.heap.apply (.free r)).blocks.filterMap contextOf).count x
    rw [hctx]
    exact h.one x hx
  · change OpsOk s.ops ((s.heap.apply (.free r)).blocks.filterMap contextOf)
    rw [hctx]
    exact h.ops

/-! ## Every event -/

/-- What is in use afterwards was in use before or has been allocated. -/
theorem live_foldl {p : Ptr} : ∀ (es : List FsEffect) (L : Ledger BlockKind Ptr),
    (es.foldl applyHeap L).Live p → L.Live p ∨ ∃ t, .heap (.alloc t p) ∈ es
  | [], _, h => Or.inl h
  | e :: es, L, h => by
    rcases live_foldl es (applyHeap L e) h with h | ⟨t, ht⟩
    · cases e with
      | heap op =>
        cases op with
        | alloc t q =>
          rcases List.mem_cons.1 h with rfl | h
          · exact Or.inr ⟨t, List.mem_cons_self⟩
          · exact Or.inl h
        | free q => exact Or.inl (List.map_subset _ (List.filter_subset_self _) h)
        | access q => exact Or.inl h
      | complete j => exact Or.inl h
      | fatLba c => exact Or.inl h
    · exact Or.inr ⟨t, List.mem_cons_of_mem _ ht⟩

theorem Touches.not_alloc {p q : Ptr} {t : BlockKind} (ht : Touches q l) :
    .heap (.alloc t p) ∉ l := by
  intro hmem
  rcases ht _ hmem with h | ⟨c, h⟩ <;> exact absurd h (by simp)

theorem Closing.not_alloc {p : Ptr} {t : BlockKind} (hclose : Closing k l) :
    .heap (.alloc t p) ∉ l := by
  cases hclose <;> simp

/-- A move allocates one context at most, and submits only operations. -/
theorem Move.alloc_mem {w : FsWorld} {es : List FsEffect} {act : FsAction} {p : Ptr} {t : BlockKind}
    (hm : Move loader w w' k es act) (hmem : .heap (.alloc t p) ∈ es) : p = w.kmallocs 0 := by
  cases hm with
  | again ht | retry ht => exact absurd hmem ht.not_alloc
  | @delegate l l' j lba ht ht' hj =>
    rcases List.mem_append.1 hmem with hmem | hmem
    · exact absurd hmem ht.not_alloc
    · rcases List.mem_cons.1 hmem with heq | hmem
      · injection heq with heq
        injection heq with _ heq
        exact heq.trans hj
      · exact absurd hmem ht'.not_alloc
  | finish ht _ hclose | quit ht _ hclose =>
    rcases List.mem_append.1 hmem with hmem | hmem
    · exact absurd hmem ht.not_alloc
    · rcases List.mem_cons.1 hmem with heq | hmem
      · exact absurd heq (by simp)
      · exact absurd hmem hclose.not_alloc

theorem Move.post_isOp {w : FsWorld} {es : List FsEffect} {lba : Word} {j : FsClosure}
    (hop : k.1.isOp) (hm : Move loader w w' k es (.post lba j)) : j.1.isOp := by
  cases hm with
  | again => exact hop
  | delegate _ _ _ hopj => exact hopj

/-- A start allocates two contexts at most, and submits only operations. -/
theorem Start.alloc_mem {w : FsWorld} {op : FsOp} {es : List FsEffect} {act : FsAction} {p : Ptr}
    {t : BlockKind} (hm : Start loader op w w' es act) (hmem : .heap (.alloc t p) ∈ es) :
    p = w.kmallocs 0 ∨ p = w.kmallocs 1 := by
  cases hm with
  | posted ht hk =>
    rcases List.mem_cons.1 hmem with heq | hmem
    · injection heq with heq
      injection heq with _ heq
      exact Or.inl (heq.trans hk)
    · exact absurd hmem ht.not_alloc
  | called => exact absurd hmem List.not_mem_nil
  | made =>
    have hmem' : t = .file ∧ p = w.kmallocs 0 := by simpa using hmem
    exact Or.inl hmem'.2
  | closed => exact absurd hmem (by simp)
  | loaded =>
    have hmem' : (t = .context .elfStep ∧ p = w.kmallocs 0) ∨
        (t = .context .fsOpenStep ∧ p = w.kmallocs 1) := by simpa using hmem
    exact hmem'.imp And.right And.right

theorem Start.post_isOp {w : FsWorld} {op : FsOp} {es : List FsEffect} {lba : Word} {j : FsClosure}
    (hm : Start loader op w w' es (.post lba j)) : j.1.isOp := by
  cases hm with
  | posted _ _ hop => exact hop
  | loaded => rfl

/-- The request is somewhere else than the contexts. -/
theorem Supply.Fresh.req_ne (hfresh : a.Fresh s) :
    ¬ (a.req = (a.stock s.world).kmallocs 0 ∨ a.req = (a.stock s.world).kmallocs 1) := by
  have hnd := hfresh.1
  simp only [Supply.addresses, List.nodup_cons, List.mem_cons, List.not_mem_nil, or_false] at hnd
  rintro (heq | heq)
  · exact hnd.1 (Or.inr (Or.inr heq.symm))
  · exact hnd.2.1 (Or.inr heq.symm)

/-- Nothing is there either after functions that allocate only the contexts. -/
theorem Supply.Fresh.req_not_live {es : List FsEffect} (hfresh : a.Fresh s)
    (halloc : ∀ t p, .heap (.alloc t p) ∈ es →
      p = (a.stock s.world).kmallocs 0 ∨ p = (a.stock s.world).kmallocs 1) :
    ¬ (es.foldl applyHeap s.heap).Live a.req := by
  intro hlive
  rcases live_foldl _ _ hlive with hlive | ⟨t, hmem⟩
  · exact (hfresh.2 a.req (by simp [Supply.addresses])).2 hlive
  · exact hfresh.req_ne (halloc t a.req hmem)

/-- The event does not have a loader called. -/
def NoLoaderCalled (info : FsRunningInfo) (getNextCluster : Sector → Word → Word) (e : FsEvent)
    (s : FsSys) : Prop :=
  ∀ run, e.code info getNextCluster s = some run → ∀ c status, run.1.2 = .call c status →
    c.1 ≠ .elfStep

/-- A client starts an operation. -/
theorem FsInv.step_start {op : FsOp} {r1 : Word} {resp : SdResponse} (h : FsInv loader s rs s.dues)
    (hload : ∀ path pcb, op = .load path pcb → loader)
    (hs : fsStep info getNextCluster disk (.start op a r1 resp) s = some s') :
    ∃ rs', FsInv loader s' rs' s'.dues := by
  rw [fsStep, Option.ite_none_right_eq_some] at hs
  obtain ⟨⟨hdue, -, hallowed, hfresh⟩, hs⟩ := hs
  rw [FsSys.dues, hdue] at h
  have hm := @fsOp_start loader (info.driver getNextCluster r1) (a.stock s.world) op
    fun ⟨path, pcb, heq⟩ => hload path pcb heq
  refine (h.start hfresh hallowed hm).act rfl (fun lba j hact => ?_) (fun hlive => ?_) hs
  · exact Start.post_isOp (hact ▸ hm)
  · exact hfresh.req_not_live (fun t p hmem => hm.alloc_mem hmem) hlive

/-- The callback that is due is called. -/
theorem FsInv.step_call {r1 : Word} {resp : SdResponse} (h : FsInv loader s rs s.dues)
    (helf : NoLoaderCalled info getNextCluster (.call a r1 resp) s)
    (hs : fsStep info getNextCluster disk (.call a r1 resp) s = some s') :
    ∃ rs', FsInv loader s' rs' s'.dues := by
  rw [fsStep, Option.ite_none_right_eq_some] at hs
  obtain ⟨hfresh, hs⟩ := hs
  cases hdue : s.due with
  | none =>
    rw [FsEvent.code, hdue] at hs
    exact absurd hs (by simp)
  | some kst =>
    obtain ⟨k, status⟩ := kst
    rw [FsSys.dues, hdue] at h
    have hcode : (FsEvent.call a r1 resp).code info getNextCluster s =
        some (fsCode (info.driver getNextCluster r1) s.buffer k status (a.stock s.world),
          fsCodeEffects (info.driver getNextCluster r1) s.buffer k status (a.stock s.world)) := by
      rw [FsEvent.code, hdue]
      rfl
    rw [hcode] at hs
    rcases h.atHand k List.mem_cons_self with hop | hclient
    · have hk := h.mem_contexts_of_atHand List.mem_cons_self hop
      have hm := @fsCode_move loader (info.driver getNextCluster r1) s.buffer (a.stock s.world)
        status k hop (h.ctxOk k hk)
      refine (h.move hop hfresh hm fun c st hact => helf _ hcode c st hact).act rfl
        (fun lba j hact => ?_) (fun hlive => ?_) hs
      · exact Move.post_isOp hop (hact ▸ hm)
      · exact hfresh.req_not_live (fun t p hmem => Or.inl (hm.alloc_mem hmem)) hlive
    · obtain ⟨cb, ctx⟩ := k
      obtain rfl : cb = .client := hclient
      obtain rfl := Option.some.inj hs
      exact ⟨rs, h.client rfl ⟨fun _ _ => rfl, fun _ _ => rfl, fun _ _ => rfl⟩⟩

/-- **Every event keeps the invariant.** -/
theorem FsInv.step {e : FsEvent} (h : FsInv loader s rs s.dues)
    (hload : ∀ path pcb a r1 resp, e = .start (.load path pcb) a r1 resp → loader)
    (helf : NoLoaderCalled info getNextCluster e s)
    (hs : fsStep info getNextCluster disk e s = some s') : ∃ rs', FsInv loader s' rs' s'.dues := by
  cases e with
  | start op a r1 resp =>
    exact h.step_start (fun path pcb heq => hload path pcb a r1 resp (heq ▸ rfl)) hs
  | call a r1 resp => exact h.step_call helf hs
  | irq =>
    rw [fsStep, Option.map_eq_some_iff] at hs
    obtain ⟨io, hio, rfl⟩ := hs
    obtain ⟨hsched, hheld⟩ := h.sched.irq hio
    exact ⟨rs, h.card hsched hheld⟩
  | spurious =>
    rw [fsStep, Option.map_eq_some_iff] at hs
    obtain ⟨io, hio, rfl⟩ := hs
    obtain ⟨hsched, hheld⟩ := h.sched.spurious hio
    exact ⟨rs, h.card hsched hheld⟩
  | pump =>
    rw [fsStep, Option.ite_none_right_eq_some, Option.map_eq_some_iff] at hs
    obtain ⟨-, io, hio, rfl⟩ := hs
    rw [sdStep, ioStep, Option.ite_none_right_eq_some] at hio
    obtain rfl := Option.some.inj hio.2
    exact ⟨rs, h.card (h.sched.move ne_callback_loop) rfl⟩
  | test status =>
    rw [fsStep, Option.ite_none_right_eq_some] at hs
    obtain ⟨⟨hdue, hloop⟩, hs⟩ := hs
    by_cases hring : s.io.gSdIrqRing.head = s.io.gSdIrqRing.tail
    · rw [if_pos hring] at hs
      obtain rfl := Option.some.inj hs
      rw [ioSchedPumpTest, if_neg (not_not.2 hring)]
      exact ⟨rs, h.card (h.sched.move ne_callback_outside) rfl⟩
    · rw [if_neg hring, Option.ite_none_left_eq_some] at hs
      obtain ⟨hflight, hs⟩ := hs
      obtain rfl := Option.some.inj hs
      rw [FsSys.dues, hdue] at h
      exact h.test hring hflight
  | ret resp =>
    rw [fsStep] at hs
    split at hs
    · rename_i r hpump
      rw [Option.ite_none_right_eq_some, Option.map_eq_some_iff] at hs
      obtain ⟨-, io, hio, rfl⟩ := hs
      rw [sdStep, hpump] at hio
      obtain rfl := Option.some.inj hio
      exact ⟨rs, h.ret hpump⟩
    · exact absurd hs (by simp)
    · exact absurd hs (by simp)

/-- **The initial state.** -/
theorem FsInv.init (loader : Prop) (w : FsWorld) (ring : IrqRing) (req : Ptr → IoReq FsCallback)
    (rx : Option Sector) : FsInv loader (FsSys.init w ring req rx) [] [] :=
  ⟨.init ring req rx, List.nodup_nil, nofun, nofun, fun _ _ => rfl, nofun, nofun,
    ⟨nofun, nofun, nofun, nofun, List.nodup_nil⟩⟩

/-- The functions that are run are those of clients, operations, or nobody. -/
theorem FsInv.code_cases {e : FsEvent} {run : (FsWorld × FsAction) × List FsEffect}
    (h : FsInv loader s rs s.dues)
    (hload : ∀ path pcb a r1 resp, e = .start (.load path pcb) a r1 resp → loader)
    (hcode : e.code info getNextCluster s = some run) :
    (∃ op a r1 resp, e = .start op a r1 resp ∧
        Start loader op (a.stock s.world) run.1.1 run.2 run.1.2) ∨
      (∃ a r1 resp k status, e = .call a r1 resp ∧ s.due = some (k, status) ∧ k ∈ s.contexts ∧
        k.1.isOp ∧ run.2 = fsCodeEffects (info.driver getNextCluster r1) s.buffer k status (a.stock s.world) ∧
        Move loader (a.stock s.world) run.1.1 k run.2 run.1.2) ∨
      (∃ a r1 resp ctx status, e = .call a r1 resp ∧ s.due = some ((.client, ctx), status) ∧
        run = ((a.stock s.world, .stop), [])) := by
  cases e with
  | start op a r1 resp =>
    obtain rfl := Option.some.inj hcode
    exact Or.inl ⟨op, a, r1, resp, rfl,
      fsOp_start op fun ⟨path, pcb, heq⟩ => hload path pcb a r1 resp (heq ▸ rfl)⟩
  | call a r1 resp =>
    rw [FsEvent.code, Option.map_eq_some_iff] at hcode
    obtain ⟨⟨k, status⟩, hdue, rfl⟩ := hcode
    rw [FsSys.dues, hdue] at h
    rcases h.atHand k List.mem_cons_self with hop | hclient
    · have hk := h.mem_contexts_of_atHand List.mem_cons_self hop
      exact Or.inr (Or.inl ⟨a, r1, resp, k, status, rfl, hdue, hk, hop, rfl,
        fsCode_move hop (h.ctxOk k hk)⟩)
    · obtain ⟨cb, ctx⟩ := k
      obtain rfl : cb = .client := hclient
      exact Or.inr (Or.inr ⟨a, r1, resp, ctx, status, rfl, hdue, rfl⟩)
  | irq | spurious | pump | test | ret => exact absurd hcode (by simp [FsEvent.code])

end Inv

end RiscyOS
