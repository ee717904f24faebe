import RiscyOS.Lib.Riscv
import RiscyOS.Memory.UmemSpec

/-!
# Clearing the bitmap at boot

`ualloc_init` of `kernel/memory/umem.s`, line by line.  It is meant to zero `alloc_bitmap` from behind,
a word at a time.  It puts its pointer as many bytes behind the start as the bitmap has words, counts
the words, and never moves the pointer: the same word is zeroed over and over, and it is word 32 of
the bitmap (`uallocInit_exits`).  So all of user memory is free afterwards if the rest of the bitmap
said so before, which is `uallocInit_frees_iff`.
-/

set_option autoImplicit false

namespace RiscyOS

open Memory Bitmap Riscv Riscv.Image

/-! ## The routine -/

/-- The symbol whose address is taken. -/
inductive UmemSym where
  | allocBitmap
  deriving DecidableEq

/-- The labels; `1` and `2` are local. -/
inductive UallocInitLbl where
  | uallocInit
  | loop
  | done
  deriving DecidableEq

/-- `ALLOC_WORD_SIZE`. -/
def allocWordSize : Word := BitVec.ofNat 32 (allocArrayByteSize / 4)

/-- `ualloc_init`. -/
def uallocInitCode : List (Stmt Empty UmemSym UallocInitLbl) :=
  [.label .uallocInit,
    .op (.la .t0 .allocBitmap),
    .op (.li .t1 allocWordSize),
    .op (.add .t0 .t0 .t1),
    .label .loop,
    .beqz .t1 .done,
    .op (.sw .zero 0 .t0),
    .op (.addi .t1 .t1 (-1)),
    .j .loop,
    .label .done,
    .ret]

/-- The bytes of `alloc_bitmap` and around it, by index. -/
def bitmapAt (m : Mem) (allocBitmap : Word) : Bits := fun i => m (allocBitmap + BitVec.ofInt 32 i)

/-! ## What it does -/

section Run

variable {img : Image Empty UmemSym} {s : Hart}

/-- **The loop** stores one word, if it is entered at all. -/
theorem uallocInit_loop {n : Nat} (hn : n < 2 ^ 32) (ht1 : s.get .t1 = BitVec.ofNat 32 n) :
    ∃ t, img.Leads uallocInitCode (after uallocInitCode .loop) s [.ret] t ∧
      t.mem = if n = 0 then s.mem else setWord s.mem (s.get .t0) 0 0 := by
  induction n generalizing s with
  | zero => exact ⟨s, .label (.beqz_of_eq ht1 (.label .refl)), rfl⟩
  | succ n ih =>
    have hne : s.get .t1 ≠ 0 := by
      intro h
      have hnat := congrArg BitVec.toNat (ht1.symm.trans h)
      rw [BitVec.toNat_ofNat, Nat.mod_eq_of_lt hn] at hnat
      exact Nat.succ_ne_zero n hnat
    -- one turn: the word is stored, and only the counter moves
    let u := img.exec (.addi .t1 .t1 (-1)) (img.exec (.sw .zero 0 .t0) s)
    have hu0 : u.get .t0 = s.get .t0 := by
      simp (disch := decide) only [u, get_exec_of_ne]
    have hu1 : u.get .t1 = BitVec.ofNat 32 n := by
      simp (disch := decide) only [u, get_exec_of_ne, get_exec_addi]
      rw [ht1, BitVec.ofNat_add, BitVec.add_assoc]
      exact BitVec.add_zero _
    have hum : u.mem = setWord s.mem (s.get .t0) 0 0 := by
      simp (disch := decide) only [u, mem_exec_of_dest, mem_exec_sw]
      rfl
    obtain ⟨t, hlead, hmem⟩ := ih (s := u) (by omega) hu1
    refine ⟨t, .label (.beqz_of_ne hne (.op (.op (.j hlead)))), ?_⟩
    rw [if_neg (Nat.succ_ne_zero n), hmem, hu0, hum]
    split
    · rfl
    · exact store32_store32 ..

/-- **`ualloc_init` zeroes word 32** of the bitmap, and returns. -/
theorem uallocInit_exits (img : Image Empty UmemSym) (s : Hart) : ∃ e,
    img.Exits uallocInitCode uallocInitCode s e ∧ e.target = none ∧
      e.hart.mem = setWord s.mem (img.symbol .allocBitmap) 128 0 := by
  let u := img.exec (.add .t0 .t0 .t1) (img.exec (.li .t1 allocWordSize)
    (img.exec (.la .t0 .allocBitmap) s))
  have hu0 : u.get .t0 = img.symbol .allocBitmap + 128 := by
    simp (disch := decide) only [u, get_exec_of_ne, get_exec_add, get_exec_li, get_exec_la]
    rfl
  have hu1 : u.get .t1 = BitVec.ofNat 32 128 := by
    simp (disch := decide) only [u, get_exec_of_ne, get_exec_li]
    rfl
  have hum : u.mem = s.mem := by
    simp (disch := decide) only [u, mem_exec_of_dest]
  obtain ⟨t, hlead, hmem⟩ := @uallocInit_loop img u 128 (by decide) hu1
  refine ⟨_, Leads.exits_ret (.label (.op (.op (.op hlead)))), rfl, ?_⟩
  rw [hmem, hu0, hum, if_neg (by decide)]
  exact congrArg (store32 s.mem · 0) (BitVec.add_zero _)

end Run

/-! ## What that comes to -/

/-- The bitmap after the store. -/
theorem bitmapAt_setWord (m : Mem) (p : Word) {i : Int} (h0 : 0 ≤ i) (hi : i < allocArrayByteSize) :
    bitmapAt (setWord m p 128 0) p i = if 128 ≤ i ∧ i < 132 then 0 else bitmapAt m p i := by
  obtain ⟨n, rfl⟩ := Int.eq_ofNat_of_zero_le h0
  have hsize : (allocArrayByteSize : Int) = 512 := rfl
  have hdist : (p + BitVec.ofNat 32 n - (p + BitVec.ofNat 32 128)).toNat =
      (n + 2 ^ 32 - 128) % 2 ^ 32 := by
    simp only [BitVec.toNat_sub, BitVec.toNat_add, BitVec.toNat_ofNat]
    omega
  rw [bitmapAt, bitmapAt, BitVec.ofInt_natCast, setWord, store32, hdist]
  by_cases hin : 128 ≤ (n : Int) ∧ (n : Int) < 132
  · rw [if_pos (by omega), if_pos hin]
    exact BitVec.extractLsb'_zero
  · rw [if_neg (by omega), if_neg hin]

/-- All of user memory is free, and nothing has been written but the bitmap. -/
def UmemFreed (allocBitmap : Word) (m m' : Mem) : Prop :=
  (∀ b : Int, 0 ≤ b → b < numBlocks → test (bitmapAt m' allocBitmap) b = false) ∧
    ∀ x, ¬ (Span.mk allocBitmap allocArrayByteSize).Has x → m' x = m x

/-- **When `ualloc_init` frees all of user memory**: the bits outside word 32 of the bitmap, which are
those of all blocks but 1024 to 1055, have to be clear before. -/
theorem uallocInit_frees_iff (img : Image Empty UmemSym) (s : Hart) :
    (∃ e, img.Exits uallocInitCode uallocInitCode s e ∧ e.target = none ∧
      UmemFreed (img.symbol .allocBitmap) s.mem e.hart.mem) ↔
    ∀ b : Int, 0 ≤ b → b < numBlocks → ¬ (1024 ≤ b ∧ b < 1056) →
      test (bitmapAt s.mem (img.symbol .allocBitmap)) b = false := by
  obtain ⟨e, hexit, htarget, hmem⟩ := uallocInit_exits img s
  have hsize : (allocArrayByteSize : Int) = 512 := rfl
  have htest : ∀ b : Int, 0 ≤ b → b < numBlocks →
      test (bitmapAt e.hart.mem (img.symbol .allocBitmap)) b =
        (!decide (1024 ≤ b ∧ b < 1056) && test (bitmapAt s.mem (img.symbol .allocBitmap)) b) := by
    intro b hb hlt
    rw [numBlocks_eq] at hlt
    rw [test_eq hb, test_eq hb, hmem, bitmapAt_setWord _ _ (by omega) (by omega)]
    by_cases hin : 1024 ≤ b ∧ b < 1056
    · rw [if_pos (by omega), decide_eq_true hin]
      simp
    · rw [if_neg (by omega), decide_eq_false hin]
      rfl
  constructor
  · rintro ⟨e', hexit', -, hclear, -⟩ b hb hlt hout
    obtain rfl := hexit.unique hexit'
    rw [← hclear b hb hlt, htest b hb hlt, decide_eq_false hout]
    rfl
  · intro hclear
    refine ⟨e, hexit, htarget, fun b hb hlt => ?_, fun x hx => ?_⟩
    · rw [htest b hb hlt]
      by_cases hin : 1024 ≤ b ∧ b < 1056
      · rw [decide_eq_true hin]
        rfl
      · rw [hclear b hb hlt hin, Bool.and_false]
    · rw [hmem]
      refine store32_of_apart (Nat.not_lt.1 fun hlt => hx ?_)
      exact has_of_part (show (part (img.symbol .allocBitmap) 128 4).Has x from hlt) (by decide)

/-- The bitmap at `0x2000`. -/
def umemImage : Image Empty UmemSym := ⟨fun _ => 0x2000, fun _ => 0, fun f => f.elim⟩

/-- With the first block in use beforehand it stays in use. -/
theorem uallocInit_leaves_block : ¬ ∀ (img : Image Empty UmemSym) (s : Hart),
    ∃ e, img.Exits uallocInitCode uallocInitCode s e ∧ e.target = none ∧
      UmemFreed (img.symbol .allocBitmap) s.mem e.hart.mem := by
  intro h
  obtain ⟨e, hexit, -, hclear, -⟩ := h umemImage ⟨fun _ => 0, fun x => if x = 0x2000 then 1 else 0⟩
  obtain ⟨e', hexit', -, hmem⟩ :=
    uallocInit_exits umemImage ⟨fun _ => 0, fun x => if x = 0x2000 then 1 else 0⟩
  obtain rfl := hexit.unique hexit'
  have hbit := hclear 0 le_rfl (by decide)
  rw [hmem] at hbit
  exact absurd hbit (by decide +kernel)

end RiscyOS
