import RiscyOS.Assembler.PseudoSpec

/-!
# Values and targets that take two instructions

`LI`, `LA`, `CALL` and `TAIL` are one instruction or two, as their value needs it; loads and stores of a symbol
are two.  Here is what the words do when they are executed where they have been assembled.

* `li_loads`, `la_loads` — the register has the value, however many words there are.
* `jump_reaches` — a far target is reached with the link that is meant.  A near one is reached with a link in
  `ra`, even by `TAIL`; and where the size is kept at two words for a near one, the first of them is no instruction.
* `load_symbol`, `store_symbol` — the address is that of the symbol.
-/

set_option autoImplicit false

namespace RiscyOS.Rva

open Memory Rv32

section Words

variable (v : Word) (d s : Reg)

theorem luiWord : (regWord d <<< 7) ||| ((v + 0x00000800) &&& 0xFFFFF000) ||| (0x00000037 : Word) =
    encode (.lui d (hi20 v)) := by
  have h := uWord 0x00D00000 (upperImm (hi20 v)) d (upperImm_and _)
  rw [extractLsb'_upperImm] at h
  rw [and_upper]
  show (regWord d <<< 7) ||| upperImm (hi20 v) ||| opField 0x00D00000 = _
  rw [BitVec.or_comm, ← BitVec.or_assoc, h]
  rfl

theorem auipcWord' : (regWord d <<< 7) ||| ((v + 0x00000800) &&& 0xFFFFF000) ||| (0x00000017 : Word) =
    encode (.auipc d (hi20 v)) := by
  have h := uWord 0x00500000 (upperImm (hi20 v)) d (upperImm_and _)
  rw [extractLsb'_upperImm] at h
  rw [and_upper]
  show (regWord d <<< 7) ||| upperImm (hi20 v) ||| opField 0x00500000 = _
  rw [BitVec.or_comm, ← BitVec.or_assoc, h]
  rfl

theorem addiWord : (regWord d <<< 7) ||| (regWord s <<< 15) ||| ((v <<< 20) &&& 0xFFF00000) ||| (0x00000013 : Word) =
    encode (.imm .addi d s (lo12 v)) := by
  apply BitVec.eq_of_getLsbD_eq
  intro k hk
  simp only [encode, iType, ImmOp.funct3, lo12, regWord, BitVec.getLsbD_or, BitVec.getLsbD_and,
    BitVec.getLsbD_shiftLeft, BitVec.getLsbD_setWidth, BitVec.getLsbD_append]
  interval_cases k <;> simp

/-- Without the base register. -/
theorem addiWord_zero : encode (.imm .addi d s (lo12 v)) &&& ~~~(0x000F8000 : Word) =
    encode (.imm .addi d 0 (lo12 v)) := by
  apply BitVec.eq_of_getLsbD_eq
  intro k hk
  simp only [encode, iType, ImmOp.funct3, BitVec.getLsbD_and, BitVec.getLsbD_not, BitVec.getLsbD_append]
  interval_cases k <;> simp

theorem jalrWord : (regWord s <<< 15) ||| (regWord d <<< 7) ||| ((v <<< 20) &&& 0xFFF00000) ||| (0x00000067 : Word) =
    encode (.jalr d s (lo12 v)) := by
  apply BitVec.eq_of_getLsbD_eq
  intro k hk
  simp only [encode, iType, lo12, regWord, BitVec.getLsbD_or, BitVec.getLsbD_and, BitVec.getLsbD_shiftLeft,
    BitVec.getLsbD_setWidth, BitVec.getLsbD_append]
  interval_cases k <;> simp

/-- A value with nothing below its upper part. -/
theorem eq_upperImm_hi20 (h : v &&& 0x00000FFF = 0) : v = upperImm (hi20 v) := by
  have hv := upperImm_iff.1 h
  have hhi : upperImm (v.extractLsb' 12 20) + (0 : BitVec 12).signExtend 32 = v := by
    rw [← hv, show (0 : BitVec 12).signExtend 32 = 0#32 from rfl, BitVec.add_zero]
  rw [← (upperImm_add_iff.1 hhi).1]
  exact hv

theorem luiWord_alone (h : v &&& 0x00000FFF = 0) :
    (encode (.lui d (hi20 v)) &&& 0x00000FFF) ||| v = encode (.lui d (hi20 v)) := by
  have hbits : ∀ hi : BitVec 20, (encode (.lui d hi) &&& 0x00000FFF) ||| upperImm hi = encode (.lui d hi) := by
    intro hi
    apply BitVec.eq_of_getLsbD_eq
    intro k hk
    simp only [encode, uType, upperImm, BitVec.getLsbD_or, BitVec.getLsbD_and, BitVec.getLsbD_append]
    interval_cases k <;> simp
  calc (encode (.lui d (hi20 v)) &&& 0x00000FFF) ||| v
      = (encode (.lui d (hi20 v)) &&& 0x00000FFF) ||| upperImm (hi20 v) := by rw [← eq_upperImm_hi20 v h]
    _ = encode (.lui d (hi20 v)) := hbits _

end Words

/-! ## What is read -/

section Reads

variable {ctx : Context} {c c' : Cursor} {token : Word} {l : Long}

/-- What the value is taken from. -/
def relative (ctx : Context) (token v : Word) : Word := if token &&& 0x00007000 ≠ 0 then v - ctx.pc else v

theorem long_value_ok (hfinal : ctx.Final) {fields : Word × Word} :
    (do let r ← expression ctx
        let value := if token &&& 0x00007000 ≠ 0 then r.2 - ctx.env.assemblyPointer else r.2
        match longValue token fields.1 fields.2 value with
        | .ok l => do
          settle r.1
          pure l
        | .error code => fail code : Reader Long) c = (.ok l, c') ↔
      ∃ v, IsValue ctx c v c' ∧ longValue token fields.1 fields.2 (relative ctx token v) = .ok l := by
  rw [Reader.bind_ok]
  constructor
  · rintro ⟨r, c₁, hvalue, hrest⟩
    have hrest : (match longValue token fields.1 fields.2 (relative ctx token r.2) with
      | .ok l => (do settle r.1; pure l : Reader Long)
      | .error code => fail code) c₁ = (.ok l, c') := hrest
    cases hlong : longValue token fields.1 fields.2 (relative ctx token r.2) with
    | error code =>
      rw [hlong] at hrest
      exact absurd hrest fail_ok.1
    | ok l' =>
      rw [hlong] at hrest
      obtain ⟨u, c₂, hsettle, hpure⟩ := Reader.bind_ok.1 hrest
      obtain ⟨hok, rfl⟩ := settle_ok.1 hsettle
      obtain ⟨rfl, rfl⟩ := Reader.pure_ok.1 hpure
      exact ⟨r.2, (expression_ok hfinal).1 (by rw [hvalue, ← hok]), hlong⟩
  · rintro ⟨v, hv, hlong⟩
    refine ⟨(evalOkay, v), c', (expression_ok hfinal).2 hv, ?_⟩
    show (match longValue token fields.1 fields.2 (relative ctx token v) with
      | .ok l => (do settle evalOkay; pure l : Reader Long)
      | .error code => fail code) c' = (.ok l, c')
    rw [hlong]
    exact Reader.bind_ok.2 ⟨(), c', settle_ok.2 ⟨rfl, rfl⟩, Reader.pure_ok.2 ⟨rfl, rfl⟩⟩

/-- With a register. -/
theorem longMnemonic_register (hfinal : ctx.Final) (hkind : token &&& 0x00002000 = 0) :
    longMnemonic ctx token c = (.ok l, c') ↔ ∃ rd v c₁, RegComma ctx c rd c₁ ∧ IsValue ctx c₁ v c' ∧
      longValue token (regWord rd <<< 7) ((regWord rd <<< 7) ||| (regWord rd <<< 15)) (relative ctx token v) =
        .ok l := by
  rw [longMnemonic, if_pos hkind, register_comma]
  constructor
  · rintro ⟨rd, c₁, hrd, hrest⟩
    obtain ⟨fields, c₂, hpure, hrest⟩ := Reader.bind_ok.1 hrest
    obtain ⟨rfl, rfl⟩ := Reader.pure_ok.1 hpure
    obtain ⟨v, hv, hlong⟩ := (long_value_ok hfinal).1 hrest
    exact ⟨rd, v, c₁, hrd, hv, hlong⟩
  · rintro ⟨rd, v, c₁, hrd, hv, hlong⟩
    refine ⟨rd, c₁, hrd, Reader.bind_ok.2 ⟨_, c₁, Reader.pure_ok.2 ⟨rfl, rfl⟩, ?_⟩⟩
    exact (long_value_ok hfinal).2 ⟨v, hv, hlong⟩

/-- Without one. -/
theorem longMnemonic_jump (hfinal : ctx.Final) (hkind : token &&& 0x00002000 ≠ 0) :
    longMnemonic ctx token c = (.ok l, c') ↔ ∃ v, IsValue ctx c v c' ∧
      longValue token ((token &&& 0x01F00000) >>> 13)
        (((token &&& 0x01F00000) >>> 5) ||| ((token &&& 0x3E000000) >>> 18)) (relative ctx token v) = .ok l := by
  rw [longMnemonic, if_neg hkind, Reader.bind_ok]
  constructor
  · rintro ⟨fields, c₁, hfields, hrest⟩
    obtain ⟨rfl, rfl⟩ := Reader.pure_ok.1 hfields
    exact (long_value_ok hfinal).1 hrest
  · intro h
    exact ⟨_, c, Reader.pure_ok.2 ⟨rfl, rfl⟩, (long_value_ok hfinal).2 h⟩

end Reads

/-! ## Values -/

section Values

variable {ctx : Context} {c c' : Cursor} {allocate : Nat → Nat} {ws : List Word}

theorem long_dispatch {token : Word} (hsort : token &&& 0x000F0000 = 0x000B0000) :
    rv32iMnemonic ctx allocate token c = (.ok ws, c') ↔
      ∃ l, longMnemonic ctx token c = (.ok l, c') ∧ ws = l.words allocate := by
  have hdispatch : rv32iMnemonic ctx allocate token = (do return (← longMnemonic ctx token).words allocate) := by
    simp only [rv32iMnemonic, hsort]
    rfl
  rw [hdispatch, Reader.bind_ok]
  constructor
  · rintro ⟨l, c₁, hl, hpure⟩
    obtain ⟨rfl, rfl⟩ := Reader.pure_ok.1 hpure
    exact ⟨l, hl, rfl⟩
  · rintro ⟨l, hl, rfl⟩
    exact ⟨l, c', hl, Reader.pure_ok.2 ⟨rfl, rfl⟩⟩

/-- Where two words are needed, there are two. -/
theorem words_of_flag {w w' : Word} : (⟨true, w, w'⟩ : Long).words allocate = [w, w'] := if_pos (Or.inl rfl)

/-- `LI`. -/
def liToken : Word := 0x000B8000

/-- `LA`, and `LLA`. -/
def laToken : Word := 0x000B9000

theorem longValue_li (f o v : Word) : longValue liToken f o v =
    if (v + 0x800) &&& 0xFFFFF000 = 0 then
      .ok ⟨false, f ||| ((v + 0x00000800) &&& 0xFFFFF000) ||| (0x00000037 : Word),
        (o ||| ((v <<< 20) &&& 0xFFF00000) ||| (0x00000013 : Word)) &&& ~~~(0x000F8000 : Word)⟩
    else if v &&& 0x00000FFF = 0 then
      .ok ⟨false, f ||| ((v + 0x00000800) &&& 0xFFFFF000) ||| (0x00000037 : Word),
        ((f ||| ((v + 0x00000800) &&& 0xFFFFF000) ||| (0x00000037 : Word)) &&& 0x00000FFF) ||| v⟩
    else
      .ok ⟨true, f ||| ((v + 0x00000800) &&& 0xFFFFF000) ||| (0x00000037 : Word),
        o ||| ((v <<< 20) &&& 0xFFF00000) ||| (0x00000013 : Word)⟩ := by
  rw [longValue]
  exact if_pos rfl

/-- The words of a value: the last instruction makes the register what it is to be, from what it was or from
the upper part. -/
theorem li_value (d : Reg) (v : Word) : ∃ l i, longValue liToken (regWord d <<< 7)
    ((regWord d <<< 7) ||| (regWord d <<< 15)) v = .ok l ∧ l.first = encode (.lui d (hi20 v)) ∧ l.opCode = encode i ∧
      (if l.flag then i = .imm .addi d d (lo12 v) else ∀ s, exec s i = s.set d v) := by
  have hhalves := upperImm_hi20_add v
  rw [longValue_li, luiWord, addiWord]
  by_cases hshort : (v + 0x800) &&& 0xFFFFF000 = 0
  · rw [if_pos hshort, addiWord_zero]
    refine ⟨_, .imm .addi d 0 (lo12 v), rfl, rfl, rfl, fun s => ?_⟩
    have hhi : upperImm (hi20 v) = 0#32 := (and_upper _).symm.trans hshort
    rw [hhi] at hhalves
    exact congrArg (s.set d) hhalves
  · rw [if_neg hshort]
    by_cases hlow : v &&& 0x00000FFF = 0
    · rw [if_pos hlow, luiWord_alone v d hlow]
      exact ⟨_, .lui d (hi20 v), rfl, rfl, rfl, fun s => congrArg (s.set d) (eq_upperImm_hi20 v hlow).symm⟩
    · rw [if_neg hlow]
      exact ⟨_, .imm .addi d d (lo12 v), rfl, rfl, rfl, rfl⟩

/-- **`LI` loads its value**, whatever the value is and however many words are kept for it. -/
theorem li_loads (hfinal : ctx.Final) {token : Word} (htoken : rv32iMnemonicTable.value? "li".toList = some token) :
    (∀ ws, rv32iMnemonic ctx allocate token c = (.ok ws, c') → ∃ rd v c₁, RegComma ctx c rd c₁ ∧
      IsValue ctx c₁ v c' ∧ ws.length ≤ 2 ∧ ∀ s : State, Installed s.mem s.pc ws →
        steps ws.length s = some ((s.set rd v).jump (s.pc + 4 * BitVec.ofNat 32 ws.length))) ∧
    (∀ rd v c₁, RegComma ctx c rd c₁ → IsValue ctx c₁ v c' →
      ∃ ws, rv32iMnemonic ctx allocate token c = (.ok ws, c')) := by
  have hvalue : rv32iMnemonicTable.value? "li".toList = some liToken :=
    value_mnemonic (s := ("li", liToken)) (by decide)
  obtain rfl : liToken = token := Option.some.inj (hvalue.symm.trans htoken)
  have hread : ∀ {ws}, rv32iMnemonic ctx allocate liToken c = (.ok ws, c') ↔ ∃ l, (∃ rd v c₁, RegComma ctx c rd c₁ ∧
      IsValue ctx c₁ v c' ∧ longValue liToken (regWord rd <<< 7) ((regWord rd <<< 7) ||| (regWord rd <<< 15)) v =
        .ok l) ∧ ws = l.words allocate := by
    intro ws
    rw [long_dispatch rfl]
    simp only [longMnemonic_register hfinal (show liToken &&& 0x00002000 = 0 from rfl)]
    rfl
  constructor
  · intro ws h
    obtain ⟨l, ⟨rd, v, c₁, hrd, hv, hlong⟩, rfl⟩ := hread.1 h
    obtain ⟨l', i, hlong', hfirst, hlast, hi⟩ := li_value rd v
    obtain rfl : l = l' := Except.ok.inj (hlong.symm.trans hlong')
    refine ⟨rd, v, c₁, hrd, hv, ?_⟩
    rw [Long.words]
    by_cases hboth : l.flag ∨ allocate (if l.flag then 8 else 4) = 8
    · rw [if_pos hboth]
      refine ⟨Nat.le_refl 2, fun s hinst => ?_⟩
      rw [hfirst, hlast] at hinst
      refine (steps_pair (straight_lui _ _) hinst).trans (congrArg some ?_)
      show exec (s.set rd (upperImm (hi20 v))) i = (s.set rd v).jump (s.pc + 4 * 2)
      have hpc : s.pc + 4 + 4 = s.pc + 4 * 2 := by rw [BitVec.add_assoc]; rfl
      cases hflag : l.flag with
      | true =>
        rw [hflag, if_pos rfl] at hi
        rw [hi, exec_addi_set, upperImm_hi20_add, hpc]
      | false =>
        rw [hflag, if_neg Bool.false_ne_true] at hi
        rw [hi, State.set_set, hpc]
    · rw [if_neg hboth]
      refine ⟨Nat.le_succ 1, fun s hinst => ?_⟩
      rw [hlast] at hinst
      rw [if_neg fun h => hboth (Or.inl h)] at hi
      refine (steps_one hinst).trans (congrArg some ?_)
      rw [hi]
      rfl
  · intro rd v c₁ hrd hv
    obtain ⟨l, -, hlong, -⟩ := li_value rd v
    exact ⟨_, hread.2 ⟨l, ⟨rd, v, c₁, hrd, hv, hlong⟩, rfl⟩⟩

theorem li_two_words : ∃ rd v c₁, RegComma (lineOnly "a0, 74565".toList) ⟨0, 0, false⟩ rd c₁ ∧
    IsValue (lineOnly "a0, 74565".toList) c₁ v ⟨9, 0, false⟩ ∧ [0x00012537, 0x34550513].length ≤ 2 ∧
    ∀ s : State, Installed s.mem s.pc [0x00012537, 0x34550513] →
      steps 2 s = some ((s.set rd v).jump (s.pc + 4 * BitVec.ofNat 32 2)) :=
  (li_loads ⟨rfl, rfl⟩ (value_mnemonic (s := ("li", liToken)) (by decide))).1 _
    (show rv32iMnemonic (lineOnly "a0, 74565".toList) id _ ⟨0, 0, false⟩ =
      (.ok [0x00012537, 0x34550513], ⟨9, 0, false⟩) by decide +kernel)

theorem longValue_la (f o v : Word) : longValue laToken f o v =
    .ok ⟨true, f ||| ((v + 0x00000800) &&& 0xFFFFF000) ||| (0x00000017 : Word),
      o ||| ((v <<< 20) &&& 0xFFF00000) ||| (0x00000013 : Word)⟩ := by
  rw [longValue, if_neg (by decide)]
  exact if_pos rfl

/-- **`LA` loads an address**, when it is executed where it has been assembled. -/
theorem la_loads (hfinal : ctx.Final) {token : Word} (htoken : rv32iMnemonicTable.value? "la".toList = some token) :
    rv32iMnemonic ctx allocate token c = (.ok ws, c') ↔ ∃ rd v c₁, RegComma ctx c rd c₁ ∧ IsValue ctx c₁ v c' ∧
      ws = [encode (.auipc rd (hi20 (v - ctx.pc))), encode (.imm .addi rd rd (lo12 (v - ctx.pc)))] ∧
      ∀ s : State, s.pc = ctx.pc → Installed s.mem s.pc ws → steps 2 s = some ((s.set rd v).jump (s.pc + 8)) := by
  have hvalue : rv32iMnemonicTable.value? "la".toList = some laToken :=
    value_mnemonic (s := ("la", laToken)) (by decide)
  obtain rfl : laToken = token := Option.some.inj (hvalue.symm.trans htoken)
  have hread : rv32iMnemonic ctx allocate laToken c = (.ok ws, c') ↔ ∃ l, (∃ rd v c₁, RegComma ctx c rd c₁ ∧
      IsValue ctx c₁ v c' ∧ longValue laToken (regWord rd <<< 7) ((regWord rd <<< 7) ||| (regWord rd <<< 15))
        (v - ctx.pc) = .ok l) ∧ ws = l.words allocate := by
    rw [long_dispatch rfl]
    simp only [longMnemonic_register hfinal (show laToken &&& 0x00002000 = 0 from rfl)]
    rfl
  rw [hread]
  simp only [longValue_la, auipcWord', addiWord]
  constructor
  · rintro ⟨l, ⟨rd, v, c₁, hrd, hv, hlong⟩, rfl⟩
    obtain rfl := Except.ok.inj hlong
    rw [words_of_flag]
    refine ⟨rd, v, c₁, hrd, hv, rfl, fun s hpc hinst => ?_⟩
    refine (steps_pair (straight_auipc _ _) hinst).trans (congrArg some ?_)
    show exec (s.set rd (s.pc + upperImm (hi20 (v - ctx.pc)))) _ = _
    have hsum : ctx.pc + (v - ctx.pc) = v := by rw [BitVec.add_comm, BitVec.sub_add_cancel]
    rw [exec_addi_set, BitVec.add_assoc, upperImm_hi20_add, BitVec.add_assoc, hpc, hsum]
    rfl
  · rintro ⟨rd, v, c₁, hrd, hv, rfl, -⟩
    exact ⟨_, ⟨rd, v, c₁, hrd, hv, rfl⟩, words_of_flag.symm⟩

theorem la_thirty_two : ∃ rd v c₁, RegComma (lineOnly "sp, 32".toList) ⟨0, 0, false⟩ rd c₁ ∧
    IsValue (lineOnly "sp, 32".toList) c₁ v ⟨6, 0, false⟩ ∧
    [0x00000117, 0x02010113] = [encode (.auipc rd (hi20 (v - (lineOnly "sp, 32".toList).pc))),
      encode (.imm .addi rd rd (lo12 (v - (lineOnly "sp, 32".toList).pc)))] ∧
    ∀ s : State, s.pc = (lineOnly "sp, 32".toList).pc → Installed s.mem s.pc [0x00000117, 0x02010113] →
      steps 2 s = some ((s.set rd v).jump (s.pc + 8)) :=
  (la_loads ⟨rfl, rfl⟩ (value_mnemonic (s := ("la", laToken)) (by decide))).1
    (show rv32iMnemonic (lineOnly "sp, 32".toList) id _ _ = _ by decide +kernel)

end Values

/-! ## Targets -/

inductive JumpOp where
  | call | tail
  deriving DecidableEq, Repr

namespace JumpOp

def name : JumpOp → String
  | call => "call" | tail => "tail"

def token : JumpOp → Word
  | call => 0x021BA000 | tail => 0x006BA000

/-- The register for the upper part of the target. -/
def scratch : JumpOp → Reg
  | call => 1 | tail => 6

/-- The register for the way back. -/
def link : JumpOp → Reg
  | call => 1 | tail => 0

end JumpOp

/-- A jump with an immediate gets there. -/
def Near (d : Word) : Prop := (d + 0x100000) &&& 0xFFE00000 = 0

instance (d : Word) : Decidable (Near d) := inferInstanceAs (Decidable (_ = _))

theorem near_iff {d : Word} : Near d ↔ inRange 0xFFF00000 d = true := by
  have hlow : Near d ↔ d + 0x100000 = ((d + 0x100000).setWidth 21).setWidth 32 := and_eq_zero_iff (by decide)
  have hext : inRange 0xFFF00000 d = true ↔ d = (d.setWidth 21).signExtend 32 :=
    inRange_iff (by decide) (by decide) (by decide)
  have hsign := toNat_signExtend (by decide) (d.setWidth 21)
  have hd := d.isLt
  have hconst : (0x100000 : Word).toNat = 2 ^ 20 := rfl
  rw [hlow, hext, ← BitVec.toNat_inj, ← BitVec.toNat_inj (x := d), hsign, BitVec.toNat_setWidth,
    BitVec.toNat_setWidth, BitVec.toNat_setWidth, BitVec.toNat_add, hconst]
  split <;> omega

/-- A near target is an offset in halfwords. -/
theorem eq_distance_of_near {d : Word} (heven : d &&& 1 = 0) (hnear : Near d) :
    d = distance (d.extractLsb' 1 20) :=
  (inRange_distance_iff (by decide) (by decide)).1 ⟨heven, near_iff.1 hnear⟩

theorem jalWord (v : Word) : (0x000000EF : Word) ||| immJal v = encode (.jal 1 (v.extractLsb' 1 20)) := by
  apply BitVec.eq_of_getLsbD_eq
  intro k hk
  simp only [immJal, encode, jType, BitVec.getLsbD_or, BitVec.getLsbD_and, BitVec.getLsbD_shiftLeft,
    BitVec.getLsbD_append, BitVec.getLsbD_extractLsb']
  interval_cases k <;> simp

/-- An upper part with a register is no instruction. -/
theorem decode_upper (r : Reg) (u : Word) : decode ((regWord r <<< 7) ||| (u &&& 0xFFFFF000)) = none := by
  have hop : opcode ((regWord r <<< 7) ||| (u &&& 0xFFFFF000)) = 0 := by
    apply BitVec.eq_of_getLsbD_eq
    intro k hk
    simp only [opcode, BitVec.getLsbD_extractLsb', BitVec.getLsbD_or, BitVec.getLsbD_and, BitVec.getLsbD_shiftLeft]
    interval_cases k <;> simp
  rw [decode, hop]
  rfl

section Targets

variable {ctx : Context} {c c' : Cursor} {allocate : Nat → Nat} {ws : List Word}

theorem value_jumpToken (op : JumpOp) : rv32iMnemonicTable.value? op.name.toList = some op.token := by
  cases op with
  | call => exact value_mnemonic (s := ("call", 0x021BA000)) (by decide)
  | tail => exact value_mnemonic (s := ("tail", 0x006BA000)) (by decide)

/-- The two words, for a near target and for a far one. -/
theorem longValue_jump (op : JumpOp) {d : Word} (heven : d &&& 1 = 0) :
    longValue op.token ((op.token &&& 0x01F00000) >>> 13)
      (((op.token &&& 0x01F00000) >>> 5) ||| ((op.token &&& 0x3E000000) >>> 18)) d = .ok
        (if Near d then
          ⟨false, (regWord op.scratch <<< 7) ||| ((d + 0x00000800) &&& 0xFFFFF000),
            encode (.jal 1 (d.extractLsb' 1 20))⟩
        else ⟨true, encode (.auipc op.scratch (hi20 d)), encode (.jalr op.link op.scratch (lo12 d))⟩) := by
  have hfirst : (op.token &&& 0x01F00000) >>> 13 = regWord op.scratch <<< 7 := by cases op <;> rfl
  have hlast : ((op.token &&& 0x01F00000) >>> 5) ||| ((op.token &&& 0x3E000000) >>> 18) =
      (regWord op.scratch <<< 15) ||| (regWord op.link <<< 7) := by cases op <;> rfl
  have hkind : op.token &&& 0x00007000 = 0x00002000 := by cases op <;> rfl
  rw [longValue, hfirst, hlast, hkind, if_neg (by decide), if_neg (by decide), if_pos rfl, if_neg (not_not.2 heven)]
  by_cases hnear : Near d
  · have hzero : (d + 0x100000) &&& 0xFFE00000 = 0 := hnear
    rw [if_neg (not_not.2 hzero), if_pos hnear, jalWord]
  · have hfar : (d + 0x100000) &&& 0xFFE00000 ≠ 0 := hnear
    rw [if_pos hfar, if_neg hnear, auipcWord', jalrWord]

theorem longValue_odd (op : JumpOp) {f o d : Word} (hodd : d &&& 1 ≠ 0) :
    longValue op.token f o d = .error symUnalignedBranch := by
  have hkind : op.token &&& 0x00007000 = 0x00002000 := by cases op <;> rfl
  rw [longValue, hkind, if_neg (by decide), if_neg (by decide), if_pos rfl, if_pos hodd]

/-- The words that are kept. -/
def jumpWords (op : JumpOp) (allocate : Nat → Nat) (d : Word) : List Word :=
  if Near d then
    (if allocate 4 = 8 then [(regWord op.scratch <<< 7) ||| ((d + 0x00000800) &&& 0xFFFFF000)] else []) ++
      [encode (.jal 1 (d.extractLsb' 1 20))]
  else [encode (.auipc op.scratch (hi20 d)), encode (.jalr op.link op.scratch (lo12 d))]

theorem words_jump (op : JumpOp) (d : Word) :
    (if Near d then
      ⟨false, (regWord op.scratch <<< 7) ||| ((d + 0x00000800) &&& 0xFFFFF000), encode (.jal 1 (d.extractLsb' 1 20))⟩
    else ⟨true, encode (.auipc op.scratch (hi20 d)), encode (.jalr op.link op.scratch (lo12 d))⟩ : Long).words
      allocate = jumpWords op allocate d := by
  rw [jumpWords]
  by_cases hnear : Near d
  · rw [if_pos hnear, if_pos hnear]
    by_cases hkept : allocate 4 = 8
    · rw [if_pos hkept]
      exact if_pos (Or.inr hkept)
    · rw [if_neg hkept]
      exact if_neg fun h => h.elim Bool.false_ne_true hkept
  · rw [if_neg hnear, if_neg hnear]
    exact words_of_flag

theorem jump_ok (hfinal : ctx.Final) (op : JumpOp) : rv32iMnemonic ctx allocate op.token c = (.ok ws, c') ↔
    ∃ v, IsValue ctx c v c' ∧ (v - ctx.pc) &&& 1 = 0 ∧ ws = jumpWords op allocate (v - ctx.pc) := by
  have hsort : op.token &&& 0x000F0000 = 0x000B0000 := by cases op <;> rfl
  have hkind : op.token &&& 0x00002000 ≠ 0 := by cases op <;> decide
  have hrelative : ∀ v, relative ctx op.token v = v - ctx.pc := fun v => if_pos (by cases op <;> decide)
  rw [long_dispatch hsort]
  simp only [longMnemonic_jump hfinal hkind, hrelative]
  constructor
  · rintro ⟨l, ⟨v, hv, hlong⟩, rfl⟩
    have heven : (v - ctx.pc) &&& 1 = 0 := by
      by_contra hodd
      rw [longValue_odd op hodd] at hlong
      exact absurd hlong (by simp)
    rw [longValue_jump op heven] at hlong
    obtain rfl := Except.ok.inj hlong
    exact ⟨v, hv, heven, words_jump op _⟩
  · rintro ⟨v, hv, heven, rfl⟩
    exact ⟨_, ⟨v, hv, longValue_jump op heven⟩, (words_jump op _).symm⟩

/-- An even address and an even distance make an even target. -/
theorem even_target {a v : Word} (ha : a &&& 1 = 0) (hd : (v - a) &&& 1 = 0) : v &&& ~~~1 = v := by
  have hparity : ∀ w : Word, w &&& 1 = 0 ↔ w.toNat % 2 = 0 := by
    intro w
    rw [← BitVec.toNat_inj, BitVec.toNat_and]
    exact Nat.and_one_is_mod _ ▸ Iff.rfl
  have hlt := a.isLt
  have hv : v &&& 1 = 0 := by
    rw [hparity, BitVec.toNat_sub] at hd
    rw [hparity] at ha ⊢
    omega
  rw [← sub_and_one, hv]
  exact BitVec.sub_zero v

/-- **Where `CALL` and `TAIL` go**, executed where they have been assembled.  A far target is reached with the
address behind the two instructions in `ra` for `CALL`, and nowhere for `TAIL`.  For a near one there is one
instruction, which leaves the address behind it in `ra` in both cases; or, when the size of two words has been
kept, there is nothing that can be executed. -/
theorem jump_reaches (hfinal : ctx.Final) (hpc : ctx.pc &&& 1 = 0) (op : JumpOp) {token : Word}
    (htoken : rv32iMnemonicTable.value? op.name.toList = some token)
    (h : rv32iMnemonic ctx allocate token c = (.ok ws, c')) :
    ∃ v, IsValue ctx c v c' ∧ ∀ s : State, s.pc = ctx.pc → Installed s.mem s.pc ws →
      if Near (v - ctx.pc) then
        if allocate 4 = 8 then step s = none else step s = some ((s.set 1 (s.pc + 4)).jump v)
      else steps 2 s =
        some (((s.set op.scratch (s.pc + upperImm (hi20 (v - ctx.pc)))).set op.link (s.pc + 8)).jump v) := by
  obtain rfl : op.token = token := Option.some.inj ((value_jumpToken op).symm.trans htoken)
  obtain ⟨v, hv, heven, rfl⟩ := (jump_ok hfinal op).1 h
  refine ⟨v, hv, fun s hs hinst => ?_⟩
  have hsum : ctx.pc + (v - ctx.pc) = v := by rw [BitVec.add_comm, BitVec.sub_add_cancel]
  rw [jumpWords] at hinst
  by_cases hnear : Near (v - ctx.pc)
  · rw [if_pos hnear] at hinst ⊢
    by_cases hkept : allocate 4 = 8
    · rw [if_pos hkept] at hinst ⊢
      rw [step, hinst.1, decode_upper]
      rfl
    · rw [if_neg hkept] at hinst ⊢
      rw [step_encode hinst.1, exec, ← eq_distance_of_near heven hnear, hs, hsum]
  · rw [if_neg hnear] at hinst ⊢
    refine (steps_pair (straight_auipc _ _) hinst).trans (congrArg some ?_)
    have hscratch : op.scratch ≠ 0 := by cases op <;> decide
    have hnext : s.pc + 4 + 4 = s.pc + 8 := by rw [BitVec.add_assoc]; rfl
    show exec (s.set op.scratch (s.pc + upperImm (hi20 (v - ctx.pc)))) _ = _
    rw [exec, State.pc_set, hnext, State.get_set_self hscratch, BitVec.add_assoc, upperImm_hi20_add, hs, hsum,
      even_target hpc heven]

theorem call_far : ∃ v, IsValue (lineOnly "0x200000".toList) ⟨0, 0, false⟩ v ⟨8, 0, false⟩ ∧ ∀ s : State,
    s.pc = (lineOnly "0x200000".toList).pc → Installed s.mem s.pc [0x00200097, 0x000080E7] →
      if Near (v - (lineOnly "0x200000".toList).pc) then
        if id 4 = 8 then step s = none else step s = some ((s.set 1 (s.pc + 4)).jump v)
      else steps 2 s = some (((s.set JumpOp.call.scratch (s.pc + upperImm
        (hi20 (v - (lineOnly "0x200000".toList).pc)))).set JumpOp.call.link (s.pc + 8)).jump v) :=
  jump_reaches ⟨rfl, rfl⟩ rfl .call (value_jumpToken .call)
    (show rv32iMnemonic (lineOnly "0x200000".toList) id _ _ = _ by decide +kernel)

end Targets

/-! ## Symbols -/

section Symbols

variable {ctx : Context} {c c' : Cursor} {allocate : Nat → Nat} {ws : List Word}

/-- The upper part of the way to a symbol, and what is added to it. -/
theorem pc_add_symbol {s : State} (hs : s.pc = ctx.pc) (hi : BitVec 20) (lo : BitVec 12) :
    s.pc + upperImm hi + lo.signExtend 32 = ctx.pc + (upperImm hi + lo.signExtend 32) := by
  rw [hs, BitVec.add_assoc]

/-- **A load of a symbol** of two words loads from where the symbol is, executed where it has been assembled. -/
theorem load_symbol (hfinal : ctx.Final) (op : LoadOp) {token : Word}
    (htoken : rv32iMnemonicTable.value? op.name.toList = some token)
    (h : rv32iMnemonic ctx allocate token c = (.ok ws, c')) (htwo : ws.length = 2) :
    ∃ rd v c₁, RegComma ctx c rd c₁ ∧ Symbol ctx c₁ v c' ∧ (rd ≠ 0 → ∀ s : State, s.pc = ctx.pc →
      Installed s.mem s.pc ws → steps 2 s = some ((s.set rd (op.eval s.mem v)).jump (s.pc + 8))) := by
  obtain rfl : tokenOf (.load op) = token := Option.some.inj ((value_tokenOf (.load op)).symm.trans htoken)
  obtain ⟨_, hst, rfl⟩ := (load_iff hfinal op).1 h
  cases hst with
  | load => exact absurd htwo (by simp)
  | loadSymbol hrd haddr =>
    refine ⟨_, _, _, hrd, haddr, fun hne s hs hinst => ?_⟩
    refine (steps_pair (straight_auipc _ _) hinst).trans (congrArg some ?_)
    show exec (s.set _ (s.pc + upperImm _)) _ = _
    rw [exec, State.get_set_self hne, State.set_set, State.mem_set, pc_add_symbol hs, BitVec.add_assoc]
    rfl

theorem load_symbol_32 : ∃ rd v c₁, RegComma (lineOnly "a0, 32".toList) ⟨0, 0, false⟩ rd c₁ ∧
    Symbol (lineOnly "a0, 32".toList) c₁ v ⟨6, 0, false⟩ ∧ (rd ≠ 0 → ∀ s : State,
      s.pc = (lineOnly "a0, 32".toList).pc → Installed s.mem s.pc [0x00000517, 0x02052503] →
        steps 2 s = some ((s.set rd (LoadOp.lw.eval s.mem v)).jump (s.pc + 8))) :=
  load_symbol ⟨rfl, rfl⟩ .lw (value_tokenOf (.load .lw))
    (show rv32iMnemonic (lineOnly "a0, 32".toList) id _ _ = _ by decide +kernel) rfl

/-- **A store to a symbol** of two words, with a register to reach it, that is not the one that is stored. -/
theorem store_symbol (hfinal : ctx.Final) (op : StoreOp) {token : Word}
    (htoken : rv32iMnemonicTable.value? op.name.toList = some token)
    (h : rv32iMnemonic ctx allocate token c = (.ok ws, c')) (htwo : ws.length = 2) :
    ∃ rt rs v u c₁ c₂ c₃, RegComma ctx c rt c₁ ∧ Symbol ctx c₁ v c₂ ∧ Has ctx ',' c₂ c₃ ∧ IsReg ctx c₃ rs c' ∧
      (rs ≠ 0 → rt ≠ rs → ∀ s : State, s.pc = ctx.pc → Installed s.mem s.pc ws →
        steps 2 s = some { s.set rs u with mem := op.eval s.mem v (s.get rt), pc := s.pc + 8 }) := by
  obtain rfl : tokenOf (.store op) = token := Option.some.inj ((value_tokenOf (.store op)).symm.trans htoken)
  obtain ⟨_, hst, rfl⟩ := (store_iff hfinal op).1 h
  cases hst with
  | store => exact absurd htwo (by simp)
  | storeSymbol hrt haddr hcomma hrs =>
    rename_i c₁ c₂ c₃ rt rs hi lo
    refine ⟨rt, rs, _, ctx.pc + upperImm hi, c₁, c₂, c₃, hrt, haddr, hcomma, hrs, fun hne hdiff s hs hinst => ?_⟩
    refine (steps_pair (straight_auipc _ _) hinst).trans (congrArg some ?_)
    show exec (s.set rs (s.pc + upperImm hi)) _ = _
    rw [exec, State.get_set_self hne, State.get_set_of_ne hdiff, State.mem_set, State.pc_set, pc_add_symbol hs,
      BitVec.add_assoc, hs]
    rfl

theorem store_symbol_32 : ∃ rt rs v u c₁ c₂ c₃, RegComma (lineOnly "a0, 32, t0".toList) ⟨0, 0, false⟩ rt c₁ ∧
    Symbol (lineOnly "a0, 32, t0".toList) c₁ v c₂ ∧ Has (lineOnly "a0, 32, t0".toList) ',' c₂ c₃ ∧
    IsReg (lineOnly "a0, 32, t0".toList) c₃ rs ⟨10, 0, false⟩ ∧ (rs ≠ 0 → rt ≠ rs → ∀ s : State,
      s.pc = (lineOnly "a0, 32, t0".toList).pc → Installed s.mem s.pc [0x00000297, 0x02A2A023] →
        steps 2 s = some { s.set rs u with mem := StoreOp.sw.eval s.mem v (s.get rt), pc := s.pc + 8 }) :=
  store_symbol ⟨rfl, rfl⟩ .sw (value_tokenOf (.store .sw))
    (show rv32iMnemonic (lineOnly "a0, 32, t0".toList) id _ _ = _ by decide +kernel) rfl

end Symbols

end RiscyOS.Rva
