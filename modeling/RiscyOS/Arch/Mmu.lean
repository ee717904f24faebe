import RiscyOS.Process
import Mathlib.Tactic.IntervalCases

/-!
# The base/limit MMU

`HW-Peripherals/mmu.v` and `mmu_regs.v` with the driver `drivers/mmu/mmu.s` that programs them.
In user mode with translation enabled, `simpleMmu` sends the virtual address `a` to
`a - virtualStart + base`, everything modulo `2 ^ 32`, and raises an access fault when `a` lies
below the virtual start or the *wrapped* sum is not below the limit.

Only one lower bound is tested, and it is tested on the virtual address.  A virtual address near
the top of the address space makes the sum wrap past zero, and a wrapped sum is small, so it passes
the upper bound: `translate_below_base` exhibits it.  Wrapping needs an address at least
`2 ^ 32 - base` above the virtual start, which exists exactly when the virtual start is below the
base.  `dataAccesses_confined_iff` says that this is the whole story.

The second way out of a region is a wide access that starts on its last bytes, since the fault test
looks at the first byte only; `AccessesFit` is the arithmetic of that.
-/

set_option autoImplicit false

namespace RiscyOS

open Memory

/-! ## The hardware -/

/-- The abort code of `simple_mmu`: none, or a load/store alignment or access fault. -/
inductive Abort where
  | none
  | ldAlgn
  | stAlgn
  | ldAcc
  | stAcc
  deriving DecidableEq, Repr

/-- The registers of `mmu_regs`. -/
structure MmuRegs where
  immuBase : Word
  immuLimit : Word
  dmmuBase : Word
  dmmuLimit : Word
  dmmuVirtStart : Word
  mmuEnable : Bool
  deriving DecidableEq, Repr

/-- The state after reset: everything at the start of user RAM, translation off. -/
def MmuRegs.reset : MmuRegs := ⟨0x40000, 0x40000, 0x40000, 0x40000, 0x40000, false⟩

/-- A bus write to `mmu_regs`.  Only privileged modes may write, and bits `[4:2]` of the address
select the register. -/
def MmuRegs.write (mode : BitVec 2) (address dataIn : Word) (r : MmuRegs) : MmuRegs :=
  if mode = 0 then r else
    match (address.extractLsb' 2 3).toNat with
    | 0 => { r with immuBase := dataIn }
    | 1 => { r with immuLimit := dataIn }
    | 2 => { r with dmmuBase := dataIn }
    | 3 => { r with dmmuLimit := dataIn }
    | 4 => { r with dmmuVirtStart := dataIn }
    | 5 => { r with mmuEnable := dataIn.getLsbD 0 }
    | _ => r

/-- The processor's side of one cycle: the inputs of `simple_mmu` that are not registers. -/
structure Access where
  address : Word
  mode : BitVec 2
  size : BitVec 2
  read : Bool
  write : Bool
  deriving DecidableEq, Repr

/-- The outputs of `simple_mmu`. -/
structure MmuOut where
  physAddress : Word
  abort : Abort
  read : Bool
  write : Bool
  deriving DecidableEq, Repr

/-- The alignment check: it looks at the low bits of the virtual address. -/
def abortAlign (a : Access) : Bool :=
  if a.read || a.write then
    match a.size.toNat with
    | 1 => a.address.extractLsb' 0 1 != 0
    | 2 => a.address.extractLsb' 0 2 != 0
    | 3 => a.address.extractLsb' 0 3 != 0
    | _ => false
  else false

/-- `simple_mmu`, combinationally, with the translation inputs `base_offset_i`, `limit_offset_i`,
`virtual_start_i` and `mmu_enable_i`. -/
def simpleMmu (base limit virtualStart : Word) (enable : Bool) (a : Access) : MmuOut :=
  let userMode := a.mode == 0
  let translate := userMode && enable
  let phys := if translate then a.address - virtualStart + base else a.address
  let abortAccess :=
    if a.read || a.write then
      if translate then
        decide (a.address < virtualStart) || decide (limit ≤ a.address - virtualStart + base)
      else userMode && (a.address.extractLsb' 18 14 == 0)
    else false
  let abort :=
    if abortAlign a then if a.read then .ldAlgn else .stAlgn
    else if abortAccess then if a.read then .ldAcc else .stAcc
    else .none
  ⟨phys, abort, a.read && abort == .none, a.write && abort == .none⟩

/-- The data MMU: `simple_mmu` wired to the `dmmu_*` registers. -/
def MmuRegs.dmmu (r : MmuRegs) (a : Access) : MmuOut :=
  simpleMmu r.dmmuBase r.dmmuLimit r.dmmuVirtStart r.mmuEnable a

/-! ## The driver -/

/-- `MMU_BASE`. -/
def mmuBase : Word := 0x10900

/-- Machine mode, in which the kernel runs. -/
def machineMode : BitVec 2 := 3

/-- `mmu_init`: enable translation. -/
def mmuInit (r : MmuRegs) : MmuRegs := r.write machineMode (mmuBase + 0x14) 1

/-- `mmu_set_proc`: program both MMUs from the regions of a PCB.  The instruction side gets the
text region, the data side the data region and its virtual start; limits are base plus size. -/
def mmuSetProc (region : Ptr → MemoryRegion) (pcb : Pcb) (r : MmuRegs) : MmuRegs :=
  let t1 := pcb.ptextMemoryRegion
  let t2 := (region t1).physicalBase
  let r := r.write machineMode mmuBase t2
  let t3 := (region t1).regionSize
  let t3 := t3 + t2
  let r := r.write machineMode (mmuBase + 0x4) t3
  let t1 := pcb.pdataMemoryRegion
  let t2 := (region t1).physicalBase
  let r := r.write machineMode (mmuBase + 0x8) t2
  let t3 := pcb.pdataStart
  let r := r.write machineMode (mmuBase + 0x10) t3
  let t4 := (region t1).regionSize
  let t4 := t4 + t2
  r.write machineMode (mmuBase + 0xC) t4

/-- What `mmu_set_proc` leaves in the registers. -/
theorem mmuSetProc_eq (region : Ptr → MemoryRegion) (pcb : Pcb) (r : MmuRegs) :
    mmuSetProc region pcb r =
      { immuBase := (region pcb.ptextMemoryRegion).physicalBase
        immuLimit := (region pcb.ptextMemoryRegion).regionSize +
          (region pcb.ptextMemoryRegion).physicalBase
        dmmuBase := (region pcb.pdataMemoryRegion).physicalBase
        dmmuLimit := (region pcb.pdataMemoryRegion).regionSize +
          (region pcb.pdataMemoryRegion).physicalBase
        dmmuVirtStart := pcb.pdataStart
        mmuEnable := r.mmuEnable } := rfl

/-! ## What a user-mode access can reach -/

/-- A data read or write made in user mode. -/
def Access.IsUserData (a : Access) : Prop := a.mode = 0 ∧ (a.read || a.write) = true

/-- How many bytes the access covers. -/
def Access.width (a : Access) : Nat := 2 ^ a.size.toNat

theorem Access.width_eq (a : Access) :
    a.width = 1 ∨ a.width = 2 ∨ a.width = 4 ∨ a.width = 8 := by
  rw [width]
  have h : a.size.toNat < 4 := a.size.isLt
  interval_cases a.size.toNat <;> simp

/-- An access passes the alignment check iff its width divides its address. -/
theorem abortAlign_eq_false {a : Access} (h : a.IsUserData) :
    abortAlign a = false ↔ a.width ∣ a.address.toNat := by
  have hs : a.size.toNat < 4 := a.size.isLt
  rw [abortAlign, if_pos h.2, Access.width]
  have low (n : Nat) : a.address.extractLsb' 0 n = 0#n ↔ a.address.toNat % 2 ^ n = 0 := by
    rw [← BitVec.toNat_inj]
    simp
  interval_cases a.size.toNat <;> simp [low, Nat.dvd_iff_mod_eq_zero]

/-- **When the data MMU lets a user access through**: aligned, not below the virtual start, and
with the wrapped sum below the limit. -/
theorem dmmu_abort_eq_none {r : MmuRegs} (hen : r.mmuEnable = true) {a : Access}
    (h : a.IsUserData) :
    (r.dmmu a).abort = .none ↔ a.width ∣ a.address.toNat ∧ r.dmmuVirtStart ≤ a.address ∧
      a.address - r.dmmuVirtStart + r.dmmuBase < r.dmmuLimit := by
  rw [← abortAlign_eq_false h]
  have hm : (a.mode == 0) = true := by simpa using h.1
  simp only [MmuRegs.dmmu, simpleMmu, hm, hen, h.2, Bool.and_self, if_true]
  cases abortAlign a
  · simp only [Bool.or_eq_true, decide_eq_true_eq, true_and, Bool.false_eq_true, if_false]
    split
    · rename_i hb
      split <;> simp only [reduceCtorEq, false_iff, not_and, BitVec.not_lt] <;> intro hv <;>
        exact hb.resolve_left (by simpa using hv)
    · rename_i hb
      rw [not_or, BitVec.not_lt, BitVec.not_le] at hb
      simpa using hb
  · simp only [if_true, Bool.true_eq_false, false_and, iff_false]
    split <;> simp

theorem dmmu_physAddress {r : MmuRegs} (hen : r.mmuEnable = true) {a : Access}
    (h : a.IsUserData) :
    (r.dmmu a).physAddress = a.address - r.dmmuVirtStart + r.dmmuBase := by
  simp [MmuRegs.dmmu, simpleMmu, h.1, hen]

/-! ## Confinement to the data region -/

section Confinement

variable (region : Ptr → MemoryRegion) (pcb : Pcb) (r : MmuRegs)

/-- The physical base of a process's data region. -/
def dataBase : Nat := (region pcb.pdataMemoryRegion).physicalBase.toNat

/-- The size of a process's data region. -/
def dataSize : Nat := (region pcb.pdataMemoryRegion).regionSize.toNat

/-- Every user access the MMU lets through, once programmed for `pcb`, is sent to an address of
the process's data region. -/
def AddressConfined : Prop :=
  ∀ a : Access, a.IsUserData → ((mmuSetProc region pcb r).dmmu a).abort = .none →
    dataBase region pcb ≤ ((mmuSetProc region pcb r).dmmu a).physAddress.toNat ∧
      ((mmuSetProc region pcb r).dmmu a).physAddress.toNat <
        dataBase region pcb + dataSize region pcb

/-- The same for every byte the access covers, not only the first. -/
def BytesConfined : Prop :=
  ∀ a : Access, a.IsUserData → ((mmuSetProc region pcb r).dmmu a).abort = .none →
    ∀ k < a.width, dataBase region pcb ≤ ((mmuSetProc region pcb r).dmmu a).physAddress.toNat + k ∧
      ((mmuSetProc region pcb r).dmmu a).physAddress.toNat + k <
        dataBase region pcb + dataSize region pcb

/-- No byte of a user access of `pcb` is one of `other`'s data region, nor — user regions being
above `USER_RAM_START` — one of the kernel's. -/
def Isolated (other : Pcb) : Prop :=
  ∀ a : Access, a.IsUserData → ((mmuSetProc region pcb r).dmmu a).abort = .none →
    ∀ k < a.width,
      ¬ (dataBase region other ≤ ((mmuSetProc region pcb r).dmmu a).physAddress.toNat + k ∧
        ((mmuSetProc region pcb r).dmmu a).physAddress.toNat + k <
          dataBase region other + dataSize region other) ∧
      (0x40000 ≤ dataBase region pcb →
        0x40000 ≤ ((mmuSetProc region pcb r).dmmu a).physAddress.toNat + k)

/-- No aligned access that starts inside a region of `size` bytes at virtual address `start` runs
past its end.  The last aligned address at or below the end is `(start + size) / n * n`, so the
width `n` has to divide the end, or that address has to lie before the region, or the region has to
reach to the top of the address space. -/
def AccessesFit (start size : Nat) : Prop :=
  ∀ k < 4, 2 ^ k ∣ start + size ∨ (start + size) / 2 ^ k * 2 ^ k < start ∨ 2 ^ 32 ≤ start + size

/-- Two data regions have no byte in common. -/
def DataDisjoint (other : Pcb) : Prop :=
  dataBase region pcb + dataSize region pcb ≤ dataBase region other ∨
    dataBase region other + dataSize region other ≤ dataBase region pcb

variable {region pcb r} {other : Pcb}

/-- A user access that passes, in numbers: what the three tests of the MMU amount to once it has
been programmed for a process whose region does not overflow. -/
theorem passes_iff (hen : r.mmuEnable = true)
    (hfit : dataBase region pcb + dataSize region pcb < 2 ^ 32) {a : Access}
    (ha : a.IsUserData) :
    ((mmuSetProc region pcb r).dmmu a).abort = .none ↔
      a.width ∣ a.address.toNat ∧ pcb.pdataStart.toNat ≤ a.address.toNat ∧
        ((mmuSetProc region pcb r).dmmu a).physAddress.toNat <
          dataBase region pcb + dataSize region pcb := by
  have hen' : (mmuSetProc region pcb r).mmuEnable = true := by rw [mmuSetProc_eq]; exact hen
  have hlim : (mmuSetProc region pcb r).dmmuLimit.toNat =
      dataBase region pcb + dataSize region pcb := by
    rw [mmuSetProc_eq, BitVec.toNat_add, Nat.add_comm]
    exact Nat.mod_eq_of_lt hfit
  rw [dmmu_abort_eq_none hen' ha, dmmu_physAddress hen' ha, BitVec.lt_def, hlim, mmuSetProc_eq]
  rfl

theorem physAddress_toNat (hen : r.mmuEnable = true) {a : Access} (ha : a.IsUserData) :
    ((mmuSetProc region pcb r).dmmu a).physAddress.toNat =
      (a.address.toNat + (2 ^ 32 - pcb.pdataStart.toNat) + dataBase region pcb) % 2 ^ 32 := by
  have hen' : (mmuSetProc region pcb r).mmuEnable = true := by rw [mmuSetProc_eq]; exact hen
  rw [dmmu_physAddress hen' ha]
  simp only [mmuSetProc_eq, dataBase, BitVec.toNat_add, BitVec.toNat_sub]
  omega

/-- With the virtual start at or above the base, nothing wraps: a passing access is sent to its
offset from the virtual start, counted from the base. -/
theorem physAddress_of_le (hen : r.mmuEnable = true)
    (hle : dataBase region pcb ≤ pcb.pdataStart.toNat) {a : Access} (ha : a.IsUserData)
    (hv : pcb.pdataStart.toNat ≤ a.address.toNat) :
    ((mmuSetProc region pcb r).dmmu a).physAddress.toNat =
      a.address.toNat - pcb.pdataStart.toNat + dataBase region pcb := by
  have h1 := a.address.isLt
  have h2 := pcb.pdataStart.isLt
  rw [physAddress_toNat hen ha]
  omega

/-- **The way below the base.**  The access at `virtualStart - base`, which wraps, passes and is
sent to physical address zero. -/
theorem translate_below_base (hen : r.mmuEnable = true)
    (hfit : dataBase region pcb + dataSize region pcb < 2 ^ 32)
    (hlt : pcb.pdataStart.toNat < dataBase region pcb) :
    ∃ a : Access, a.IsUserData ∧ ((mmuSetProc region pcb r).dmmu a).abort = .none ∧
      ((mmuSetProc region pcb r).dmmu a).physAddress.toNat = 0 := by
  have h2 := pcb.pdataStart.isLt
  let a : Access := ⟨BitVec.ofNat 32 (2 ^ 32 - dataBase region pcb + pcb.pdataStart.toNat),
    0, 0, true, false⟩
  have ha : a.IsUserData := ⟨rfl, rfl⟩
  have hadr : a.address.toNat = 2 ^ 32 - dataBase region pcb + pcb.pdataStart.toNat := by
    show (BitVec.ofNat 32 _).toNat = _
    rw [BitVec.toNat_ofNat]
    omega
  have hphys : ((mmuSetProc region pcb r).dmmu a).physAddress.toNat = 0 := by
    rw [physAddress_toNat hen ha, hadr]
    omega
  refine ⟨a, ha, (passes_iff hen hfit ha).2 ⟨⟨_, (one_mul _).symm⟩, ?_, ?_⟩, hphys⟩ <;> omega

theorem addressConfined_iff (hen : r.mmuEnable = true)
    (hfit : dataBase region pcb + dataSize region pcb < 2 ^ 32) :
    AddressConfined region pcb r ↔ dataBase region pcb ≤ pcb.pdataStart.toNat := by
  constructor
  · intro h
    by_contra hlt
    obtain ⟨a, ha, hpass, hphys⟩ := translate_below_base hen hfit (by omega)
    have := (h a ha hpass).1
    omega
  · intro hle a ha hpass
    obtain ⟨-, hv, hlim⟩ := (passes_iff hen hfit ha).1 hpass
    refine ⟨?_, hlim⟩
    rw [physAddress_of_le hen hle ha hv]
    omega

/-- An aligned access inside a region on which `AccessesFit` holds ends inside it too. -/
theorem AccessesFit.le {start size addr n : Nat} (hfit : AccessesFit start size)
    (hn : n = 1 ∨ n = 2 ∨ n = 4 ∨ n = 8) (hdvd : n ∣ addr) (hlo : start ≤ addr)
    (hhi : addr < start + size) (htop : addr < 2 ^ 32) : addr + n ≤ start + size := by
  have h0 := hfit 1 (by omega)
  have h1 := hfit 2 (by omega)
  have h2 := hfit 3 (by omega)
  obtain ⟨q, rfl⟩ := hdvd
  rcases hn with rfl | rfl | rfl | rfl <;> omega

/-- Where it fails, some aligned access starts inside the region and ends outside. -/
theorem exists_straddle {start size : Nat} (h : ¬ AccessesFit start size) :
    ∃ k < 4, ∃ addr, 2 ^ k ∣ addr ∧ start ≤ addr ∧ addr < start + size ∧
      start + size < addr + 2 ^ k ∧ addr + 2 ^ k ≤ 2 ^ 32 := by
  simp only [AccessesFit, not_forall, not_or, not_lt, not_le] at h
  obtain ⟨k, hk, hdvd, hlo, htop⟩ := h
  refine ⟨k, hk, (start + size) / 2 ^ k * 2 ^ k, ⟨_, Nat.mul_comm _ _⟩, hlo, ?_, ?_, ?_⟩ <;>
    interval_cases k <;> omega

theorem bytesConfined_iff (hen : r.mmuEnable = true)
    (hfit : dataBase region pcb + dataSize region pcb < 2 ^ 32) :
    BytesConfined region pcb r ↔ dataBase region pcb ≤ pcb.pdataStart.toNat ∧
      AccessesFit pcb.pdataStart.toNat (dataSize region pcb) := by
  constructor
  · intro h
    have hle : dataBase region pcb ≤ pcb.pdataStart.toNat := by
      refine (addressConfined_iff hen hfit).1 fun a ha hpass => ?_
      exact h a ha hpass 0 (by rcases a.width_eq with hw | hw | hw | hw <;> omega)
    refine ⟨hle, by_contra fun hno => ?_⟩
    obtain ⟨k, hk, addr, hdvd, hlo, hhi, hend, htop⟩ := exists_straddle hno
    have hpos : 0 < 2 ^ k := Nat.two_pow_pos k
    let a : Access := ⟨BitVec.ofNat 32 addr, 0, BitVec.ofNat 2 k, true, false⟩
    have ha : a.IsUserData := ⟨rfl, rfl⟩
    have hadr : a.address.toNat = addr := by
      show (BitVec.ofNat 32 addr).toNat = addr
      rw [BitVec.toNat_ofNat]
      omega
    have hw : a.width = 2 ^ k := by
      show 2 ^ (BitVec.ofNat 2 k).toNat = 2 ^ k
      rw [BitVec.toNat_ofNat, Nat.mod_eq_of_lt hk]
    have hphys := physAddress_of_le (r := r) hen hle ha (by omega)
    have hpass := (passes_iff hen hfit ha).2 ⟨by rwa [hw, hadr], by omega, by omega⟩
    have := (h a ha hpass (2 ^ k - 1) (by omega)).2
    omega
  · rintro ⟨hle, hacc⟩ a ha hpass k hk
    obtain ⟨hdvd, hv, hlim⟩ := (passes_iff hen hfit ha).1 hpass
    rw [physAddress_of_le hen hle ha hv] at hlim ⊢
    have := hacc.le a.width_eq hdvd hv (by omega) a.address.isLt
    omega

theorem BytesConfined.isolated (h : BytesConfined region pcb r)
    (hdis : DataDisjoint region pcb other) : Isolated region pcb r other := by
  intro a ha hpass k hk
  have := h a ha hpass k hk
  rcases hdis with hdis | hdis <;> omega

end Confinement

/-- **Process isolation.**  Programmed for a process whose data region does not overflow, the data
MMU sends every user access it lets through into that region exactly when the region's base is not
above the virtual start; it keeps every byte of every such access inside exactly when, in addition,
no aligned access straddles the end; and then no access reaches another process's region or the
kernel. -/
theorem mmuSetProc_confines_iff (region : Ptr → MemoryRegion) (pcb : Pcb) (r : MmuRegs)
    (hen : r.mmuEnable = true) (hfit : dataBase region pcb + dataSize region pcb < 2 ^ 32) :
    (AddressConfined region pcb r ↔ dataBase region pcb ≤ pcb.pdataStart.toNat) ∧
      (BytesConfined region pcb r ↔ dataBase region pcb ≤ pcb.pdataStart.toNat ∧
        AccessesFit pcb.pdataStart.toNat (dataSize region pcb)) ∧
      ∀ other : Pcb, DataDisjoint region pcb other → BytesConfined region pcb r →
        Isolated region pcb r other :=
  ⟨addressConfined_iff hen hfit, bytesConfined_iff hen hfit, fun _ hdis h => h.isolated hdis⟩

/-- A process whose 4 KiB data region is linked where it is loaded: it is confined, and kept apart
from the region that follows. -/
theorem mmuSetProc_confines_identity :
    let region : Ptr → MemoryRegion := fun p => ⟨0x40000 + 0x1000 * p, 0x1000, 1⟩
    let pcb := { Pcb.zero with pdataStart := 0x40000 }
    let other := { Pcb.zero with pdataMemoryRegion := 1 }
    BytesConfined region pcb (mmuInit .reset) ∧ Isolated region pcb (mmuInit .reset) other := by
  intro region pcb other
  obtain ⟨-, hbytes, hiso⟩ := mmuSetProc_confines_iff region pcb (mmuInit .reset) (by decide)
    (by decide)
  have hconf : BytesConfined region pcb (mmuInit .reset) := hbytes.2 ⟨by decide, by
    intro k hk
    interval_cases k <;> decide⟩
  exact ⟨hconf, hiso other (by unfold DataDisjoint; decide) hconf⟩

/-- A program linked at zero, as the user linker script has it, and loaded at the start of user
RAM: the word access at `0xFFFC0000` is let through, to physical address zero. -/
theorem mmuSetProc_not_confined :
    let region : Ptr → MemoryRegion := fun _ => ⟨0x40000, 0x1000, 1⟩
    (mmuInit .reset).mmuEnable = true ∧
      dataBase region Pcb.zero + dataSize region Pcb.zero < 2 ^ 32 ∧
      ((mmuSetProc region Pcb.zero (mmuInit .reset)).dmmu
        ⟨0xFFFC0000, 0, 2, true, false⟩).physAddress = 0 ∧
      ¬ AddressConfined region Pcb.zero (mmuInit .reset) := by
  refine ⟨by decide, by decide, by decide, fun h => ?_⟩
  have := (h ⟨0xFFFC0000, 0, 2, true, false⟩ ⟨rfl, rfl⟩ (by decide)).1
  revert this
  decide

end RiscyOS
