import FacelessOS.Basic
import Mathlib.Tactic.IntervalCases

/-!
# The PCI configuration space (`pci.c`)

A function is addressed by bus, slot and function number, and holds 256 bytes. The address
that was last written to port `0xCF8` selects a function and a register of it for reads of
port `0xCFC`. A function that is absent reads as all ones.

`pci_read_word` reads the 16-bit word at an even offset (`pciReadWord_eq`).
`pci_get_device_bar5` shifts the upper half of BAR5 out of its word and returns the lower
half alone (`pciGetDeviceBar5_iff`).
-/

namespace FacelessOS

abbrev ConfigSpace : Type := U8 → U8

def ConfigSpace.word (c : ConfigSpace) (offset : U8) : U16 := c (offset + 1#8) ++ c offset

def ConfigSpace.dword (c : ConfigSpace) (offset : U8) : U32 :=
  c.word (offset + 2#8) ++ c.word offset

structure PciFunction where
  bus : U8
  slot : BitVec 5
  func : BitVec 3
deriving DecidableEq, Repr

/-- The functions on the bus, and the address that port `0xCF8` holds. -/
structure Pci where
  spaces : PciFunction → Option ConfigSpace
  configAddr : U32

/-- An absent function reads as all ones. -/
def Pci.space (pci : Pci) (x : PciFunction) : ConfigSpace :=
  (pci.spaces x).getD fun _ => 0xFF#8

def Pci.outConfigAddr (pci : Pci) (address : U32) : Pci := { pci with configAddr := address }

/-- `inportl(CONFIG_DATA)`: the register that is selected, if the enable bit is set. -/
def Pci.inConfigData (pci : Pci) : U32 :=
  if pci.configAddr.msb then
    (pci.space ⟨pci.configAddr.extractLsb' 16 8, pci.configAddr.extractLsb' 11 5,
      pci.configAddr.extractLsb' 8 3⟩).dword (pci.configAddr.setWidth 8 &&& 0xFC#8)
  else 0xFFFFFFFF#32

def pciAddress (bus slot func offset : U8) : U32 :=
  let lbus := bus.setWidth 32
  let lslot := slot.setWidth 32
  let lfunc := func.setWidth 32
  (lbus <<< 16) ||| (lslot <<< 11) ||| (lfunc <<< 8) ||| (offset &&& 0xFC#8).setWidth 32 |||
    0x80000000#32

def pciReadWord (pci : Pci) (bus slot func offset : U8) : U16 × Pci :=
  let pci := pci.outConfigAddr (pciAddress bus slot func offset)
  let tmp := ((pci.inConfigData >>> ((offset &&& 2#8).toNat * 8)) &&& 0xFFFF#32).setWidth 16
  (tmp, pci)

def pciGetDeviceVendorid (pci : Pci) (bus slot func : U8) : U16 × Pci :=
  pciReadWord pci bus slot func 0x0#8

def pciGetDeviceId (pci : Pci) (bus slot func : U8) : U16 × Pci :=
  pciReadWord pci bus slot func 0x2#8

def pciGetDeviceClass (pci : Pci) (bus slot func : U8) : U8 × Pci :=
  let (word, pci) := pciReadWord pci bus slot func 0xA#8
  ((word >>> 8).setWidth 8, pci)

def pciGetDeviceSubclass (pci : Pci) (bus slot func : U8) : U8 × Pci :=
  let (word, pci) := pciReadWord pci bus slot func 0xA#8
  (word.setWidth 8, pci)

/-- `pci_get_device_bar5`; `>>` and `<<` are taken of the words as `int`s. -/
def pciGetDeviceBar5 (pci : Pci) (bus slot func : U8) : U32 × Pci :=
  let (lo, pci) := pciReadWord pci bus slot func 0x24#8
  let (word, pci) := pciReadWord pci bus slot func 0x26#8
  let hi : U16 := (word.setWidth 32 >>> 16).setWidth 16
  ((hi.setWidth 32 <<< 16) ||| lo.setWidth 32, pci)

/-! ## Addresses -/

def PciFunction.of (bus slot func : U8) : PciFunction :=
  ⟨bus, slot.setWidth 5, func.setWidth 3⟩

section Address

variable (b : U8) (s : BitVec 5) (f : BitVec 3) (o : U8)

theorem bus_pciAddress :
    (pciAddress b (s.setWidth 8) (f.setWidth 8) o).extractLsb' 16 8 = b := by
  refine BitVec.eq_of_getLsbD_eq fun i hi => ?_
  interval_cases i <;> simp [pciAddress]

theorem slot_pciAddress :
    (pciAddress b (s.setWidth 8) (f.setWidth 8) o).extractLsb' 11 5 = s := by
  refine BitVec.eq_of_getLsbD_eq fun i hi => ?_
  interval_cases i <;> simp [pciAddress]

theorem func_pciAddress :
    (pciAddress b (s.setWidth 8) (f.setWidth 8) o).extractLsb' 8 3 = f := by
  refine BitVec.eq_of_getLsbD_eq fun i hi => ?_
  interval_cases i <;> simp [pciAddress]

theorem register_pciAddress :
    (pciAddress b (s.setWidth 8) (f.setWidth 8) o).setWidth 8 &&& 0xFC#8 = o &&& 0xFC#8 := by
  refine BitVec.eq_of_getLsbD_eq fun i hi => ?_
  interval_cases i <;> simp [pciAddress]

theorem enable_pciAddress :
    (pciAddress b (s.setWidth 8) (f.setWidth 8) o).msb = true := by
  have h : (0x80000000#32).msb = true := rfl
  rw [pciAddress, BitVec.msb_or, h, Bool.or_true]

end Address

theorem inConfigData_pciAddress (pci : Pci) {bus slot func : U8} (offset : U8)
    (hslot : slot.toNat < 32) (hfunc : func.toNat < 8) :
    (pci.outConfigAddr (pciAddress bus slot func offset)).inConfigData =
      (pci.space (.of bus slot func)).dword (offset &&& 0xFC#8) := by
  have hs : (slot.setWidth 5).setWidth 8 = slot := by bv_omega
  have hf : (func.setWidth 3).setWidth 8 = func := by bv_omega
  have hbus := bus_pciAddress bus (slot.setWidth 5) (func.setWidth 3) offset
  have hslot' := slot_pciAddress bus (slot.setWidth 5) (func.setWidth 3) offset
  have hfunc' := func_pciAddress bus (slot.setWidth 5) (func.setWidth 3) offset
  have hreg := register_pciAddress bus (slot.setWidth 5) (func.setWidth 3) offset
  have hen := enable_pciAddress bus (slot.setWidth 5) (func.setWidth 3) offset
  rw [hs, hf] at hbus hslot' hfunc' hreg hen
  simp only [Pci.inConfigData, Pci.outConfigAddr, hbus, hslot', hfunc', hreg, hen, if_true]
  rfl

/-! ## Words -/

theorem append_low (hi lo : U16) : (((hi ++ lo : U32) >>> 0) &&& 0xFFFF#32).setWidth 16 = lo := by
  refine BitVec.eq_of_getLsbD_eq fun i hi => ?_
  simp only [BitVec.getLsbD_setWidth, BitVec.getLsbD_and, BitVec.getLsbD_ushiftRight,
    BitVec.getLsbD_append]
  interval_cases i <;> simp

theorem append_high (hi lo : U16) :
    (((hi ++ lo : U32) >>> 16) &&& 0xFFFF#32).setWidth 16 = hi := by
  refine BitVec.eq_of_getLsbD_eq fun i hi => ?_
  simp only [BitVec.getLsbD_setWidth, BitVec.getLsbD_and, BitVec.getLsbD_ushiftRight,
    BitVec.getLsbD_append]
  interval_cases i <;> simp

theorem even_offset : ∀ o : U8, o &&& 1#8 = 0#8 →
    (o &&& 2#8 = 0#8 ∧ o &&& 0xFC#8 = o) ∨ (o &&& 2#8 = 2#8 ∧ (o &&& 0xFC#8) + 2#8 = o) := by
  decide

theorem pciReadWord_eq (pci : Pci) {bus slot func offset : U8} (hslot : slot.toNat < 32)
    (hfunc : func.toNat < 8) (heven : offset &&& 1#8 = 0#8) :
    (pciReadWord pci bus slot func offset).1 = (pci.space (.of bus slot func)).word offset := by
  rw [pciReadWord]
  simp only [inConfigData_pciAddress pci offset hslot hfunc, ConfigSpace.dword]
  rcases even_offset offset heven with ⟨h2, hreg⟩ | ⟨h2, hreg⟩
  · rw [h2, hreg]
    exact append_low _ _
  · rw [h2, hreg]
    exact append_high _ _

/-! ## BAR5 -/

theorem setWidth_eq_append_iff (hi lo : U16) : lo.setWidth 32 = (hi ++ lo : U32) ↔ hi = 0#16 := by
  rw [BitVec.toNat_eq, BitVec.toNat_setWidth, BitVec.toNat_append, BitVec.toNat_eq,
    Nat.mod_eq_of_lt (by omega), ← Nat.shiftLeft_add_eq_or_of_lt lo.isLt, Nat.shiftLeft_eq]
  simp

theorem word_shift_width (word : U16) : (word.setWidth 32 >>> 16).setWidth 16 = 0#16 := by
  refine BitVec.eq_of_toNat_eq ?_
  rw [BitVec.toNat_setWidth, BitVec.toNat_ushiftRight, BitVec.toNat_setWidth,
    Nat.mod_eq_of_lt (a := word.toNat) (by omega), Nat.shiftRight_eq_div_pow,
    Nat.div_eq_of_lt word.isLt]
  rfl

/-- `pci_get_device_bar5` returns the lower half of BAR5. -/
theorem pciGetDeviceBar5_eq (pci : Pci) {bus slot func : U8} (hslot : slot.toNat < 32)
    (hfunc : func.toNat < 8) : (pciGetDeviceBar5 pci bus slot func).1 =
      ((pci.space (.of bus slot func)).word 0x24#8).setWidth 32 := by
  have heven : 0x24#8 &&& 1#8 = 0#8 := by decide
  rw [pciGetDeviceBar5]
  simp only [word_shift_width, pciReadWord_eq pci hslot hfunc heven]
  simp

/-- The value of BAR5 comes back whole, and both of its words are read right, exactly when
its upper half is zero. -/
theorem pciGetDeviceBar5_iff (pci : Pci) (bus slot func : U8) (hslot : slot.toNat < 32)
    (hfunc : func.toNat < 8) :
    ((pciReadWord pci bus slot func 0x24#8).1 = (pci.space (.of bus slot func)).word 0x24#8 ∧
      (pciReadWord pci bus slot func 0x26#8).1 = (pci.space (.of bus slot func)).word 0x26#8 ∧
      (pciGetDeviceBar5 pci bus slot func).1 = (pci.space (.of bus slot func)).dword 0x24#8) ↔
    (pci.space (.of bus slot func)).word 0x26#8 = 0#16 := by
  have hlo := @pciReadWord_eq pci bus slot func 0x24#8 hslot hfunc (by decide)
  have hhi := @pciReadWord_eq pci bus slot func 0x26#8 hslot hfunc (by decide)
  rw [pciGetDeviceBar5_eq pci hslot hfunc, ConfigSpace.dword, setWidth_eq_append_iff]
  exact ⟨fun h => h.2.2, fun h => ⟨hlo, hhi, h⟩⟩

def barSpace : ConfigSpace := fun offset =>
  if offset = 0x25#8 then 0x10#8
  else if offset = 0x26#8 then 0xBF#8
  else if offset = 0x27#8 then 0xFE#8
  else 0#8

def barPci : Pci := ⟨fun x => if x = .of 0#8 2#8 0#8 then some barSpace else none, 0#32⟩

theorem pciGetDeviceBar5_iff_function :
    ((pciReadWord barPci 0#8 2#8 0#8 0x24#8).1 = (barPci.space (.of 0#8 2#8 0#8)).word 0x24#8 ∧
      (pciReadWord barPci 0#8 2#8 0#8 0x26#8).1 = (barPci.space (.of 0#8 2#8 0#8)).word 0x26#8 ∧
      (pciGetDeviceBar5 barPci 0#8 2#8 0#8).1 = (barPci.space (.of 0#8 2#8 0#8)).dword 0x24#8) ↔
    (barPci.space (.of 0#8 2#8 0#8)).word 0x26#8 = 0#16 :=
  pciGetDeviceBar5_iff barPci 0#8 2#8 0#8 (by decide) (by decide)

/-- BAR5 of that function reads as `0x1000`. -/
theorem pciGetDeviceBar5_halved : ¬ ∀ (pci : Pci) (bus slot func : U8), slot.toNat < 32 →
    func.toNat < 8 →
      (pciReadWord pci bus slot func 0x24#8).1 = (pci.space (.of bus slot func)).word 0x24#8 ∧
      (pciReadWord pci bus slot func 0x26#8).1 = (pci.space (.of bus slot func)).word 0x26#8 ∧
      (pciGetDeviceBar5 pci bus slot func).1 = (pci.space (.of bus slot func)).dword 0x24#8 :=
  fun h => absurd (h barPci 0#8 2#8 0#8 (by decide) (by decide)).2.2 (by decide)

end FacelessOS
