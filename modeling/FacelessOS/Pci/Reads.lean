import FacelessOS.Pci.Pci

/-!
# Reads of the configuration space with any arguments (`pci.c`)

`pci_read_word` checks nothing. The bits of the slot and of the function that do not fit
into their fields go on into the next field of the address, and the lowest bit of the offset
is dropped (`pciReads_eq`).
-/

namespace FacelessOS

structure PciRead where
  bus : U8
  slot : U8
  func : U8
  offset : U8
deriving DecidableEq, Repr

def PciRead.target (r : PciRead) : PciFunction :=
  ⟨r.bus ||| r.slot >>> 5, (r.slot ||| r.func >>> 3).setWidth 5, r.func.setWidth 3⟩

/-- The function that is asked for, where there is one. -/
def PciRead.Names (r : PciRead) (x : PciFunction) : Prop :=
  r.bus = x.bus ∧ r.slot = x.slot.setWidth 8 ∧ r.func = x.func.setWidth 8

def pciReads (pci : Pci) : List PciRead → List U16 × Pci
  | [] => ([], pci)
  | r :: reads =>
      let (word, pci) := pciReadWord pci r.bus r.slot r.func r.offset
      let (words, pci) := pciReads pci reads
      (word :: words, pci)

section Address

variable (b s f o : U8)

theorem bus_pciAddress_or :
    (pciAddress b s f o).extractLsb' 16 8 = b ||| s >>> 5 := by
  refine BitVec.eq_of_getLsbD_eq fun i hi => ?_
  interval_cases i <;> simp [pciAddress]

theorem slot_pciAddress_or :
    (pciAddress b s f o).extractLsb' 11 5 = (s ||| f >>> 3).setWidth 5 := by
  refine BitVec.eq_of_getLsbD_eq fun i hi => ?_
  interval_cases i <;> simp [pciAddress]

theorem func_pciAddress_low : (pciAddress b s f o).extractLsb' 8 3 = f.setWidth 3 := by
  refine BitVec.eq_of_getLsbD_eq fun i hi => ?_
  interval_cases i <;> simp [pciAddress]

theorem register_pciAddress_low :
    (pciAddress b s f o).setWidth 8 &&& 0xFC#8 = o &&& 0xFC#8 := by
  refine BitVec.eq_of_getLsbD_eq fun i hi => ?_
  interval_cases i <;> simp [pciAddress]

theorem enable_pciAddress_msb : (pciAddress b s f o).msb = true := by
  have h : (0x80000000#32).msb = true := rfl
  rw [pciAddress, BitVec.msb_or, h, Bool.or_true]

end Address

theorem offset_cases : ∀ o : U8,
    (o &&& 2#8 = 0#8 ∧ o &&& 0xFC#8 = o &&& 0xFE#8) ∨
      (o &&& 2#8 = 2#8 ∧ (o &&& 0xFC#8) + 2#8 = o &&& 0xFE#8) := by
  decide

theorem pciReadWord_fst (pci : Pci) (r : PciRead) :
    (pciReadWord pci r.bus r.slot r.func r.offset).1 =
      (pci.space r.target).word (r.offset &&& 0xFE#8) := by
  rw [pciReadWord]
  simp only [Pci.inConfigData, Pci.outConfigAddr, bus_pciAddress_or, slot_pciAddress_or,
    func_pciAddress_low, register_pciAddress_low, enable_pciAddress_msb, if_true,
    ConfigSpace.dword]
  rcases offset_cases r.offset with ⟨h2, hreg⟩ | ⟨h2, hreg⟩
  · rw [h2, hreg]
    exact append_low _ _
  · rw [h2, hreg]
    exact append_high _ _

theorem target_eq_iff {r : PciRead} (hslot : r.slot.toNat < 32) (hfunc : r.func.toNat < 8)
    (x : PciFunction) : r.target = x ↔ r.Names x := by
  have hfunc' : r.func >>> 3 = 0#8 := by
    apply BitVec.eq_of_toNat_eq
    rw [BitVec.toNat_ushiftRight, Nat.shiftRight_eq_div_pow]
    exact Nat.div_eq_of_lt hfunc
  have hslot' : r.slot >>> 5 = 0#8 := by
    apply BitVec.eq_of_toNat_eq
    rw [BitVec.toNat_ushiftRight, Nat.shiftRight_eq_div_pow]
    exact Nat.div_eq_of_lt hslot
  unfold PciRead.target PciRead.Names
  rw [hfunc', hslot', BitVec.or_zero, BitVec.or_zero]
  constructor
  · rintro rfl
    refine ⟨rfl, ?_, ?_⟩
    · bv_omega
    · bv_omega
  · rintro ⟨hb, hs, hf⟩
    rw [hb, hs, hf]
    cases x
    rw [PciFunction.mk.injEq]
    refine ⟨rfl, ?_, ?_⟩
    · bv_omega
    · bv_omega

/-- **Every read is that of its target**, whatever the arguments and whatever was read
before; and the targets of numbers that fit are the functions that they name. -/
theorem pciReads_eq (pci : Pci) (reads : List PciRead) :
    (pciReads pci reads).1 =
      reads.map (fun r => (pci.space r.target).word (r.offset &&& 0xFE#8)) ∧
    (pciReads pci reads).2.spaces = pci.spaces ∧
    ∀ r ∈ reads, r.slot.toNat < 32 → r.func.toNat < 8 → ∀ x, r.target = x ↔ r.Names x := by
  refine ⟨?_, ?_, fun r _ hslot hfunc x => target_eq_iff hslot hfunc x⟩
  · induction reads generalizing pci with
    | nil => rfl
    | cons r reads ih =>
        rw [List.map_cons, ← pciReadWord_fst]
        exact congrArg _ (ih _)
  · induction reads generalizing pci with
    | nil => rfl
    | cons r reads ih => exact ih _

end FacelessOS
