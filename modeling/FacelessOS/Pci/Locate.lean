import FacelessOS.Lib.Search
import FacelessOS.Pci.Pci

/-!
# Device search (`locate_pci_device` of `pci.c`)

The three nested loops look at every function once, in the order of bus, slot and function
number, and return the first one that shows the class and the subclass
(`locatePciDevice_cases`). They do not look at the vendor id: an absent function shows class
`0xFF` and subclass `0xFF`, so the search is right exactly when every absent function that
matches comes behind a present one that does (`locatePciDevice_iff`).
-/

namespace FacelessOS

open Search

structure PciDevice where
  bus : U8
  slot : U8
  func : U8
  valid : BitVec 1
deriving DecidableEq, Repr

/-- The body of the innermost loop: the device that is returned, if any. -/
def locateBody (classid subclassid : U8) (bus : U16) (slot func : U8) (pci : Pci) :
    Option PciDevice × Pci :=
  let (deviceClass, pci) := pciGetDeviceClass pci (bus.setWidth 8) slot func
  if deviceClass = classid then
    let (subclass, pci) := pciGetDeviceSubclass pci (bus.setWidth 8) slot func
    if subclass = subclassid then (some ⟨bus.setWidth 8, slot, func, 1#1⟩, pci)
    else (none, pci)
  else (none, pci)

def locateFuncs (classid subclassid : U8) (bus : U16) (slot : U8) (pci : Pci) :
    Option PciDevice × Pci :=
  forLoop 8 (fun func pci => locateBody classid subclassid bus slot func pci) 8 0#8 pci

def locateSlots (classid subclassid : U8) (bus : U16) (pci : Pci) : Option PciDevice × Pci :=
  forLoop 32 (fun slot pci => locateFuncs classid subclassid bus slot pci) 32 0#8 pci

/-- `locate_pci_device`; `dev` is the local variable before anything is stored to it. -/
def locatePciDevice (pci : Pci) (dev : PciDevice) (classid subclassid : U8) : PciDevice × Pci :=
  let (found, pci) :=
    forLoop 256 (fun bus pci => locateSlots classid subclassid bus pci) 256 0#16 pci
  match found with
  | some dev => (dev, pci)
  | none => ({ dev with valid := 0#1 }, pci)

/-! ## What is looked for -/

def Pci.Shows (pci : Pci) (classid subclassid : U8) (x : PciFunction) : Prop :=
  pci.space x 0xB#8 = classid ∧ pci.space x 0xA#8 = subclassid

instance (pci : Pci) (classid subclassid : U8) (x : PciFunction) :
    Decidable (pci.Shows classid subclassid x) := inferInstanceAs (Decidable (_ ∧ _))

/-- There is a function: its vendor id is not all ones. -/
def Pci.Present (pci : Pci) (x : PciFunction) : Prop := (pci.space x).word 0x0#8 ≠ 0xFFFF#16

instance (pci : Pci) (x : PciFunction) : Decidable (pci.Present x) :=
  inferInstanceAs (Decidable (_ ≠ _))

def PciFunction.Before (x y : PciFunction) : Prop :=
  x.bus < y.bus ∨ x.bus = y.bus ∧ (x.slot < y.slot ∨ x.slot = y.slot ∧ x.func < y.func)

/-- The device is valid exactly when a present function matches, and is then the first one
that does. -/
structure LocatesFirst (pci : Pci) (classid subclassid : U8) (dev : PciDevice) : Prop where
  valid_iff : dev.valid = 1#1 ↔ ∃ x, pci.Present x ∧ pci.Shows classid subclassid x
  invalid : (¬ ∃ x, pci.Present x ∧ pci.Shows classid subclassid x) → dev.valid = 0#1
  first : dev.valid = 1#1 → ∃ x, pci.Present x ∧ pci.Shows classid subclassid x ∧
    (dev.bus = x.bus ∧ dev.slot = x.slot.setWidth 8 ∧ dev.func = x.func.setWidth 8) ∧
    ∀ y, pci.Present y → pci.Shows classid subclassid y → ¬ y.Before x

theorem PciFunction.before_trichotomy (x y : PciFunction) : x.Before y ∨ x = y ∨ y.Before x := by
  obtain ⟨b, s, f⟩ := x
  obtain ⟨b', s', f'⟩ := y
  simp only [Before, PciFunction.mk.injEq]
  rcases Nat.lt_trichotomy b.toNat b'.toNat with hb | hb | hb
  · exact Or.inl (Or.inl (BitVec.lt_def.mpr hb))
  · obtain rfl := BitVec.eq_of_toNat_eq hb
    rcases Nat.lt_trichotomy s.toNat s'.toNat with hs | hs | hs
    · exact Or.inl (Or.inr ⟨rfl, Or.inl (BitVec.lt_def.mpr hs)⟩)
    · obtain rfl := BitVec.eq_of_toNat_eq hs
      rcases Nat.lt_trichotomy f.toNat f'.toNat with hf | hf | hf
      · exact Or.inl (Or.inr ⟨rfl, Or.inr ⟨rfl, BitVec.lt_def.mpr hf⟩⟩)
      · exact Or.inr (Or.inl ⟨rfl, rfl, BitVec.eq_of_toNat_eq hf⟩)
      · exact Or.inr (Or.inr (Or.inr ⟨rfl, Or.inr ⟨rfl, BitVec.lt_def.mpr hf⟩⟩))
    · exact Or.inr (Or.inr (Or.inr ⟨rfl, Or.inl (BitVec.lt_def.mpr hs)⟩))
  · exact Or.inr (Or.inr (Or.inl (BitVec.lt_def.mpr hb)))

/-! ## The search -/

theorem word_bytes (hi lo : U8) :
    ((hi ++ lo : U16) >>> 8).setWidth 8 = hi ∧ (hi ++ lo : U16).setWidth 8 = lo := by
  constructor
  all_goals
    refine BitVec.eq_of_getLsbD_eq fun i hi' => ?_
    simp only [BitVec.getLsbD_setWidth, BitVec.getLsbD_ushiftRight, BitVec.getLsbD_append]
    interval_cases i <;> simp

section Search

variable {pci : Pci} {classid subclassid : U8}

theorem pciGetDeviceClass_eq (pci : Pci) {bus slot func : U8} (hslot : slot.toNat < 32)
    (hfunc : func.toNat < 8) :
    (pciGetDeviceClass pci bus slot func).1 = pci.space (.of bus slot func) 0xB#8 := by
  have heven : 0xA#8 &&& 1#8 = 0#8 := by decide
  simp only [pciGetDeviceClass, pciReadWord_eq pci hslot hfunc heven]
  exact (word_bytes _ _).1

theorem pciGetDeviceSubclass_eq (pci : Pci) {bus slot func : U8} (hslot : slot.toNat < 32)
    (hfunc : func.toNat < 8) :
    (pciGetDeviceSubclass pci bus slot func).1 = pci.space (.of bus slot func) 0xA#8 := by
  have heven : 0xA#8 &&& 1#8 = 0#8 := by decide
  simp only [pciGetDeviceSubclass, pciReadWord_eq pci hslot hfunc heven]
  exact (word_bytes _ _).2

/-- What a round of the innermost loop returns. -/
def locateHit (pci : Pci) (classid subclassid : U8) (bus : U16) (slot func : U8) :
    Option PciDevice :=
  if pci.Shows classid subclassid (.of (bus.setWidth 8) slot func) then
    some ⟨bus.setWidth 8, slot, func, 1#1⟩
  else none

theorem locateBody_eq {pci' : Pci} {bus : U16} {slot func : U8} (hslot : slot.toNat < 32)
    (hfunc : func.toNat < 8) (h : pci'.spaces = pci.spaces) :
    (locateBody classid subclassid bus slot func pci').1 =
        locateHit pci classid subclassid bus slot func ∧
      (locateBody classid subclassid bus slot func pci').2.spaces = pci.spaces := by
  have hspace (q : Pci) (hq : q.spaces = pci.spaces) : q.space = pci.space := by
    funext x
    rw [Pci.space, hq, Pci.space]
  have hclass := @pciGetDeviceClass_eq pci' (bus.setWidth 8) slot func hslot hfunc
  have hsub := @pciGetDeviceSubclass_eq (pciGetDeviceClass pci' (bus.setWidth 8) slot func).2
    (bus.setWidth 8) slot func hslot hfunc
  have hkept : (pciGetDeviceClass pci' (bus.setWidth 8) slot func).2.spaces = pci.spaces := h
  rw [hspace _ h] at hclass
  rw [hspace _ hkept] at hsub
  simp only [locateBody, locateHit, hclass, hsub]
  by_cases hc : pci.space (.of (bus.setWidth 8) slot func) 0xB#8 = classid
  · by_cases hs : pci.space (.of (bus.setWidth 8) slot func) 0xA#8 = subclassid
    · have hshows : pci.Shows classid subclassid (.of (bus.setWidth 8) slot func) := ⟨hc, hs⟩
      rw [if_pos hc, if_pos hs, if_pos hshows]
      exact ⟨rfl, h⟩
    · have hshows : ¬ pci.Shows classid subclassid (.of (bus.setWidth 8) slot func) :=
        fun hcs => hs hcs.2
      rw [if_pos hc, if_neg hs, if_neg hshows]
      exact ⟨rfl, h⟩
  · have hshows : ¬ pci.Shows classid subclassid (.of (bus.setWidth 8) slot func) :=
      fun hcs => hc hcs.1
    rw [if_neg hc, if_neg hshows]
    exact ⟨rfl, h⟩

/-- What a slot, a bus and the whole search return. -/
def locateHitSlot (pci : Pci) (classid subclassid : U8) (bus : U16) (slot : U8) :
    Option PciDevice :=
  first 8 fun func : U8 => locateHit pci classid subclassid bus slot func

@[inherit_doc locateHitSlot]
def locateHitBus (pci : Pci) (classid subclassid : U8) (bus : U16) : Option PciDevice :=
  first 32 fun slot : U8 => locateHitSlot pci classid subclassid bus slot

@[inherit_doc locateHitSlot]
def locateHitAll (pci : Pci) (classid subclassid : U8) : Option PciDevice :=
  first 256 fun bus : U16 => locateHitBus pci classid subclassid bus

theorem locateFuncs_eq {pci' : Pci} {bus : U16} {slot : U8} (hslot : slot.toNat < 32)
    (h : pci'.spaces = pci.spaces) :
    (locateFuncs classid subclassid bus slot pci').1 =
        locateHitSlot pci classid subclassid bus slot ∧
      (locateFuncs classid subclassid bus slot pci').2.spaces = pci.spaces := by
  have hbound : 8 < 2 ^ 8 := by decide
  have hbody (func : U8) (q : Pci) (hfunc : func.toNat < 8) (hq : q.spaces = pci.spaces) :=
    @locateBody_eq pci classid subclassid q bus slot func hslot hfunc hq
  exact forLoop_eq_first (fun q : Pci => q.spaces = pci.spaces) hbound hbody (Nat.le_refl 8) h

theorem locateSlots_eq {pci' : Pci} {bus : U16} (h : pci'.spaces = pci.spaces) :
    (locateSlots classid subclassid bus pci').1 = locateHitBus pci classid subclassid bus ∧
      (locateSlots classid subclassid bus pci').2.spaces = pci.spaces := by
  have hbound : 32 < 2 ^ 8 := by decide
  have hbody (slot : U8) (q : Pci) (hslot : slot.toNat < 32) (hq : q.spaces = pci.spaces) :=
    @locateFuncs_eq pci classid subclassid q bus slot hslot hq
  exact forLoop_eq_first (fun q : Pci => q.spaces = pci.spaces) hbound hbody (Nat.le_refl 32) h

theorem locatePciDevice_eq (pci : Pci) (dev : PciDevice) (classid subclassid : U8) :
    (locatePciDevice pci dev classid subclassid).1 =
      (locateHitAll pci classid subclassid).getD { dev with valid := 0#1 } := by
  have hbound : 256 < 2 ^ 16 := by decide
  have hbody (bus : U16) (q : Pci) (_ : bus.toNat < 256) (hq : q.spaces = pci.spaces) :=
    @locateSlots_eq pci classid subclassid q bus hq
  have hall := (forLoop_eq_first (s := pci) (fun q : Pci => q.spaces = pci.spaces) hbound hbody
    (Nat.le_refl 256) rfl).1
  rw [locateHitAll, ← hall, locatePciDevice]
  split
  rename_i found _ hfound
  rw [hfound]
  cases found <;> rfl

theorem locateHit_eq_none {bus : U16} {slot func : U8}
    (h : locateHit pci classid subclassid bus slot func = none) :
    ¬ pci.Shows classid subclassid (.of (bus.setWidth 8) slot func) := by
  intro hshows
  rw [locateHit, if_pos hshows] at h
  cases h

theorem locateHit_eq_some {bus : U16} {slot func : U8} {dev : PciDevice}
    (h : locateHit pci classid subclassid bus slot func = some dev) :
    pci.Shows classid subclassid (.of (bus.setWidth 8) slot func) ∧
      dev = ⟨bus.setWidth 8, slot, func, 1#1⟩ := by
  rw [locateHit] at h
  split at h
  · rename_i hshows
    exact ⟨hshows, (Option.some_inj.mp h).symm⟩
  · cases h

theorem locateHitSlot_eq_none {bus : U16} {slot : U8}
    (h : locateHitSlot pci classid subclassid bus slot = none) (x : PciFunction)
    (hbus : x.bus = bus.setWidth 8) (hslot : x.slot = slot.setWidth 5) :
    ¬ pci.Shows classid subclassid x := by
  have hfunc : (x.func.setWidth 8).toNat < 8 := by bv_omega
  have := locateHit_eq_none ((first_eq_none (by decide)).mp h _ hfunc)
  have hx : PciFunction.of (bus.setWidth 8) slot (x.func.setWidth 8) = x := by
    have hf : (x.func.setWidth 8).setWidth 3 = x.func := by bv_omega
    rw [PciFunction.of, ← hbus, ← hslot, hf]
  rwa [hx] at this

theorem locateHitBus_eq_none {bus : U16}
    (h : locateHitBus pci classid subclassid bus = none) (x : PciFunction)
    (hbus : x.bus = bus.setWidth 8) : ¬ pci.Shows classid subclassid x := by
  have hslot : (x.slot.setWidth 8).toNat < 32 := by bv_omega
  have hs : (x.slot.setWidth 8).setWidth 5 = x.slot := by bv_omega
  exact locateHitSlot_eq_none ((first_eq_none (by decide)).mp h _ hslot) x hbus hs.symm

theorem locatePciDevice_cases (pci : Pci) (dev : PciDevice) (classid subclassid : U8) :
    (∀ x, ¬ pci.Shows classid subclassid x) ∧
        (locatePciDevice pci dev classid subclassid).1 = { dev with valid := 0#1 } ∨
      ∃ x, pci.Shows classid subclassid x ∧ (∀ y, y.Before x → ¬ pci.Shows classid subclassid y) ∧
        (locatePciDevice pci dev classid subclassid).1 =
          ⟨x.bus, x.slot.setWidth 8, x.func.setWidth 8, 1#1⟩ := by
  rw [locatePciDevice_eq]
  cases hall : locateHitAll pci classid subclassid with
  | none =>
      refine Or.inl ⟨fun x => ?_, rfl⟩
      have hbus : (x.bus.setWidth 16).toNat < 256 := by bv_omega
      have hb : (x.bus.setWidth 16).setWidth 8 = x.bus := by bv_omega
      exact locateHitBus_eq_none ((first_eq_none (by decide)).mp hall _ hbus) x hb.symm
  | some found =>
      obtain ⟨bus, hbus, hfound, hbuses⟩ := first_eq_some (by decide) hall
      obtain ⟨slot, hslot, hfound, hslots⟩ := first_eq_some (by decide) hfound
      obtain ⟨func, hfunc, hfound, hfuncs⟩ := first_eq_some (by decide) hfound
      obtain ⟨hshows, rfl⟩ := locateHit_eq_some hfound
      refine Or.inr ⟨_, hshows, fun y hy => ?_, ?_⟩
      · rcases hy with hb | ⟨hb, hs | ⟨hs, hf⟩⟩
        · -- an earlier bus
          have hlt : y.bus.setWidth 16 < bus := by
            simp only [PciFunction.of] at hb
            bv_omega
          have hbv : (y.bus.setWidth 16).setWidth 8 = y.bus := by bv_omega
          exact locateHitBus_eq_none (hbuses _ hlt) y hbv.symm
        · -- an earlier slot of the same bus
          have hlt : y.slot.setWidth 8 < slot := by
            simp only [PciFunction.of] at hs
            bv_omega
          have hsv : (y.slot.setWidth 8).setWidth 5 = y.slot := by bv_omega
          exact locateHitSlot_eq_none (hslots _ hlt) y hb hsv.symm
        · -- an earlier function of the same slot
          have hlt : y.func.setWidth 8 < func := by
            simp only [PciFunction.of] at hf
            bv_omega
          have hy : PciFunction.of (bus.setWidth 8) slot (y.func.setWidth 8) = y := by
            have hfv : (y.func.setWidth 8).setWidth 3 = y.func := by bv_omega
            obtain ⟨b, s, f⟩ := y
            simp only [PciFunction.of] at hb hs hfv ⊢
            rw [hb, hs, hfv]
          exact hy ▸ locateHit_eq_none (hfuncs _ hlt)
      · have hs : (slot.setWidth 5).setWidth 8 = slot := by bv_omega
        have hf : (func.setWidth 3).setWidth 8 = func := by bv_omega
        simp only [PciFunction.of, hs, hf, Option.getD_some]

/-- The search is right exactly when every absent function that shows the class and the
subclass comes behind a present one that does. -/
theorem locatePciDevice_iff (pci : Pci) (dev : PciDevice) (classid subclassid : U8) :
    LocatesFirst pci classid subclassid (locatePciDevice pci dev classid subclassid).1 ↔
      ∀ x, ¬ pci.Present x → pci.Shows classid subclassid x →
        ∃ y, y.Before x ∧ pci.Present y ∧ pci.Shows classid subclassid y := by
  rcases locatePciDevice_cases pci dev classid subclassid with ⟨hnone, hdev⟩ | ⟨x, hx, hfirst, hdev⟩
  · rw [hdev]
    have hinvalid : ¬ 0#1 = 1#1 := by decide
    refine iff_of_true ⟨?_, fun _ => rfl, fun h => absurd h hinvalid⟩
      fun x _ hshows => absurd hshows (hnone x)
    exact iff_of_false hinvalid fun ⟨x, _, hshows⟩ => hnone x hshows
  · rw [hdev]
    constructor
    · intro h z habsent hz
      -- the function that came back is a present one, and none before it matches
      obtain ⟨y, hpresent, hy, ⟨hbus, hslot, hfunc⟩, _⟩ := h.first rfl
      have hxy : x = y := by
        obtain ⟨b, s, f⟩ := x
        obtain ⟨b', s', f'⟩ := y
        simp only [PciFunction.mk.injEq] at hbus hslot hfunc ⊢
        exact ⟨hbus, by bv_omega, by bv_omega⟩
      subst hxy
      rcases x.before_trichotomy z with hlt | rfl | hgt
      · exact ⟨x, hlt, hpresent, hx⟩
      · exact absurd hpresent habsent
      · exact absurd hz (hfirst z hgt)
    · intro h
      have hpresent : pci.Present x := by
        by_contra habsent
        obtain ⟨y, hlt, _, hy⟩ := h x habsent hx
        exact hfirst y hlt hy
      exact ⟨iff_of_true rfl ⟨x, hpresent, hx⟩, fun hnot => absurd ⟨x, hpresent, hx⟩ hnot,
        fun _ => ⟨x, hpresent, hx, ⟨rfl, rfl, rfl⟩, fun y _ hy hlt => hfirst y hlt hy⟩⟩

/-- On an empty bus the search for class `0xFF` and subclass `0xFF` finds a device. -/
theorem locatePciDevice_finds_absent : ¬ ∀ (pci : Pci) (dev : PciDevice) (classid subclassid : U8),
    LocatesFirst pci classid subclassid (locatePciDevice pci dev classid subclassid).1 := by
  intro h
  have habsent (x : PciFunction) : ¬ Pci.Present ⟨fun _ => none, 0#32⟩ x := by
    have hword : (0xFF#8 ++ 0xFF#8 : U16) = 0xFFFF#16 := by decide
    exact fun hx => hx hword
  rcases locatePciDevice_cases ⟨fun _ => none, 0#32⟩ ⟨0#8, 0#8, 0#8, 0#1⟩ 0xFF#8 0xFF#8 with
    ⟨hnone, _⟩ | ⟨x, _, _, hdev⟩
  · exact hnone ⟨0#8, 0#5, 0#3⟩ ⟨rfl, rfl⟩
  · have hvalid := (h ⟨fun _ => none, 0#32⟩ ⟨0#8, 0#8, 0#8, 0#1⟩ 0xFF#8 0xFF#8).valid_iff
    rw [hdev] at hvalid
    obtain ⟨y, hy, _⟩ := hvalid.mp rfl
    exact habsent y hy

end Search

end FacelessOS
