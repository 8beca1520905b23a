import FacelessOS.Power.MadtInterrupts
import Mathlib.Logic.Function.Basic

/-!
# The I/O APIC (`ioapic.c`, `setup_general_interrupts` of `IDT.c`)

The registers of an I/O APIC lie behind a window: a store to `IOREGSEL` selects one, a
store to `IOWIN` writes it. An I/O APIC is known by the address it is mapped at, and
`io_apic_ptr` is that address.
-/

namespace FacelessOS

def ioregsel : U64 := 0x00#64
def iowin : U64 := 0x10#64

def ioapicver : U8 := 0x01#8
def ioredtbl : U8 := 0x10#8

/-- The select register, and the registers behind the window. -/
structure IoApicDev where
  ioregsel : U8
  regs : U8 → U32

/-- The I/O APICs of the machine, by their addresses. -/
abbrev IoApics : Type := U64 → IoApicDev

/-- A store at this offset from the address of the device. -/
def IoApicDev.store (dev : IoApicDev) (offset : U64) (val : U32) : IoApicDev :=
  if offset = FacelessOS.ioregsel then { dev with ioregsel := val.setWidth 8 }
  else if offset = iowin then { dev with regs := Function.update dev.regs dev.ioregsel val }
  else dev

/-- A load at this offset. It has no effect on the device. -/
def IoApicDev.load (dev : IoApicDev) (offset : U64) : U32 :=
  if offset = FacelessOS.ioregsel then dev.ioregsel.setWidth 32
  else if offset = iowin then dev.regs dev.ioregsel
  else 0#32

def ioapicWrite (ioApicPtr : U64) (s : IoApics) (reg : U8) (val : U32) : IoApics :=
  Function.update s ioApicPtr
    (((s ioApicPtr).store ioregsel (reg.setWidth 32)).store iowin val)

/-- `ioapic_read`: the select register is loaded, where `ioapic_write` stores to it, and
what was loaded is dropped. -/
def ioapicRead (ioApicPtr : U64) (s : IoApics) (_reg : U8) : U32 :=
  let _ := (s ioApicPtr).load ioregsel
  (s ioApicPtr).load iowin

/-- `ioapic_set_entry`. The register numbers are passed as bytes and wrap. -/
def ioapicSetEntry (ioApicPtr : U64) (s : IoApics) (entry : U8) (data : U64) : IoApics :=
  let s := ioapicWrite ioApicPtr s (ioredtbl + entry * 2#8) (data.setWidth 32)
  ioapicWrite ioApicPtr s (ioredtbl + entry * 2#8 + 1#8) ((data >>> 32).setWidth 32)

/-- The values of the counter in the loop of `ioapic_init`, as the bytes they are passed
as. -/
def ioapicInitEntries (count : U32) : List U8 :=
  (List.range count.toNat).map (BitVec.ofNat 8)

def ioapicInit (ioApicPtr : U64) (s : IoApics) : IoApics × List LogCall :=
  let inData := ioapicRead ioApicPtr s ioapicver
  let count := (inData >>> 16 &&& 0xFF#32) + 1#32
  ((ioapicInitEntries count).foldl (fun s i => ioapicSetEntry ioApicPtr s i (1#64 <<< 16)) s,
    [⟨kinfo ++ "I/O APIC pins: %d\n", [count.setWidth 64]⟩])

/-- `setup_general_interrupts`: the timer gets vector `0x20`. The interrupt number is
passed as a byte. -/
def setupGeneralInterrupts (m : Table) (ioApicPtr : U64) (s : IoApics) : IoApics :=
  ioapicSetEntry ioApicPtr s ((acpiRemapIrq m 0).1.setWidth 8) 0x20#64

/-! ## Registers -/

theorem ioapicRead_eq (ioApicPtr : U64) (s : IoApics) (reg : U8) :
    ioapicRead ioApicPtr s reg = (s ioApicPtr).regs (s ioApicPtr).ioregsel := by
  unfold ioapicRead IoApicDev.load
  rw [if_neg (show iowin ≠ ioregsel by decide), if_pos rfl]

/-! ## Redirection entries -/

/-- A redirection entry, of those whose two registers a byte can number. -/
def IoApicDev.redirection (dev : IoApicDev) (i : Fin 120) : U64 :=
  dev.regs (ioredtbl + BitVec.ofNat 8 i * 2#8 + 1#8) ++
    dev.regs (ioredtbl + BitVec.ofNat 8 i * 2#8)

variable {ioApicPtr ptr : U64} {s : IoApics}

theorem ioapicWrite_of_ne (hne : ptr ≠ ioApicPtr) (reg : U8) (val : U32) :
    ioapicWrite ioApicPtr s reg val ptr = s ptr :=
  Function.update_of_ne hne _ _

theorem regs_ioapicWrite (reg : U8) (val : U32) :
    (ioapicWrite ioApicPtr s reg val ioApicPtr).regs =
      Function.update (s ioApicPtr).regs reg val := by
  have hsel : (reg.setWidth 32).setWidth 8 = reg := by
    apply BitVec.eq_of_toNat_eq
    rw [BitVec.toNat_setWidth, BitVec.toNat_setWidth]
    omega
  unfold ioapicWrite
  rw [Function.update_self]
  simp only [IoApicDev.store, if_true, hsel, if_neg (show iowin ≠ ioregsel by decide)]

/-- The registers of entry `i` are those that the code computes for `entry` exactly when
the numbers agree modulo 128: twice that is what a byte holds. -/
theorem ioredtbl_eq_iff {entry : U8} {i : Fin 120} :
    ioredtbl + BitVec.ofNat 8 i * 2#8 = ioredtbl + entry * 2#8 ↔
      (i : ℕ) = entry.toNat % 128 := by
  have hi := i.isLt
  rw [BitVec.add_right_inj, ← BitVec.toNat_inj]
  simp only [BitVec.toNat_mul, BitVec.toNat_ofNat]
  omega

theorem ioredtbl_ne_succ (a b : U8) : ioredtbl + a * 2#8 ≠ ioredtbl + b * 2#8 + 1#8 := by
  rw [ne_eq, BitVec.add_assoc, BitVec.add_right_inj, ← BitVec.toNat_inj]
  simp only [BitVec.toNat_add, BitVec.toNat_mul, BitVec.toNat_ofNat]
  omega

theorem append_words (data : U64) :
    (data >>> 32).setWidth 32 ++ data.setWidth 32 = data := by
  apply BitVec.eq_of_toNat_eq
  rw [BitVec.toNat_append, BitVec.toNat_setWidth, BitVec.toNat_setWidth,
    BitVec.toNat_ushiftRight, Nat.shiftRight_eq_div_pow,
    ← Nat.shiftLeft_add_eq_or_of_lt (Nat.mod_lt _ (by decide)), Nat.shiftLeft_eq]
  omega

theorem redirection_ioapicSetEntry (entry : U8) (data : U64) (i : Fin 120) :
    (ioapicSetEntry ioApicPtr s entry data ptr).redirection i =
      if ptr = ioApicPtr ∧ (i : ℕ) = entry.toNat % 128 then data
      else (s ptr).redirection i := by
  unfold ioapicSetEntry
  by_cases hptr : ptr = ioApicPtr
  · subst hptr
    have hregs : ∀ r, (ioapicWrite ptr (ioapicWrite ptr s (ioredtbl + entry * 2#8)
        (data.setWidth 32)) (ioredtbl + entry * 2#8 + 1#8) ((data >>> 32).setWidth 32)
        ptr).regs r =
        if r = ioredtbl + entry * 2#8 + 1#8 then (data >>> 32).setWidth 32
        else if r = ioredtbl + entry * 2#8 then data.setWidth 32 else (s ptr).regs r := by
      intro r
      rw [regs_ioapicWrite, regs_ioapicWrite, Function.update_apply, Function.update_apply]
    simp only [IoApicDev.redirection, hregs]
    rw [if_neg (ioredtbl_ne_succ _ _), if_neg (Ne.symm (ioredtbl_ne_succ _ _))]
    simp only [BitVec.add_left_inj, ioredtbl_eq_iff, true_and]
    split
    · exact append_words data
    · rfl
  · rw [ioapicWrite_of_ne hptr, ioapicWrite_of_ne hptr, if_neg fun h => hptr h.1]

end FacelessOS
