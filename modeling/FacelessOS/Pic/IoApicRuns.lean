import FacelessOS.Lib.LastWrite
import FacelessOS.Pic.IoApic

/-!
# Runs of `ioapic_set_entry` (`ioapic.c`)

The redirection entries behave as an array: each holds what was set last, if the number is
taken modulo 128. A read does not: `ioapic_read` gives the word that was written last,
whatever register it is asked for (`ioapicSetEntries_last`).
-/

namespace FacelessOS

open LastWrite

structure IoApicCall where
  ioApicPtr : U64
  entry : U8
  data : U64
deriving DecidableEq, Repr

def IoApicCall.sets (ptr : U64) (i : Fin 120) (c : IoApicCall) : Bool :=
  ptr = c.ioApicPtr ∧ (i : ℕ) = c.entry.toNat % 128

def IoApicCall.upper (c : IoApicCall) : U32 := (c.data >>> 32).setWidth 32

def ioapicSetEntries (s : IoApics) (calls : List IoApicCall) : IoApics :=
  calls.foldl (fun s c => ioapicSetEntry c.ioApicPtr s c.entry c.data) s

theorem ioapicRead_setEntry (ioApicPtr ptr : U64) (s : IoApics) (entry reg : U8) (data : U64) :
    ioapicRead ptr (ioapicSetEntry ioApicPtr s entry data) reg =
      if ptr = ioApicPtr then (data >>> 32).setWidth 32 else ioapicRead ptr s reg := by
  rw [ioapicRead_eq, ioapicRead_eq]
  unfold ioapicSetEntry
  by_cases hptr : ptr = ioApicPtr
  · subst hptr
    have hsel : ∀ (s : IoApics) (r : U8) (val : U32),
        (ioapicWrite ptr s r val ptr).ioregsel = r := by
      intro s r val
      unfold ioapicWrite
      rw [Function.update_self]
      simp [IoApicDev.store, iowin, FacelessOS.ioregsel]
    rw [if_pos rfl, hsel, regs_ioapicWrite, Function.update_self]
  · rw [if_neg hptr, ioapicWrite_of_ne hptr, ioapicWrite_of_ne hptr]

/-- **Entries are an array, reads are not.** After every run of calls, for any I/O APICs: an
entry holds the data of the last call for it, and a read of any register gives the upper
word of the last call for that I/O APIC, or without one the register selected before. -/
theorem ioapicSetEntries_last (s : IoApics) (calls : List IoApicCall) (ptr : U64) :
    (∀ i : Fin 120, (ioapicSetEntries s calls ptr).redirection i =
      ((last (IoApicCall.sets ptr i) calls).map IoApicCall.data).getD
        ((s ptr).redirection i)) ∧
    ∀ reg, ioapicRead ptr (ioapicSetEntries s calls) reg =
      ((last (fun c => ptr = c.ioApicPtr) calls).map IoApicCall.upper).getD
        ((s ptr).regs (s ptr).ioregsel) := by
  constructor
  · intro i
    apply foldl_last (g := fun s : IoApics => (s ptr).redirection i)
    intro s c
    rw [redirection_ioapicSetEntry, IoApicCall.sets]
    simp only [decide_eq_true_eq]
  · intro reg
    rw [← ioapicRead_eq ptr s reg]
    apply foldl_last (g := fun s : IoApics => ioapicRead ptr s reg)
    intro s c
    rw [ioapicRead_setEntry, IoApicCall.upper]
    simp only [decide_eq_true_eq]

end FacelessOS
