import FacelessOS.Pic.IoApic
import FacelessOS.Power.MadtEncoding

/-!
# Where the timer interrupt goes

A table may name several I/O APICs, each with a range of global interrupts from its base
on. `parse_madt` keeps the last address only and `setup_general_interrupts` takes the
number of the global interrupt, cut to a byte, for the number of the entry: so the timer
is routed to the entry that owns it exactly where the last I/O APIC is the owner and its
base makes no difference (`timerRouted_iff`).
-/

namespace FacelessOS

open RecordWalk

def timerInterrupt (m : Table) : U32 := (acpiRemapIrq m 0).1

/-- The I/O APIC at `q`, alone of all, has this global interrupt in its range: the
interrupts from its base on, as many as it has entries. -/
structure OwnsInterrupt (m : Table) (qs : List ℕ) (pins : ℕ → ℕ) (g : U32) (q : ℕ) :
    Prop where
  mem : q ∈ ioApics m qs
  base_le : (ioApicBase m q).toNat ≤ g.toNat
  lt_end : g.toNat < (ioApicBase m q).toNat + pins q
  unique : ∀ q' ∈ ioApics m qs, (ioApicBase m q').toNat ≤ g.toNat →
    g.toNat < (ioApicBase m q').toNat + pins q' → q' = q

/-- After `parse_madt`, `setup_general_interrupts` writes vector `0x20` into the entry of
the timer at the I/O APIC of the record `q`, and changes no other entry of any I/O APIC,
whatever the entries were before. -/
def TimerRouted (m : Table) (acpi : Acpi) (q : ℕ) : Prop :=
  ∃ pin : Fin 120, (ioApicBase m q).toNat + pin = (timerInterrupt m).toNat ∧
    ∀ (s : IoApics) (ptr : U64) (i : Fin 120),
      (setupGeneralInterrupts m (parseMadt m acpi).1.acpi.ioApicPtr s ptr).redirection i =
        if ptr = ioApicAddr m q ∧ i = pin then 0x20#64 else (s ptr).redirection i

def zeroIoApics : IoApics := fun _ => ⟨0, fun _ => 0⟩

theorem redirection_zeroIoApics (ptr : U64) (i : Fin 120) :
    (zeroIoApics ptr).redirection i = 0#64 := by
  show (0#32 ++ 0#32 : BitVec 64) = 0#64
  decide

theorem redirection_setupGeneralInterrupts (m : Table) (ioApicPtr ptr : U64) (s : IoApics)
    (i : Fin 120) : (setupGeneralInterrupts m ioApicPtr s ptr).redirection i =
      if ptr = ioApicPtr ∧ (i : ℕ) = (timerInterrupt m).toNat % 128 then 0x20#64
      else (s ptr).redirection i := by
  have hbyte : ((timerInterrupt m).setWidth 8).toNat % 128 = (timerInterrupt m).toNat % 128 := by
    rw [BitVec.toNat_setWidth]
    omega
  unfold setupGeneralInterrupts
  rw [redirection_ioapicSetEntry, ← hbyte]
  rfl

variable {m : Table} {qs : List ℕ}

theorem exists_last_ioApic (h : Visits (recordLength m) m.fin sizeofMadt qs) {q : ℕ}
    (hq : q ∈ ioApics m qs) (acpi : Acpi) : ∃ last, (ioApics m qs).getLast? = some last ∧
      (parseMadt m acpi).1.acpi.ioApicPtr = ioApicAddr m last := by
  have hne : ioApics m qs ≠ [] := List.ne_nil_of_mem hq
  refine ⟨_, List.getLast?_eq_some_getLast hne, ?_⟩
  rw [parseMadt_ioApicPtr h, List.getLast?_eq_some_getLast hne]
  rfl

/-- **The timer is routed to its owner exactly where the code need not look for it.** -/
theorem timerRouted_iff {pins : ℕ → ℕ} {q : ℕ}
    (h : Visits (recordLength m) m.fin sizeofMadt qs)
    (hq : OwnsInterrupt m qs pins (timerInterrupt m) q) (acpi : Acpi) :
    TimerRouted m acpi q ↔
      (∃ last, (ioApics m qs).getLast? = some last ∧ ioApicAddr m last = ioApicAddr m q) ∧
      (timerInterrupt m).toNat % 128 < 120 ∧
      (ioApicBase m q).toNat + (timerInterrupt m).toNat % 128 = (timerInterrupt m).toNat := by
  obtain ⟨last, hlast, hptr⟩ := exists_last_ioApic h hq.mem acpi
  unfold TimerRouted
  rw [hptr]
  constructor
  · rintro ⟨pin, hpin, hentries⟩
    -- of zeroed registers only the entry written shows
    have hentry := (hentries zeroIoApics (ioApicAddr m q) pin).trans (if_pos ⟨rfl, rfl⟩)
    rw [redirection_setupGeneralInterrupts, redirection_zeroIoApics] at hentry
    split at hentry
    · rename_i hwritten
      have hlt := pin.isLt
      exact ⟨⟨last, hlast, hwritten.1.symm⟩, by omega, by omega⟩
    · exact absurd hentry (by decide)
  · rintro ⟨⟨last', hlast', haddr⟩, hlt, hbase⟩
    obtain rfl := Option.some.inj (hlast.symm.trans hlast')
    refine ⟨⟨_, hlt⟩, hbase, fun s ptr i => ?_⟩
    rw [redirection_setupGeneralInterrupts, haddr]
    simp only [Fin.ext_iff]

theorem smallMadt_visits : Visits (recordLength (memoryOf (encodeMadt 0 smallMadt)))
    (memoryOf (encodeMadt 0 smallMadt)).fin sizeofMadt (recordOffsets sizeofMadt smallMadt) :=
  (encodeMadt_encodes _ (by decide)).madtRecords.parse_visits

theorem timerRouted_smallMadt :
    TimerRouted (memoryOf (encodeMadt 0 smallMadt)) ⟨0, fun _ => 0, 0⟩ 68 := by
  have howns : OwnsInterrupt (memoryOf (encodeMadt 0 smallMadt))
      (recordOffsets sizeofMadt smallMadt) (fun _ => 24)
      (timerInterrupt (memoryOf (encodeMadt 0 smallMadt))) 68 := by
    constructor
    · decide +kernel
    · decide +kernel
    · decide +kernel
    · decide +kernel
  exact (timerRouted_iff smallMadt_visits howns _).mpr
    ⟨⟨68, by decide +kernel, rfl⟩, by decide +kernel, by decide +kernel⟩

/-- Two I/O APICs of 24 entries; the first one owns interrupt 0. -/
def twoIoApics : List MadtRecord :=
  [⟨.ioApic 0 0 0xfec00000 0, [], by decide⟩, ⟨.ioApic 1 0 0xfec01000 24, [], by decide⟩]

/-- The timer's vector goes to the second one. -/
theorem twoIoApics_missed :
    ¬ ∀ (m : Table) (qs : List ℕ) (pins : ℕ → ℕ) (q : ℕ) (acpi : Acpi),
      Visits (recordLength m) m.fin sizeofMadt qs →
      OwnsInterrupt m qs pins (timerInterrupt m) q → TimerRouted m acpi q := by
  intro hclaim
  have hencodes : EncodesMadt (memoryOf (encodeMadt 0 twoIoApics)) 0 twoIoApics :=
    encodeMadt_encodes _ (by decide)
  have howns : OwnsInterrupt (memoryOf (encodeMadt 0 twoIoApics))
      (recordOffsets sizeofMadt twoIoApics) (fun _ => 24)
      (timerInterrupt (memoryOf (encodeMadt 0 twoIoApics))) 44 := by
    constructor
    · decide +kernel
    · decide +kernel
    · decide +kernel
    · decide +kernel
  obtain ⟨pin, hpin, hentries⟩ := hclaim _ _ _ _ ⟨0, fun _ => 0, 0⟩
    hencodes.madtRecords.parse_visits howns
  have hzero : (timerInterrupt (memoryOf (encodeMadt 0 twoIoApics))).toNat = 0 := by
    decide +kernel
  obtain rfl : pin = 0 := Fin.ext (by omega)
  have hentry := hentries zeroIoApics 0xfec00000 0
  rw [if_pos ⟨by decide +kernel, rfl⟩] at hentry
  exact absurd hentry (by decide +kernel)

end FacelessOS
