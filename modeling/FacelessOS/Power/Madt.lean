import FacelessOS.Basic
import FacelessOS.Lib.RecordWalk
import Mathlib.Logic.Function.Basic

/-!
# The MADT (`acpi.c`, `tables.h`)

The table is read through packed structs, so a table is the bytes from its start
on, with the memory that follows it behind its end. The RSDT holds 32-bit
pointers, so no address computed here wraps.

The header is 44 bytes long, with `length` at offset 4 and `lapic_addr` at 36.
The ends of the walks are `madt + madt->header.length` and, in `smp.c`,
`madt + madt->header.length / 4`: both count in tables, not in bytes.
-/

namespace FacelessOS

open RecordWalk

abbrev Table : Type := ℕ → U8

namespace Table

def u16 (m : Table) (o : ℕ) : U16 := m (o + 1) ++ m o
def u32 (m : Table) (o : ℕ) : U32 := m (o + 3) ++ m (o + 2) ++ m (o + 1) ++ m o

def length (m : Table) : U32 := m.u32 4

def lapicAddr (m : Table) : U32 := m.u32 36

end Table

def sizeofMadt : ℕ := 44

def apicTypeLocalApic : U8 := 0
def apicTypeIoApic : U8 := 1
def apicTypeInterruptOverride : U8 := 2
def maxNeededCores : ℕ := 16

/-- A byte read in a walk: of a record header, at this offset from the start of
the table, or of a field of the record at `record`. -/
inductive MadtRead where
  | header (offset : ℕ)
  | field (record offset : ℕ)
deriving DecidableEq, Repr

def lengthRead (p : ℕ) : MadtRead := .header (p + 1)

def fieldReads (record offset n : ℕ) : List MadtRead :=
  (List.range n).map fun i => .field record (offset + i)

def recordLength (m : Table) (p : ℕ) : ℕ := (m (p + 1)).toNat

/-- The variables of `acpi.c` that `parse_madt` sets. `acpiCpuids` goes on behind
the 16 bytes of the array. -/
structure Acpi where
  localApicAddr : U64
  acpiCpuids : ℕ → U8
  ioApicPtr : U64

/-- The state of the loop of `parse_madt`, with what it prints. -/
structure ParseMadt where
  acpi : Acpi
  cpuidIdx : U8
  out : List LogCall

def localApicRecord (m : Table) (p : ℕ) (st : ParseMadt) : Step ParseMadt MadtRead :=
  -- "We don't need any more cores"
  if st.cpuidIdx.toNat > maxNeededCores then ⟨st, [], false⟩
  else
    let processorId := m (p + 2)
    let apicId := m (p + 3)
    let flags := m.u32 (p + 4)
    { val := {
        acpi := { st.acpi with
          acpiCpuids := Function.update st.acpi.acpiCpuids st.cpuidIdx.toNat processorId }
        cpuidIdx := st.cpuidIdx + 1
        out := st.out ++ [
          ⟨dbgPurple ++ "\n\n---- CPU core found ----\n", []⟩,
          ⟨dbgYellow ++ "<core_info>\n", []⟩,
          ⟨dbgCyan ++ "    Processor ID: %d\n", [processorId.setWidth 64]⟩,
          ⟨dbgCyan ++ "    APIC ID: %d\n", [apicId.setWidth 64]⟩,
          ⟨dbgCyan ++ "    Flags: %x\n", [flags.setWidth 64]⟩,
          ⟨dbgYellow ++ "</core_info>\n\n", []⟩] }
      reads := fieldReads p 2 1 ++ fieldReads p 3 1 ++ fieldReads p 4 4 ++ fieldReads p 2 1
      ret := false }

def ioApicRecord (m : Table) (p : ℕ) (st : ParseMadt) : Step ParseMadt MadtRead :=
  let ioApicId := m (p + 2)
  let ioApicAddr := m.u32 (p + 4)
  let globalSystemInterruptBase := m.u32 (p + 8)
  { val := { st with
      acpi := { st.acpi with ioApicPtr := ioApicAddr.setWidth 64 }
      out := st.out ++ [
        ⟨dbgPurple ++ "\n\n---- I/O APIC found ----\n", []⟩,
        ⟨dbgYellow ++ "<apic_info>\n", []⟩,
        ⟨dbgCyan ++ "    I/O APIC ID: %d\n", [ioApicId.setWidth 64]⟩,
        ⟨dbgCyan ++ "    I/O APIC address: %x\n", [ioApicAddr.setWidth 64]⟩,
        ⟨dbgCyan ++ "    Global system interrupt base: %d\n",
          [globalSystemInterruptBase.setWidth 64]⟩,
        ⟨dbgYellow ++ "</apic_info>\n\n", []⟩] }
    reads := fieldReads p 2 1 ++ fieldReads p 4 4 ++ fieldReads p 8 4 ++ fieldReads p 4 4
    ret := false }

def interruptOverrideRecord (m : Table) (p : ℕ) (st : ParseMadt) :
    Step ParseMadt MadtRead :=
  let bus := m (p + 2)
  let source := m (p + 3)
  let interrupt := m.u32 (p + 4)
  let flags := m.u16 (p + 8)
  { val := { st with
      out := st.out ++ [
        ⟨dbgPurple ++ "\n\n---- Interrupt Override found ----\n", []⟩,
        ⟨dbgYellow ++ "<apic_info>\n", []⟩,
        ⟨dbgCyan ++ "    Bus: %d\n", [bus.setWidth 64]⟩,
        ⟨dbgCyan ++ "    Source: %d\n", [source.setWidth 64]⟩,
        ⟨dbgCyan ++ "    Interrupt: %x\n", [interrupt.setWidth 64]⟩,
        ⟨dbgCyan ++ "    Flags: %x\n", [flags.setWidth 64]⟩,
        ⟨dbgYellow ++ "</apic_info>\n\n", []⟩] }
    reads := fieldReads p 2 1 ++ fieldReads p 3 1 ++ fieldReads p 4 4 ++ fieldReads p 8 2
    ret := false }

def parseRecord (m : Table) (p : ℕ) (st : ParseMadt) : Step ParseMadt MadtRead :=
  let s : Step ParseMadt MadtRead :=
    if m p = apicTypeLocalApic then localApicRecord m p st
    else if m p = apicTypeIoApic then ioApicRecord m p st
    else if m p = apicTypeInterruptOverride then interruptOverrideRecord m p st
    else ⟨st, [], false⟩
  { s with reads := .header p :: s.reads }

/-- The end of the walks of `acpi.c`: `madt + madt->header.length`. -/
def Table.fin (m : Table) : ℕ := sizeofMadt * m.length.toNat

/-- `parse_madt`: what it leaves, and the reads of its walk. -/
def parseMadt (m : Table) (acpi : Acpi) : ParseMadt × List MadtRead :=
  walk (recordLength m) m.fin lengthRead (parseRecord m) (m.fin - sizeofMadt) sizeofMadt
    { acpi := { acpi with localApicAddr := m.lapicAddr.setWidth 64 }
      cpuidIdx := 0
      out := [] }

/-- One record in `acpi_remap_irq`, which returns at the first override of `irq`. -/
def remapRecord (m : Table) (irq : U32) (p : ℕ) (v : U32) : Step U32 MadtRead :=
  if m p = apicTypeInterruptOverride then
    if (m (p + 3)).setWidth 32 = irq then
      ⟨m.u32 (p + 4), .header p :: fieldReads p 3 1 ++ fieldReads p 4 4, true⟩
    else ⟨v, .header p :: fieldReads p 3 1, false⟩
  else ⟨v, [.header p], false⟩

def acpiRemapIrq (m : Table) (irq : U32) : U32 × List MadtRead :=
  walk (recordLength m) m.fin lengthRead (remapRecord m irq) (m.fin - sizeofMadt)
    sizeofMadt irq

end FacelessOS
