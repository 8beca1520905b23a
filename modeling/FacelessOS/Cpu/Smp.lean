import FacelessOS.Cpu.Lapic
import FacelessOS.Power.Madt

/-!
# Waking up the other cores (`smp.c`)
-/

namespace FacelessOS

open RecordWalk

/-- The end of the walk of `smp.c`: `madt + madt->header.length / 4`. -/
def Table.coresFin (m : Table) : ℕ := sizeofMadt * (m.length.toNat / 4)

def detectRecord (m : Table) (p : ℕ) (ncores : U8) : Step U8 MadtRead :=
  ⟨if m p = apicTypeLocalApic then ncores + 1 else ncores, [.header p], false⟩

/-- `cpu_detect_cores`, from a value of the static `ncores`: its value afterwards,
which is returned, and the reads of the walk. -/
def cpuDetectCores (m : Table) (ncores : U8) : U8 × List MadtRead :=
  if ncores > 0 then (ncores, [])
  else
    walk (recordLength m) m.coresFin lengthRead (detectRecord m) (m.coresFin - sizeofMadt)
      sizeofMadt ncores

def sendStartups (lapicId : U32) (acpiCpuids : ℕ → U8) (ncores : U8) : List SmpEvent :=
  (List.range ncores.toNat).flatMap fun i =>
    let apicId := (acpiCpuids i).setWidth 32
    if apicId ≠ lapicGetId lapicId then lapicSendStartup apicId 0x8#32 else []

/-- `cpu_wakeup_cores`, on a boot processor whose register `LAPIC_ID` is `lapicId`. -/
def cpuWakeupCores (lapicId : U32) (acpiCpuids : ℕ → U8) (ncores : U8) : List SmpEvent :=
  [.log ⟨"Waking up all cores.\n", []⟩, .log ⟨"WAKE UP CORES!!!!!!!\n", []⟩] ++
    (List.range ncores.toNat).flatMap fun i =>
      let apicId := (acpiCpuids i).setWidth 32
      (if apicId ≠ lapicGetId lapicId then lapicSendInit apicId else []) ++
        [.pitSleep 50] ++ sendStartups lapicId acpiCpuids ncores ++ [.pitSleep 50]

end FacelessOS
