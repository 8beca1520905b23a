import FacelessOS.Boot.Init
import FacelessOS.Cpu.LapicRegs
import FacelessOS.Pic.TimerIrq
import FacelessOS.Timer.PitInit

/-!
# Boot and interrupts (`kernel.c`)

The calls of `init` as they change what decides about interrupts. `init` enables them once,
and when it does the whole way of the timer is there: so wherever boot is, an interrupt that
is taken finds its handler (`boot_interrupts_ready`).
-/

namespace FacelessOS.Boot

open ByteStore

/-- What the calls of `init` change on the way of an interrupt: the segment registers with
the interrupt flag, the table in use and its limit, the timer, the local APIC, the I/O
APICs, and the variables of `acpi.c` and `smp.c`. -/
structure Machine where
  segments : Segments
  idt : Idt
  idtrLimit : U16
  pit : PitChannel
  lapic : LapicRegs
  ioApics : IoApics
  acpi : Acpi
  madt : U64
  ncores : U8

/-- The memory with the tags and the ACPI tables, which boot leaves alone, and where the
handlers and the literal `"APIC"` lie. -/
structure Image where
  mem : Store 64
  fuel : ℕ
  address : ExceptionHandler → U64
  irq0 : U64
  apic : U64

def Image.table (image : Image) (madt : U64) : Table := fun i => image.mem (madt + BitVec.ofNat 64 i)

def lapicIdReg : U32 := 0x0020#32

/-- `acpi_init` from `parse_madt` on. -/
def madtStep (image : Image) (s : Machine) (madt : U64) : Machine :=
  let acpi := (parseMadt (image.table madt) s.acpi).1.acpi
  { s with
    madt := madt
    acpi := acpi
    lapic := lapicStores s.lapic initLapic
    ioApics := (ioapicInit acpi.ioApicPtr s.ioApics).1
    ncores := (cpuDetectCores (image.table madt) s.ncores).1 }

/-- `acpi_init`; `none` where it panics. -/
def acpiInitStep (image : Image) (s : Machine) (ss : U64) : Option Machine :=
  ((acpiInit image.mem image.fuel ss image.apic).bind fun result => result.1.toOption).map
    fun found => madtStep image s found.1

/-- A call of `init`; `none` where it does not come back. -/
def bootStep (image : Image) (s : Machine) : BootCall → Option Machine
  | .logInit _ => some s
  | .gdtLoad => some { s with segments := gdtLoad }
  | .log _ => some s
  | .idtInstall =>
      some { s with
        idt := FacelessOS.idtInstall image.address image.irq0
        idtrLimit := FacelessOS.idtrLimit }
  | .pmmInit _ => some s
  | .vmmInit _ => some s
  | .pitInit freqHz =>
      (FacelessOS.pitInit freqHz).map fun writes =>
        { s with pit := writes.foldl PitChannel.out s.pit }
  | .acpiInit ss => acpiInitStep image s ss
  | .setupGeneralInterrupts =>
      some { s with
        ioApics := FacelessOS.setupGeneralInterrupts (image.table s.madt) s.acpi.ioApicPtr
          s.ioApics }
  | .sti => some { s with segments := { s.segments with interruptFlag := true } }
  | .cpuWakeupCores =>
      some { s with
        lapic := lapicStores s.lapic
          (FacelessOS.cpuWakeupCores (s.lapic lapicIdReg) s.acpi.acpiCpuids s.ncores) }
  | .kheapInit => some s

def bootRun (image : Image) (s : Machine) (calls : List BootCall) : Option Machine :=
  calls.foldlM (bootStep image) s

/-- All of the way of an interrupt is there: the segments of the kernel, a timer at 100 Hz,
its entry at the I/O APIC in use, a local APIC that takes its vector, `irq0` under it, and a
handler for every other event. -/
structure InterruptsReady (image : Image) (s : Machine) : Prop where
  segments : { s.segments with interruptFlag := false } = gdtLoad
  period : s.pit.period = 1193180 / 100
  routed : ∀ i : Fin 120, (i : ℕ) = (timerInterrupt (image.table s.madt)).toNat % 128 →
    (s.ioApics s.acpi.ioApicPtr).redirection i = 0x20#64
  lapic : LapicConfigured s.lapic
  timer : deliver s.idtrLimit s.idt (.interrupt 0x20#8) = some image.irq0
  others : ∀ event : Event, event.vector ≠ 0x20#8 →
    ∃ h, deliver s.idtrLimit s.idt event = some (image.address h)

variable {image : Image} {s s' : Machine} {ss termWritePtr : U64} {call : BootCall}
  {calls before after : List BootCall}

theorem bootStep_disabled (hstep : bootStep image s call = some s') (hcall : call ≠ .sti)
    (hoff : s.segments.interruptFlag = false) : s'.segments.interruptFlag = false := by
  cases call with
  | sti => exact absurd rfl hcall
  | gdtLoad =>
      obtain rfl := Option.some.inj hstep
      rfl
  | pitInit freqHz =>
      obtain ⟨writes, -, rfl⟩ := Option.map_eq_some_iff.mp hstep
      exact hoff
  | acpiInit ss =>
      obtain ⟨found, -, rfl⟩ := Option.map_eq_some_iff.mp hstep
      exact hoff
  | logInit _ | log _ | idtInstall | pmmInit _ | vmmInit _ | setupGeneralInterrupts
  | cpuWakeupCores | kheapInit =>
      obtain rfl := Option.some.inj hstep
      exact hoff

theorem bootRun_disabled (hrun : bootRun image s calls = some s') (hcalls : .sti ∉ calls)
    (hoff : s.segments.interruptFlag = false) : s'.segments.interruptFlag = false := by
  induction calls generalizing s with
  | nil =>
      obtain rfl := Option.some.inj hrun
      exact hoff
  | cons call calls ih =>
      rw [List.mem_cons, not_or] at hcalls
      obtain ⟨t, hstep, hrest⟩ := Option.bind_eq_some_iff.mp hrun
      exact ih hrest hcalls.2 (bootStep_disabled hstep (Ne.symm hcalls.1) hoff)

def setupCalls (ss termWritePtr : U64) : List BootCall := (bootCalls ss termWritePtr).take 15

def wakeupCalls : List BootCall :=
  [.cpuWakeupCores, .log ⟨kinfo ++ "All CPU cores are now active!\n", []⟩, .kheapInit,
    .log ⟨kinfo ++ "Heap created.\n", []⟩]

theorem bootCalls_eq (ss termWritePtr : U64) :
    bootCalls ss termWritePtr = setupCalls ss termWritePtr ++ .sti :: wakeupCalls := rfl

theorem setupCalls_ready (hrun : bootRun image s (setupCalls ss termWritePtr) = some s') :
    InterruptsReady image s' := by
  obtain ⟨t, hacpi, hlast⟩ := Option.bind_eq_some_iff.mp
    (show (acpiInitStep image _ ss).bind _ = some s' from hrun)
  obtain ⟨found, -, rfl⟩ := Option.map_eq_some_iff.mp hacpi
  obtain rfl := Option.some.inj hlast
  refine ⟨rfl, ?_, fun i hi => ?_, initLapic_configured _, deliver_timer _ _,
    fun event hevent => ?_⟩
  · have hperiod : ∀ writes, FacelessOS.pitInit pitFreqHz = some writes →
        (writes.foldl PitChannel.out s.pit).period = 1193180 / 100 := by
      intro writes hinit
      rw [out_pitInit hinit]
      decide
    exact hperiod _ rfl
  · rw [redirection_setupGeneralInterrupts]
    exact if_pos ⟨rfl, hi⟩
  · obtain ⟨h, hdeliver, -⟩ := deliver_handler image.address image.irq0 hevent
    exact ⟨h, hdeliver⟩

theorem bootStep_ready (hready : InterruptsReady image s) (hcall : call ∈ .sti :: wakeupCalls)
    (hstep : bootStep image s call = some s') : InterruptsReady image s' ∧
      (s'.segments.interruptFlag = true ↔ s.segments.interruptFlag = true ∨ call = .sti) := by
  obtain ⟨hsegments, hperiod, hrouted, hlapic, htimer, hothers⟩ := hready
  simp only [wakeupCalls, List.mem_cons, List.not_mem_nil, or_false] at hcall
  rcases hcall with rfl | rfl | rfl | rfl | rfl
  all_goals obtain rfl := Option.some.inj hstep
  · exact ⟨⟨hsegments, hperiod, hrouted, hlapic, htimer, hothers⟩, by simp⟩
  · exact ⟨⟨hsegments, hperiod, hrouted,
      ((cpuWakeupCores_sparesSetup _ _ _).configured_iff _).mpr hlapic, htimer, hothers⟩, by simp⟩
  · exact ⟨⟨hsegments, hperiod, hrouted, hlapic, htimer, hothers⟩, by simp⟩
  · exact ⟨⟨hsegments, hperiod, hrouted, hlapic, htimer, hothers⟩, by simp⟩
  · exact ⟨⟨hsegments, hperiod, hrouted, hlapic, htimer, hothers⟩, by simp⟩

theorem bootRun_ready (hready : InterruptsReady image s)
    (hcalls : ∀ call ∈ calls, call ∈ .sti :: wakeupCalls)
    (hrun : bootRun image s calls = some s') : InterruptsReady image s' ∧
      (s'.segments.interruptFlag = true ↔ s.segments.interruptFlag = true ∨ .sti ∈ calls) := by
  induction calls generalizing s with
  | nil =>
      obtain rfl := Option.some.inj hrun
      exact ⟨hready, by simp⟩
  | cons call calls ih =>
      obtain ⟨hcall, hcalls⟩ := List.forall_mem_cons.mp hcalls
      obtain ⟨t, hstep, hrest⟩ := Option.bind_eq_some_iff.mp hrun
      obtain ⟨ht, hflag⟩ := bootStep_ready hready hcall hstep
      obtain ⟨hs', hflag'⟩ := ih ht hcalls hrest
      rw [hflag', hflag, List.mem_cons, or_assoc, @eq_comm _ call]
      exact ⟨hs', Iff.rfl⟩

theorem bootRun_append : bootRun image s (before ++ after) = some s' ↔
    ∃ t, bootRun image s before = some t ∧ bootRun image t after = some s' := by
  unfold bootRun
  rw [List.foldlM_append]
  exact Option.bind_eq_some_iff

/-- **Interrupts are enabled when all is ready for them, and not before**, wherever boot is:
after every number of its calls, from any state with interrupts disabled. -/
theorem boot_interrupts_ready (hoff : s.segments.interruptFlag = false)
    (hcalls : before <+: bootCalls ss termWritePtr) (hrun : bootRun image s before = some s') :
    (s'.segments.interruptFlag = true ↔ .sti ∈ before) ∧
      (s'.segments.interruptFlag = true → InterruptsReady image s') := by
  have hsetup : .sti ∉ setupCalls ss termWritePtr := by
    simp [setupCalls, bootCalls]
  have hnone : .sti ∉ before → (s'.segments.interruptFlag = true ↔ .sti ∈ before) ∧
      (s'.segments.interruptFlag = true → InterruptsReady image s') := by
    intro hsti
    have hdisabled := bootRun_disabled hrun hsti hoff
    rw [hdisabled]
    exact ⟨iff_of_false Bool.false_ne_true hsti, fun h => absurd h Bool.false_ne_true⟩
  obtain ⟨after, hafter⟩ := hcalls
  rw [bootCalls_eq] at hafter
  rcases List.append_eq_append_iff.mp hafter with ⟨rest, hbefore, -⟩ | ⟨rest, rfl, hrest⟩
  · refine hnone fun hmem => hsetup ?_
    rw [hbefore]
    exact List.mem_append_left _ hmem
  · obtain ⟨t, ht, hrun⟩ := bootRun_append.mp hrun
    have hmem : ∀ call ∈ rest, call ∈ .sti :: wakeupCalls := by
      rw [hrest]
      exact fun call hcall => List.mem_append_left _ hcall
    obtain ⟨hready, hflag⟩ := bootRun_ready (setupCalls_ready ht) hmem hrun
    refine ⟨?_, fun _ => hready⟩
    rw [hflag, bootRun_disabled ht hsetup hoff, List.mem_append, or_iff_right hsetup,
      or_iff_right Bool.false_ne_true]

/-- A tag with the RSDP at `0x5000`, the RSDP at `0x1000`, an RSDT with one entry, and a MADT
without records at `0x3000`. -/
def bootMem : Store 64 :=
  store64 (store64 (store64 (fun a =>
    if a = 0x1011#64 then 0x20#8
    else if a = 0x2004#64 then 0x28#8
    else if a = 0x2009#64 then 0xA8#8
    else if a = 0x2025#64 then 0x30#8
    else if a = 0x3000#64 ∨ a = 0x4000#64 then ascii 'A'
    else if a = 0x3001#64 ∨ a = 0x4001#64 then ascii 'P'
    else if a = 0x3002#64 ∨ a = 0x4002#64 then ascii 'I'
    else if a = 0x3003#64 ∨ a = 0x4003#64 then ascii 'C'
    else if a = 0x3004#64 then 0x2C#8
    else 0#8) 0x6080#64 0x5000#64) 0x5000#64 stivale2StructTagRsdpId) 0x5010#64 0x1000#64

def bootImage : Image := ⟨bootMem, 2, fun h => (kpanicVector h).setWidth 64, 0x20#64, 0x4000#64⟩

def bootMachine : Machine :=
  ⟨⟨8, 16, 16, 16, 16, 16, false⟩, zeroIdt, 0, ⟨0, none, 0⟩, fun _ => 0, zeroIoApics,
    ⟨0, fun _ => 0, 0⟩, 0, 0⟩

theorem boot_interrupts_ready_bootMem : ∃ s,
    bootRun bootImage bootMachine (setupCalls 0x6000#64 0#64 ++ [.sti]) = some s ∧
      InterruptsReady bootImage s := by
  have hruns : (bootRun bootImage bootMachine
      (setupCalls 0x6000#64 0#64 ++ [.sti])).isSome = true := by
    decide +kernel
  obtain ⟨s, hrun⟩ := Option.isSome_iff_exists.mp hruns
  have hprefix : setupCalls 0x6000#64 0#64 ++ [.sti] <+: bootCalls 0x6000#64 0#64 :=
    ⟨wakeupCalls, rfl⟩
  have hmem : .sti ∈ setupCalls 0x6000#64 0#64 ++ [.sti] := by simp
  obtain ⟨hflag, hready⟩ := boot_interrupts_ready rfl hprefix hrun
  exact ⟨s, hrun, hready (hflag.mpr hmem)⟩

end FacelessOS.Boot
