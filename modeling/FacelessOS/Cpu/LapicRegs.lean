import FacelessOS.Cpu.Ipi
import FacelessOS.Interrupts.Exceptions
import Mathlib.Logic.Function.Basic

/-!
# The registers of the local APIC (`lapic.c`)

`init_lapic` is the only function that stores to the registers which decide whether
interrupts are taken, so their setup lasts through every run of calls
(`lapic_configured_iff`). It makes `0xFF` the vector of spurious interrupts, and that is the
one under which no handler can be installed.
-/

namespace FacelessOS

def lapicTpr : U32 := 0x0080#32
def lapicLdr : U32 := 0x00d0#32
def lapicDfr : U32 := 0x00e0#32
def lapicSvr : U32 := 0x00f0#32

def icrFixed : U32 := 0x00000000#32

def initLapic : List SmpEvent :=
  [.lapicWrite lapicTpr 0#32,
    .lapicWrite lapicDfr 0xFFFFFFFF#32,
    .lapicWrite lapicLdr 0x01000000#32,
    .lapicWrite lapicSvr (0x100#32 ||| 0xFF#32)]

def lapicSendIpi (apicId vector : U32) : List SmpEvent :=
  [.lapicWrite lapicIcrhi (apicId <<< icrDestinationShift),
    .lapicWrite lapicIcrlo (vector ||| icrFixed ||| icrPhysical ||| icrAssert),
    .log ⟨kinfo ++ "ICR send pending..\n", []⟩]

/-- The functions of `lapic.c` that store to registers. -/
inductive LapicCall where
  | initLapic
  | sendEoi
  | sendInit (apicId : U32)
  | sendStartup (apicId vector : U32)
  | sendIpi (apicId vector : U32)
deriving DecidableEq, Repr

def LapicCall.events : LapicCall → List SmpEvent
  | .initLapic => FacelessOS.initLapic
  | .sendEoi => lapicSendEoi
  | .sendInit apicId => lapicSendInit apicId
  | .sendStartup apicId vector => lapicSendStartup apicId vector
  | .sendIpi apicId vector => lapicSendIpi apicId vector

abbrev LapicRegs : Type := U32 → U32

def lapicStore (r : LapicRegs) : SmpEvent → LapicRegs
  | .lapicWrite reg data => Function.update r reg data
  | .log _ => r
  | .pitSleep _ => r

def lapicStores (r : LapicRegs) (es : List SmpEvent) : LapicRegs := es.foldl lapicStore r

/-! ## The setup -/

/-- Interrupts of every priority are taken; the vector of the spurious ones is `0xFF`, and
the logical id is 1 in the flat model. -/
structure LapicConfigured (r : LapicRegs) : Prop where
  tpr : r lapicTpr = 0#32
  dfr : r lapicDfr = 0xFFFFFFFF#32
  ldr : r lapicLdr = 0x01000000#32
  svr : r lapicSvr = 0x1FF#32

def LapicRegs.enabled (r : LapicRegs) : Bool := (r lapicSvr).getLsbD 8

def LapicRegs.spuriousVector (r : LapicRegs) : U8 := (r lapicSvr).setWidth 8

/-- These events leave the registers of the setup alone. -/
def SparesSetup (es : List SmpEvent) : Prop :=
  ∀ reg data, .lapicWrite reg data ∈ es → reg ≠ lapicTpr ∧ reg ≠ lapicDfr ∧ reg ≠ lapicLdr ∧
    reg ≠ lapicSvr

theorem lapicStores_other {es : List SmpEvent} {reg : U32}
    (h : ∀ data, .lapicWrite reg data ∉ es) (r : LapicRegs) : lapicStores r es reg = r reg := by
  induction es generalizing r with
  | nil => rfl
  | cons e es ih =>
      have hes : ∀ data, .lapicWrite reg data ∉ es := fun data hmem =>
        h data (List.mem_cons_of_mem _ hmem)
      have hstore : lapicStore r e reg = r reg := by
        cases e with
        | lapicWrite reg' data =>
            refine Function.update_of_ne ?_ _ _
            rintro rfl
            exact h data List.mem_cons_self
        | log _ => rfl
        | pitSleep _ => rfl
      exact (ih hes (lapicStore r e)).trans hstore

theorem SparesSetup.configured_iff {es : List SmpEvent} (h : SparesSetup es) (r : LapicRegs) :
    LapicConfigured (lapicStores r es) ↔ LapicConfigured r := by
  have htpr := lapicStores_other (fun data hmem => (h lapicTpr data hmem).1 rfl) r
  have hdfr := lapicStores_other (fun data hmem => (h lapicDfr data hmem).2.1 rfl) r
  have hldr := lapicStores_other (fun data hmem => (h lapicLdr data hmem).2.2.1 rfl) r
  have hsvr := lapicStores_other (fun data hmem => (h lapicSvr data hmem).2.2.2 rfl) r
  constructor
  · rintro ⟨h₁, h₂, h₃, h₄⟩
    exact ⟨htpr ▸ h₁, hdfr ▸ h₂, hldr ▸ h₃, hsvr ▸ h₄⟩
  · rintro ⟨h₁, h₂, h₃, h₄⟩
    exact ⟨htpr.trans h₁, hdfr.trans h₂, hldr.trans h₃, hsvr.trans h₄⟩

theorem SparesSetup.append {es fs : List SmpEvent} (h : SparesSetup es) (h' : SparesSetup fs) :
    SparesSetup (es ++ fs) := by
  intro reg data hmem
  rcases List.mem_append.mp hmem with hmem | hmem
  · exact h reg data hmem
  · exact h' reg data hmem

theorem SparesSetup.flatMap {α : Type*} {f : α → List SmpEvent} (h : ∀ x, SparesSetup (f x))
    (xs : List α) : SparesSetup (xs.flatMap f) := by
  intro reg data hmem
  obtain ⟨x, -, hx⟩ := List.mem_flatMap.mp hmem
  exact h x reg data hx

theorem SparesSetup.ite {c : Prop} [Decidable c] {es : List SmpEvent} (h : SparesSetup es) :
    SparesSetup (if c then es else []) := by
  split
  · exact h
  · exact fun _ _ hmem => absurd hmem List.not_mem_nil

theorem initLapic_configured (r : LapicRegs) : LapicConfigured (lapicStores r initLapic) :=
  ⟨rfl, rfl, rfl, rfl⟩

theorem icr_sparesSetup (hi lo : U32) (call : LogCall) :
    SparesSetup [.lapicWrite lapicIcrhi hi, .lapicWrite lapicIcrlo lo, .log call] := by
  intro reg data hmem
  simp only [List.mem_cons, SmpEvent.lapicWrite.injEq, reduceCtorEq, List.not_mem_nil,
    or_false] at hmem
  rcases hmem with ⟨rfl, -⟩ | ⟨rfl, -⟩
  · decide
  · decide

theorem LapicCall.sparesSetup {call : LapicCall} (h : call ≠ .initLapic) :
    SparesSetup call.events := by
  cases call with
  | initLapic => exact absurd rfl h
  | sendEoi =>
      intro reg data hmem
      obtain ⟨rfl, -⟩ := SmpEvent.lapicWrite.inj (List.mem_singleton.mp hmem)
      decide
  | sendInit apicId => exact icr_sparesSetup _ _ _
  | sendStartup apicId vector => exact icr_sparesSetup _ _ _
  | sendIpi apicId vector => exact icr_sparesSetup _ _ _

theorem cpuWakeupCores_sparesSetup (lapicId : U32) (acpiCpuids : ℕ → U8) (ncores : U8) :
    SparesSetup (cpuWakeupCores lapicId acpiCpuids ncores) := by
  have hlogs : SparesSetup
      [.log ⟨"Waking up all cores.\n", []⟩, .log ⟨"WAKE UP CORES!!!!!!!\n", []⟩] := by
    intro reg data hmem
    simp at hmem
  have hsleep : SparesSetup [.pitSleep 50] := by
    intro reg data hmem
    simp at hmem
  have hstartups : SparesSetup (sendStartups lapicId acpiCpuids ncores) :=
    SparesSetup.flatMap (fun i => (icr_sparesSetup _ _ _).ite) _
  exact hlogs.append (SparesSetup.flatMap (fun i =>
    (((icr_sparesSetup _ _ _).ite.append hsleep).append hstartups).append hsleep) _)

def lapicRun (r : LapicRegs) (calls : List LapicCall) : LapicRegs :=
  calls.foldl (fun r call => lapicStores r call.events) r

/-- **The setup lasts.** After a run of calls, from any registers, the local APIC is set up
exactly where it was before or `init_lapic` is among the calls. Then it is enabled, and no
table of the CPU has a handler for its spurious interrupts that could be entered. -/
theorem lapic_configured_iff (r : LapicRegs) (calls : List LapicCall) :
    (LapicConfigured (lapicRun r calls) ↔ LapicConfigured r ∨ .initLapic ∈ calls) ∧
    (LapicConfigured (lapicRun r calls) → (lapicRun r calls).enabled = true ∧
      ∀ idt, attempt idtrLimit idt (lapicRun r calls).spuriousVector = .fault 13) := by
  constructor
  · induction calls generalizing r with
    | nil => simp [lapicRun]
    | cons call calls ih =>
        have hrun := ih (lapicStores r call.events)
        rw [List.mem_cons]
        by_cases hinit : call = .initLapic
        · subst hinit
          refine iff_of_true (hrun.mpr (.inl (initLapic_configured r))) (.inr (.inl rfl))
        · rw [(LapicCall.sparesSetup hinit).configured_iff] at hrun
          rw [or_iff_right (Ne.symm hinit)]
          exact hrun
  · rintro ⟨-, -, -, hsvr⟩
    refine ⟨?_, fun idt => ?_⟩
    · rw [LapicRegs.enabled, hsvr]
      rfl
    · rw [LapicRegs.spuriousVector, hsvr]
      rfl

end FacelessOS
