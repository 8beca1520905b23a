import FacelessOS.Cpu.Smp

/-!
# The IPIs that the register writes denote

A write of the low word of the interrupt command register sends an IPI whose
destination is in the high word, as it was written last. `ipis` reads a run of events
this way, and `Sends` composes: what `cpu_wakeup_cores` sends is `wakeupIpis` of its
list of cores, whatever the high word held before (`cpuWakeupCores_sends`).
-/

namespace FacelessOS

def icrAllIncludingSelf : U32 := 0x00080000#32
def icrAllExcludingSelf : U32 := 0x000c0000#32

def icrModeMask : U32 := 0x00000700#32

def icrShorthandMask : U32 := 0x000c0000#32

/-- The destination field that addresses every core. -/
def icrBroadcast : U32 := 0xff#32

/-- An IPI in physical destination mode, the only one in use here. -/
structure Ipi where
  mode : U32
  shorthand : U32
  dest : U32
deriving DecidableEq, Repr

/-- The IPIs of a run of events, from the content of `LAPIC_ICRHI` on. -/
def ipis : U32 → List SmpEvent → List Ipi
  | _, [] => []
  | hi, .lapicWrite reg data :: es =>
      if reg = lapicIcrhi then ipis data es
      else if reg = lapicIcrlo then
        ⟨data &&& icrModeMask, data &&& icrShorthandMask, hi >>> icrDestinationShift⟩ ::
          ipis hi es
      else ipis hi es
  | hi, .log _ :: es => ipis hi es
  | hi, .pitSleep _ :: es => ipis hi es

/-- Whether `core` receives an IPI of the core `bsp`. A shorthand other than none
makes the destination field irrelevant. -/
def Ipi.Receives (bsp : U32) (ipi : Ipi) (core : U32) : Prop :=
  if ipi.shorthand = icrNoShorthand then ipi.dest = core ∨ ipi.dest = icrBroadcast
  else if ipi.shorthand = icrSelf then core = bsp
  else if ipi.shorthand = icrAllIncludingSelf then True
  else ipi.shorthand = icrAllExcludingSelf ∧ core ≠ bsp

instance (bsp : U32) (ipi : Ipi) (core : U32) : Decidable (ipi.Receives bsp core) := by
  unfold Ipi.Receives
  infer_instance

def initIpi (apicId : U32) : Ipi := ⟨icrInit, icrNoShorthand, apicId⟩

def startupIpi (apicId : U32) : Ipi := ⟨icrStartup, icrSelf, apicId⟩

def wakeupCores (acpiCpuids : ℕ → U8) (ncores : U8) : List U32 :=
  (List.range ncores.toNat).map fun i => (acpiCpuids i).setWidth 32

def startupIpis (bsp : U32) (cores : List U32) : List Ipi :=
  (cores.filter (· ≠ bsp)).map startupIpi

/-- All IPIs: in each round an INIT to one core, then a STARTUP for every core. -/
def wakeupIpis (bsp : U32) (cores : List U32) : List Ipi :=
  cores.flatMap fun core =>
    (if core ≠ bsp then [initIpi core] else []) ++ startupIpis bsp cores

/-! ## Runs of events -/

theorem ipis_icrhi (hi data : U32) (es : List SmpEvent) :
    ipis hi (.lapicWrite lapicIcrhi data :: es) = ipis data es := rfl

theorem ipis_icrlo (hi data : U32) (es : List SmpEvent) :
    ipis hi (.lapicWrite lapicIcrlo data :: es) =
      ⟨data &&& icrModeMask, data &&& icrShorthandMask, hi >>> icrDestinationShift⟩ ::
        ipis hi es := rfl

/-- The events send these IPIs, whatever was written before and comes after. -/
def Sends (es : List SmpEvent) (sent : List Ipi) : Prop :=
  ∀ hi rest, ∃ hi', ipis hi (es ++ rest) = sent ++ ipis hi' rest

theorem Sends.nil : Sends [] [] := fun hi _ => ⟨hi, rfl⟩

theorem Sends.log (call : LogCall) : Sends [.log call] [] := fun hi _ => ⟨hi, rfl⟩

theorem Sends.pitSleep (ticks : U32) : Sends [.pitSleep ticks] [] := fun hi _ => ⟨hi, rfl⟩

theorem Sends.append {es fs : List SmpEvent} {sent sent' : List Ipi} (h : Sends es sent)
    (h' : Sends fs sent') : Sends (es ++ fs) (sent ++ sent') := by
  intro hi rest
  obtain ⟨hi₁, h₁⟩ := h hi (fs ++ rest)
  obtain ⟨hi₂, h₂⟩ := h' hi₁ rest
  exact ⟨hi₂, by rw [List.append_assoc, h₁, h₂, List.append_assoc]⟩

theorem Sends.flatMap {α : Type*} {f : α → List SmpEvent} {g : α → List Ipi}
    (h : ∀ x, Sends (f x) (g x)) (xs : List α) : Sends (xs.flatMap f) (xs.flatMap g) := by
  induction xs with
  | nil => exact .nil
  | cons x xs ih =>
      rw [List.flatMap_cons, List.flatMap_cons]
      exact (h x).append ih

theorem Sends.ite {c : Prop} [Decidable c] {es : List SmpEvent} {sent : List Ipi}
    (h : Sends es sent) : Sends (if c then es else []) (if c then sent else []) := by
  split
  · exact h
  · exact .nil

theorem Sends.ipis {es : List SmpEvent} {sent : List Ipi} (h : Sends es sent) (hi : U32) :
    ipis hi es = sent := by
  obtain ⟨hi', h'⟩ := h hi []
  rw [List.append_nil] at h'
  rw [h', FacelessOS.ipis, List.append_nil]

/-! ## What the code sends -/

theorem destination_shift (id : U8) :
    (id.setWidth 32 <<< icrDestinationShift) >>> icrDestinationShift = id.setWidth 32 := by
  have hid := id.isLt
  apply BitVec.eq_of_toNat_eq
  rw [BitVec.toNat_ushiftRight, BitVec.toNat_shiftLeft, BitVec.toNat_setWidth,
    icrDestinationShift, Nat.shiftLeft_eq, Nat.shiftRight_eq_div_pow]
  omega

theorem icrWrites_sends (id : U8) (data : U32) (call : LogCall) :
    Sends [.lapicWrite lapicIcrhi (id.setWidth 32 <<< icrDestinationShift),
        .lapicWrite lapicIcrlo data, .log call]
      [⟨data &&& icrModeMask, data &&& icrShorthandMask, id.setWidth 32⟩] := by
  intro hi rest
  refine ⟨id.setWidth 32 <<< icrDestinationShift, ?_⟩
  rw [List.cons_append, ipis_icrhi, List.cons_append, ipis_icrlo, destination_shift]
  rfl

theorem lapicSendInit_sends (id : U8) :
    Sends (lapicSendInit (id.setWidth 32)) [initIpi (id.setWidth 32)] :=
  icrWrites_sends id _ _

theorem lapicSendStartup_sends (id : U8) :
    Sends (lapicSendStartup (id.setWidth 32) 0x8#32) [startupIpi (id.setWidth 32)] :=
  icrWrites_sends id _ _

theorem startupIpis_eq_flatMap (bsp : U32) (cores : List U32) :
    startupIpis bsp cores =
      cores.flatMap fun core => if core ≠ bsp then [startupIpi core] else [] := by
  induction cores with
  | nil => rfl
  | cons core cores ih =>
      rw [List.flatMap_cons, ← ih, startupIpis, List.filter_cons]
      by_cases hcore : core = bsp <;> simp [hcore, startupIpis]

variable (lapicId : U32) (acpiCpuids : ℕ → U8) (ncores : U8)

theorem sendStartups_sends :
    Sends (sendStartups lapicId acpiCpuids ncores)
      (startupIpis (lapicGetId lapicId) (wakeupCores acpiCpuids ncores)) := by
  rw [startupIpis_eq_flatMap, wakeupCores, List.flatMap_map]
  exact Sends.flatMap (fun i => (lapicSendStartup_sends (acpiCpuids i)).ite) _

theorem cpuWakeupCores_sends :
    Sends (cpuWakeupCores lapicId acpiCpuids ncores)
      (wakeupIpis (lapicGetId lapicId) (wakeupCores acpiCpuids ncores)) := by
  have hround : ∀ i, Sends
      ((if (acpiCpuids i).setWidth 32 ≠ lapicGetId lapicId then
          lapicSendInit ((acpiCpuids i).setWidth 32) else []) ++
        [.pitSleep 50] ++ sendStartups lapicId acpiCpuids ncores ++ [.pitSleep 50])
      ((if (acpiCpuids i).setWidth 32 ≠ lapicGetId lapicId then
          [initIpi ((acpiCpuids i).setWidth 32)] else []) ++
        startupIpis (lapicGetId lapicId) (wakeupCores acpiCpuids ncores)) := by
    intro i
    have hsends := (((lapicSendInit_sends (acpiCpuids i)).ite
      (c := (acpiCpuids i).setWidth 32 ≠ lapicGetId lapicId)).append (.pitSleep 50)).append
      (sendStartups_sends lapicId acpiCpuids ncores) |>.append (.pitSleep 50)
    rwa [List.append_nil, List.append_nil] at hsends
  have hlogs := (Sends.log ⟨"Waking up all cores.\n", []⟩).append
    (Sends.log ⟨"WAKE UP CORES!!!!!!!\n", []⟩)
  unfold wakeupIpis
  conv => rhs; arg 2; rw [wakeupCores]
  rw [List.flatMap_map]
  exact hlogs.append (.flatMap hround _)

end FacelessOS
