import FacelessOS.Cpu.Ipi
import FacelessOS.Power.MadtCores

/-!
# Who is woken up

`parse_madt` records the processor ids of the cores, and `cpu_wakeup_cores` uses them
as APIC ids: INIT and STARTUP name the right cores exactly when the two kinds of id
agree as sets, up to the boot processor (`wakeupAddresses_iff`).

The STARTUPs carry the shorthand for the sender itself, so the boot processor gets all
of them and no other core gets one: the protocol is kept only where there is nobody to
wake up (`initBeforeStartup_iff`).
-/

namespace FacelessOS

open RecordWalk

variable {bsp core : U32} {cores : List U32} {ipi : Ipi}

theorem mem_startupIpis :
    ipi ∈ startupIpis bsp cores ↔ ∃ core ∈ cores, core ≠ bsp ∧ startupIpi core = ipi := by
  simp only [startupIpis, List.mem_map, List.mem_filter, decide_eq_true_eq, and_assoc]

theorem mem_wakeupIpis :
    ipi ∈ wakeupIpis bsp cores ↔
      ∃ core ∈ cores, core ≠ bsp ∧ (initIpi core = ipi ∨ startupIpi core = ipi) := by
  simp only [wakeupIpis, List.mem_flatMap, List.mem_append, mem_startupIpis]
  constructor
  · rintro ⟨core, hcore, hinit | ⟨core', hcore', hne, heq⟩⟩
    · split at hinit
      · rename_i hne
        exact ⟨core, hcore, hne, .inl (List.mem_singleton.mp hinit).symm⟩
      · exact absurd hinit List.not_mem_nil
    · exact ⟨core', hcore', hne, .inr heq⟩
  · rintro ⟨core, hcore, hne, rfl | rfl⟩
    · exact ⟨core, hcore, .inl (by rw [if_pos hne]; exact List.mem_singleton_self _)⟩
    · exact ⟨core, hcore, .inr ⟨core, hcore, hne, rfl⟩⟩

/-! ## Destinations -/

def dests (mode : U32) (sent : List Ipi) : Set U32 :=
  {dest | ∃ ipi ∈ sent, ipi.mode = mode ∧ ipi.dest = dest}

def apicIds (m : Table) (qs : List ℕ) : List U32 :=
  (localApics m qs).map fun p => (m (p + 3)).setWidth 32

def processorIds (m : Table) (qs : List ℕ) : List U32 :=
  (localApics m qs).map fun p => (m (p + 2)).setWidth 32

/-- What the wake-up sends after both walks, on the boot processor whose register
`LAPIC_ID` is `lapicId`; `hi` is what `LAPIC_ICRHI` held before. -/
def bootIpis (m : Table) (acpi : Acpi) (lapicId hi : U32) : List Ipi :=
  ipis hi (cpuWakeupCores lapicId (parseMadt m acpi).1.acpi.acpiCpuids (cpuDetectCores m 0).1)

/-- INIT and STARTUP go to every core of the table but the boot processor. -/
structure WakeupAddresses (m : Table) (acpi : Acpi) (lapicId hi : U32) (qs : List ℕ) :
    Prop where
  init : dests icrInit (bootIpis m acpi lapicId hi) =
    {id | id ∈ apicIds m qs ∧ id ≠ lapicGetId lapicId}
  startup : dests icrStartup (bootIpis m acpi lapicId hi) =
    {id | id ∈ apicIds m qs ∧ id ≠ lapicGetId lapicId}

theorem mem_dests {mode id : U32} :
    id ∈ dests mode (wakeupIpis bsp cores) ↔
      (mode = icrInit ∨ mode = icrStartup) ∧ id ∈ cores ∧ id ≠ bsp := by
  constructor
  · rintro ⟨ipi, hipi, rfl, rfl⟩
    obtain ⟨core, hcore, hne, rfl | rfl⟩ := mem_wakeupIpis.mp hipi
    · exact ⟨.inl rfl, hcore, hne⟩
    · exact ⟨.inr rfl, hcore, hne⟩
  · rintro ⟨rfl | rfl, hid, hne⟩
    · exact ⟨initIpi id, mem_wakeupIpis.mpr ⟨id, hid, hne, .inl rfl⟩, rfl, rfl⟩
    · exact ⟨startupIpi id, mem_wakeupIpis.mpr ⟨id, hid, hne, .inr rfl⟩, rfl, rfl⟩

theorem dests_wakeupIpis {mode : U32} (hmode : mode = icrInit ∨ mode = icrStartup) :
    dests mode (wakeupIpis bsp cores) = {id | id ∈ cores ∧ id ≠ bsp} := by
  ext id
  exact mem_dests.trans (and_iff_right hmode)

theorem wakeupCores_cpuids (st : ParseMadt) :
    wakeupCores st.acpi.acpiCpuids st.cpuidIdx = st.cpuids.map fun id => id.setWidth 32 := by
  rw [wakeupCores, ParseMadt.cpuids, List.map_map]
  rfl

section Boot

variable {m : Table} {qs : List ℕ} (hparse : Visits (recordLength m) m.fin sizeofMadt qs)
  (hdetect : Visits (recordLength m) m.coresFin sizeofMadt qs)
  (hroom : (localApics m qs).length ≤ maxNeededCores)

include hparse hdetect hroom

/-- The counter of one walk fits the array of the other. -/
theorem wakeupCores_eq (acpi : Acpi) :
    wakeupCores (parseMadt m acpi).1.acpi.acpiCpuids (cpuDetectCores m 0).1 =
      processorIds m qs := by
  have hcpuids := parseMadt_cpuids hparse (by omega) acpi
  have hncores : (cpuDetectCores m 0).1 = (parseMadt m acpi).1.cpuidIdx := by
    unfold maxNeededCores at hroom
    apply BitVec.eq_of_toNat_eq
    rw [cpuDetectCores_toNat hdetect (by omega), ← ParseMadt.length_cpuids, hcpuids,
      List.length_map]
  rw [hncores, wakeupCores_cpuids, hcpuids, processorIds, List.map_map]
  rfl

/-- **The wake-up addresses the right cores exactly when processor ids are APIC ids.** -/
theorem wakeupAddresses_iff (acpi : Acpi) (lapicId hi : U32) :
    WakeupAddresses m acpi lapicId hi qs ↔
      ∀ id ≠ lapicGetId lapicId, id ∈ processorIds m qs ↔ id ∈ apicIds m qs := by
  have hsent : bootIpis m acpi lapicId hi =
      wakeupIpis (lapicGetId lapicId) (processorIds m qs) := by
    rw [bootIpis, (cpuWakeupCores_sends _ _ _).ipis, wakeupCores_eq hparse hdetect hroom]
  constructor
  · intro h id hne
    have hinit := h.init
    rw [hsent, dests_wakeupIpis (.inl rfl)] at hinit
    have hid := Set.ext_iff.mp hinit id
    exact ⟨fun hp => (hid.mp ⟨hp, hne⟩).1, fun ha => (hid.mpr ⟨ha, hne⟩).1⟩
  · intro h
    have hset : {id | id ∈ processorIds m qs ∧ id ≠ lapicGetId lapicId} =
        {id | id ∈ apicIds m qs ∧ id ≠ lapicGetId lapicId} :=
      Set.ext fun id => and_congr_left (h id)
    exact ⟨by rw [hsent, dests_wakeupIpis (.inl rfl), hset],
      by rw [hsent, dests_wakeupIpis (.inr rfl), hset]⟩

end Boot

/-- A table of two cores and a zero length. The boot processor has both ids 0, the other
core has processor id 1 and this APIC id. -/
def twoCoreTable (apicId : U8) : Table := fun o =>
  if o = 4 then 62 else if o = 45 ∨ o = 53 then 8 else if o = 54 then 1
  else if o = 55 then apicId else 0

theorem twoCoreTable_visits (apicId : U8) {fin : ℕ} (hfin : 60 < fin) :
    Visits (recordLength (twoCoreTable apicId)) fin sizeofMadt [44, 52] :=
  .step (show 44 < fin by omega) (show 8 ≠ 0 by decide) <|
    .step (show 52 < fin by omega) (show 8 ≠ 0 by decide) <| .stop (.inr rfl)

theorem wakeupAddresses_twoCoreTable :
    WakeupAddresses (twoCoreTable 1) ⟨0, fun _ => 0, 0⟩ 0#32 0#32 [44, 52] :=
  (wakeupAddresses_iff (twoCoreTable_visits 1 (by decide)) (twoCoreTable_visits 1 (by decide))
    (by decide) _ _ _).mpr fun _ _ => Iff.rfl

/-- Two cores, the boot processor listed first, and APIC ids that are no processor ids. -/
theorem twoCoreTable_missed :
    ¬ ∀ (m : Table) (acpi : Acpi) (lapicId hi : U32) (qs : List ℕ),
      Visits (recordLength m) m.fin sizeofMadt qs →
      Visits (recordLength m) m.coresFin sizeofMadt qs →
      (localApics m qs).length ≤ 16 → (apicIds m qs).Nodup →
      lapicGetId lapicId ∈ apicIds m qs → WakeupAddresses m acpi lapicId hi qs := by
  intro hclaim
  have h := hclaim (twoCoreTable 2) ⟨0, fun _ => 0, 0⟩ 0#32 0#32 [44, 52]
    (twoCoreTable_visits 2 (by decide)) (twoCoreTable_visits 2 (by decide))
    (by decide) (by decide) (by decide)
  have hnone : ∀ ipi ∈ bootIpis (twoCoreTable 2) ⟨0, fun _ => 0, 0⟩ 0#32 0#32,
      ipi.dest ≠ 2#32 := by decide +kernel
  have hsecond : 2#32 ∈ apicIds (twoCoreTable 2) [44, 52] ∧ 2#32 ≠ lapicGetId 0#32 := by
    decide
  obtain ⟨ipi, hipi, -, hdest⟩ := (Set.ext_iff.mp h.init 2#32).mpr hsecond
  exact hnone ipi hipi hdest

/-! ## INIT before STARTUP -/

def Ipi.Delivers (bsp mode core : U32) (ipi : Ipi) : Prop :=
  ipi.mode = mode ∧ ipi.Receives bsp core

/-- What the boot processor has to send to start these cores. -/
structure InitBeforeStartup (bsp : U32) (cores : List U32) (sent : List Ipi) : Prop where
  /-- one INIT, and a STARTUP after it -/
  woken : ∀ core ∈ cores, core ≠ bsp → ∃ before init after,
    sent = before ++ init :: after ∧ init.Delivers bsp icrInit core ∧
    (∀ ipi ∈ before ++ after, ¬ ipi.Delivers bsp icrInit core) ∧
    ∃ ipi ∈ after, ipi.Delivers bsp icrStartup core
  /-- no STARTUP that no INIT precedes -/
  ordered : ∀ core before startup after, sent = before ++ startup :: after →
    startup.Delivers bsp icrStartup core → ∃ ipi ∈ before, ipi.Delivers bsp icrInit core
  /-- the boot processor receives neither -/
  quiet : ∀ ipi ∈ sent, ¬ ipi.Delivers bsp icrInit bsp ∧ ¬ ipi.Delivers bsp icrStartup bsp

/-- A STARTUP goes to its sender, whatever its destination field says. -/
theorem startupIpi_receives (apicId : U32) :
    (startupIpi apicId).Receives bsp core ↔ core = bsp := by
  have hshorthand : (startupIpi apicId).shorthand = icrSelf := rfl
  rw [Ipi.Receives, hshorthand, if_neg (by decide), if_pos rfl]

theorem wakeupIpis_startup (hne : core ≠ bsp) :
    ∀ ipi ∈ wakeupIpis bsp cores, ¬ ipi.Delivers bsp icrStartup core := by
  rintro ipi hipi ⟨hmode, hrec⟩
  obtain ⟨apicId, -, -, rfl | rfl⟩ := mem_wakeupIpis.mp hipi
  · exact absurd hmode (show icrInit ≠ icrStartup by decide)
  · exact hne ((startupIpi_receives apicId).mp hrec)

theorem wakeupIpis_of_alone (halone : ∀ core ∈ cores, core = bsp) :
    wakeupIpis bsp cores = [] := by
  refine List.eq_nil_iff_forall_not_mem.mpr fun ipi hipi => ?_
  obtain ⟨core, hcore, hne, -⟩ := mem_wakeupIpis.mp hipi
  exact hne (halone core hcore)

/-- **The wake-up protocol is kept exactly where the boot processor is alone.** -/
theorem initBeforeStartup_iff (lapicId hi : U32) (acpiCpuids : ℕ → U8) (ncores : U8) :
    InitBeforeStartup (lapicGetId lapicId) (wakeupCores acpiCpuids ncores)
        (ipis hi (cpuWakeupCores lapicId acpiCpuids ncores)) ↔
      ∀ core ∈ wakeupCores acpiCpuids ncores, core = lapicGetId lapicId := by
  rw [(cpuWakeupCores_sends _ _ _).ipis]
  constructor
  · intro h core hcore
    by_contra hne
    obtain ⟨before, init, after, hsent, -, -, ipi, hipi, hstart⟩ := h.woken core hcore hne
    have hmem : ipi ∈ wakeupIpis (lapicGetId lapicId) (wakeupCores acpiCpuids ncores) := by
      rw [hsent]
      exact List.mem_append_right _ (List.mem_cons_of_mem _ hipi)
    exact wakeupIpis_startup hne ipi hmem hstart
  · intro halone
    rw [wakeupIpis_of_alone halone]
    exact ⟨fun core hcore hne => absurd (halone core hcore) hne,
      fun _ before _ _ hsent => absurd hsent (by simp),
      fun ipi hipi => absurd hipi List.not_mem_nil⟩

/-- Two cores: the second one gets its INIT, and the boot processor the STARTUPs. -/
theorem twoCores_notStarted :
    ¬ ∀ (lapicId hi : U32) (acpiCpuids : ℕ → U8) (ncores : U8),
      InitBeforeStartup (lapicGetId lapicId) (wakeupCores acpiCpuids ncores)
        (ipis hi (cpuWakeupCores lapicId acpiCpuids ncores)) := by
  intro hclaim
  have h := hclaim 0#32 0#32 (fun i => if i = 1 then 1 else 0) 2
  have hstart : startupIpi 1#32 ∈
      ipis 0#32 (cpuWakeupCores 0#32 (fun i => if i = 1 then 1 else 0) 2) := by decide +kernel
  exact (h.quiet _ hstart).2 ⟨rfl, (startupIpi_receives 1#32).mpr rfl⟩

end FacelessOS
