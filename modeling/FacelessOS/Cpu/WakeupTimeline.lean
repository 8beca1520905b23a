import FacelessOS.Cpu.Ipi
import FacelessOS.Interrupts.TimerMachine
import FacelessOS.Lib.Scripts

/-!
# The wake-up and the timer, interleaved (`smp.c`, `pit.c`, `irq.c`)

`cpu_wakeup_cores` runs with interrupts enabled: `irq0` counts the ticks that its sleeps wait
for, and writes a register of the same local APIC, possibly between the two writes that make
an IPI.

IPIs of two modes stay 50 ticks apart (`wakeup_apart`), the IPIs are those that the wake-up
sends alone (`wakeup_ipis`), and it can come to its end wherever interrupts are enabled for
it (`wakeup_can_finish_iff`).
-/

namespace FacelessOS

open Reentrant Runs Scripts

def SmpEvent.deadline (pitTicks : U32) : SmpEvent → Option U64
  | .pitSleep nTicks => some (eTicks pitTicks nTicks)
  | _ => none

def pitSleepEnds (pitTicks : U32) (eTicks : U64) : Bool := !pitSleepWaits eTicks pitTicks

/-- The ticks that are slept for. -/
def SmpEvent.ticks : SmpEvent → ℕ
  | .pitSleep nTicks => nTicks.toNat
  | _ => 0

/-- The delivery mode of the IPI that a write sends. -/
def SmpEvent.ipiMode : SmpEvent → Option U32
  | .lapicWrite reg data => if reg = lapicIcrlo then some (data &&& icrModeMask) else none
  | _ => none

abbrev WakeupState : Type := ProgramState U32 U32 SmpEvent U64

abbrev WakeupStep (gate : Gate) : WakeupState → Label (Op SmpEvent) → WakeupState → Prop :=
  ProgramStep irq0Handler gate.masks SmpEvent.deadline pitSleepEnds

/-- Between two events, with interrupts enabled. -/
def awakeAt (t : U32) (rest : List SmpEvent) : WakeupState :=
  ⟨t, ⟨rest, none⟩, true, false, false, []⟩

/-- One interrupt, from its request to the return of `irq0`. -/
def tick : List (Label (Op SmpEvent)) := [.request, .enter, .work, .work, .finish, .leave]

/-! ## The script -/

/-- Every event with the ticks that are slept for before it. -/
def stamps : ℕ → List SmpEvent → List (ℕ × SmpEvent)
  | _, [] => []
  | n, e :: es => (n, e) :: stamps (n + e.ticks) es

/-- IPIs of two delivery modes are at least `k` ticks apart. -/
def Apart (k : ℕ) (es : List SmpEvent) : Prop :=
  ∀ n, (stamps n es).Pairwise fun p q =>
    ∀ mode ∈ p.2.ipiMode, ∀ mode' ∈ q.2.ipiMode, mode ≠ mode' → p.1 + k ≤ q.1

variable {k n : ℕ} {es es' : List SmpEvent} {e e' : SmpEvent} {p : ℕ × SmpEvent}

theorem stamps_append (n : ℕ) (es es' : List SmpEvent) :
    stamps n (es ++ es') = stamps n es ++ stamps (n + cost SmpEvent.ticks es) es' := by
  induction es generalizing n with
  | nil => rfl
  | cons e es ih =>
      rw [List.cons_append, stamps, stamps, ih, List.cons_append, Nat.add_assoc]
      rfl

theorem mem_stamps (hp : p ∈ stamps n es) :
    p.2 ∈ es ∧ n ≤ p.1 ∧ p.1 ≤ n + cost SmpEvent.ticks es := by
  induction es generalizing n with
  | nil => exact absurd hp List.not_mem_nil
  | cons e es ih =>
      have hcost : cost SmpEvent.ticks (e :: es) = e.ticks + cost SmpEvent.ticks es := rfl
      rw [hcost]
      rcases List.mem_cons.mp hp with rfl | hp
      · exact ⟨List.mem_cons_self, Nat.le_refl _, Nat.le_add_right _ _⟩
      · obtain ⟨hmem, hle, hle'⟩ := ih hp
        exact ⟨List.mem_cons_of_mem _ hmem, by omega, by omega⟩

theorem Apart.of_mode {mode : U32} (hmode : ∀ e ∈ es, ∀ mode' ∈ e.ipiMode, mode' = mode) :
    Apart k es := by
  intro n
  apply List.pairwise_of_forall_mem_list
  intro p hp q hq mode' hmode' mode'' hmode'' hne
  rw [hmode _ (mem_stamps hp).1 _ hmode', hmode _ (mem_stamps hq).1 _ hmode''] at hne
  exact absurd rfl hne

theorem Apart.cons (he : e.ipiMode = none) (hes : Apart k es) : Apart k (e :: es) := by
  refine fun n => List.Pairwise.cons (fun q _ mode hmode => ?_) (hes _)
  rw [he] at hmode
  exact absurd hmode nofun

theorem Apart.append_sleep {nTicks : U32} (hes : Apart k es) (hes' : Apart k es')
    (hk : k ≤ nTicks.toNat) : Apart k (es ++ .pitSleep nTicks :: es') := by
  intro n
  rw [stamps_append, List.pairwise_append]
  refine ⟨hes n, List.Pairwise.cons ?_ (hes' _), ?_⟩
  · exact fun q _ mode hmode => absurd hmode nofun
  · intro p hp q hq mode hmode mode' hmode' _
    rcases List.mem_cons.mp hq with rfl | hq
    · exact absurd hmode' nofun
    · have hle := (mem_stamps hp).2.2
      have hle' := (mem_stamps hq).2.1
      have hticks : (SmpEvent.pitSleep nTicks).ticks = nTicks.toNat := rfl
      omega

theorem Apart.between {before during after : List SmpEvent}
    (hes : Apart k (before ++ e :: (during ++ e' :: after))) {mode mode' : U32}
    (hmode : mode ∈ e.ipiMode) (hmode' : mode' ∈ e'.ipiMode) (hne : mode ≠ mode') :
    k ≤ cost SmpEvent.ticks (e :: during) := by
  have hcost : cost SmpEvent.ticks (e :: during) = e.ticks + cost SmpEvent.ticks during := rfl
  have hall := hes 0
  rw [stamps_append, stamps, stamps_append, stamps] at hall
  obtain ⟨hfirst, -⟩ := List.pairwise_cons.mp (List.pairwise_append.mp hall).2.1
  have hle := hfirst _ (List.mem_append_right _ List.mem_cons_self) mode hmode mode' hmode' hne
  omega

section Script

variable (lapicId : U32) (acpiCpuids : ℕ → U8) (ncores : U8)

theorem icrWrites_mode {dest data mode : U32} {call : LogCall}
    (he : e ∈ [.lapicWrite lapicIcrhi dest, .lapicWrite lapicIcrlo data, .log call])
    (hmode : mode ∈ e.ipiMode) : mode = data &&& icrModeMask := by
  rcases List.mem_cons.mp he with rfl | he
  · exact absurd hmode nofun
  rcases List.mem_cons.mp he with rfl | he
  · exact (Option.some.inj hmode).symm
  · obtain rfl := List.mem_singleton.mp he
    exact absurd hmode nofun

theorem sendStartups_mode {mode : U32} (he : e ∈ sendStartups lapicId acpiCpuids ncores)
    (hmode : mode ∈ e.ipiMode) : mode = icrStartup := by
  obtain ⟨i, -, he⟩ := List.mem_flatMap.mp he
  dsimp only at he
  split at he
  · exact icrWrites_mode he hmode
  · exact absurd he List.not_mem_nil

/-- The wake-up sleeps between IPIs of two modes. -/
theorem cpuWakeupCores_apart : Apart 50 (cpuWakeupCores lapicId acpiCpuids ncores) := by
  refine Apart.cons rfl (Apart.cons rfl ?_)
  induction List.range ncores.toNat with
  | nil => exact fun n => List.Pairwise.nil
  | cons i is ih =>
      have hstartups : Apart 50 (sendStartups lapicId acpiCpuids ncores) :=
        Apart.of_mode fun _ he _ hmode => sendStartups_mode lapicId acpiCpuids ncores he hmode
      have hinit : Apart 50 (if (acpiCpuids i).setWidth 32 ≠ lapicGetId lapicId then
          lapicSendInit ((acpiCpuids i).setWidth 32) else []) := by
        split
        · exact Apart.of_mode fun _ he _ hmode => icrWrites_mode he hmode
        · exact fun n => List.Pairwise.nil
      rw [List.flatMap_cons, List.append_assoc, List.append_assoc, List.append_assoc]
      exact hinit.append_sleep (hstartups.append_sleep ih (Nat.le_refl 50)) (Nat.le_refl 50)

theorem pitSleep_mem_cpuWakeupCores {nTicks : U32}
    (hmem : .pitSleep nTicks ∈ cpuWakeupCores lapicId acpiCpuids ncores) : nTicks = 50#32 := by
  have hsends : ∀ {c : Prop} [Decidable c] {es : List SmpEvent}, .pitSleep nTicks ∉ es →
      .pitSleep nTicks ∉ if c then es else [] := by
    intro c _ es hes
    split
    · exact hes
    · exact List.not_mem_nil
  rcases List.mem_append.mp hmem with hlog | hround
  · exact absurd hlog (by simp)
  · obtain ⟨i, -, hround⟩ := List.mem_flatMap.mp hround
    dsimp only at hround
    rw [List.mem_append, List.mem_append, List.mem_append, List.mem_singleton] at hround
    rcases hround with ((hinit | hsleep) | hstartup) | hsleep
    · exact absurd hinit (hsends (by simp [lapicSendInit]))
    · exact SmpEvent.pitSleep.inj hsleep
    · obtain ⟨j, -, hstartup⟩ := List.mem_flatMap.mp hstartup
      exact absurd hstartup (hsends (by simp [lapicSendStartup]))
    · exact SmpEvent.pitSleep.inj hsleep

end Script

/-! ## Ticks -/

variable {gate : Gate} {s s' : WakeupState} {before during : List (Label (Op SmpEvent))}
  {ops : List (Label (Op SmpEvent))} {lapicId : U32} {acpiCpuids : ℕ → U8} {ncores : U8}

/-- A sleep is as long as it should be, where its deadline does not wrap. -/
theorem pitSleep_costs {m : ℕ} (hmax : ∀ nTicks, .pitSleep nTicks ∈ s.main.rest → nTicks.toNat ≤ m)
    (hfits : s.shared.toNat + n + m < 2 ^ 32) :
    Costs irq0Handler SmpEvent.deadline pitSleepEnds SmpEvent.ticks s n := by
  constructor
  · intro t e he
    cases e with
    | pitSleep _ => exact absurd he nofun
    | lapicWrite _ _ => rfl
    | log _ => rfl
  · intro j k e he d hjk hk hd hends
    cases e with
    | lapicWrite _ _ => exact absurd hd nofun
    | log _ => exact absurd hd nofun
    | pitSleep nTicks =>
        obtain rfl := Option.some.inj hd
        rw [irq0Handler_iterate, irq0Handler_iterate] at hends
        have hle := hmax nTicks he
        have hj := toNat_ticksAfter s.shared j
        have hk' := toNat_ticksAfter s.shared k
        rw [Nat.mod_eq_of_lt (by omega)] at hj hk'
        unfold pitSleepEnds pitSleepWaits eTicks at hends
        rw [Bool.not_eq_true', decide_eq_false_iff_not, BitVec.lt_def, not_lt,
          BitVec.toNat_setWidth, BitVec.toNat_setWidth, BitVec.toNat_add, hj, hk'] at hends
        show j + nTicks.toNat ≤ k
        omega

theorem pitSleep_passes : Passes irq0Handler SmpEvent.deadline pitSleepEnds := by
  intro t e d hd t'
  cases e with
  | lapicWrite _ _ => exact absurd hd nofun
  | log _ => exact absurd hd nofun
  | pitSleep nTicks =>
      obtain rfl := Option.some.inj hd
      refine ⟨2 ^ 32 - 1 - t'.toNat, ?_⟩
      have ht := t'.isLt
      have hlast := toNat_ticksAfter t' (2 ^ 32 - 1 - t'.toNat)
      have hsum := (t + nTicks).isLt
      unfold pitSleepEnds pitSleepWaits eTicks
      rw [irq0Handler_iterate, Bool.not_eq_true', decide_eq_false_iff_not, BitVec.lt_def, not_lt,
        BitVec.toNat_setWidth, BitVec.toNat_setWidth, hlast]
      omega

section Runs

variable (gate : Gate) (t : U32) (es : List SmpEvent)

theorem run_event (he : e.deadline t = none) :
    Run (WakeupStep gate) (awakeAt t (e :: es)) [.main (.event e)] (awakeAt t es) := by
  have hstep : ScriptStep SmpEvent.deadline pitSleepEnds t ⟨e :: es, none⟩ (.event e)
      ⟨es, e.deadline t⟩ := .event
  rw [he] at hstep
  exact run_singleton.mpr (.main rfl hstep)

theorem run_ticks (m : Script SmpEvent U64) (n : ℕ) :
    Run (WakeupStep gate) ⟨t, m, true, false, false, []⟩ (List.replicate n tick).flatten
      ⟨ticksAfter t n, m, true, false, false, []⟩ := by
  induction n with
  | zero => exact .start
  | succ n ih =>
      have hnext : ticksAfter t (n + 1) = (irq0 (ticksAfter t n)).1 :=
        Function.iterate_succ_apply' _ _ _
      rw [List.replicate_succ', List.flatten_append, List.flatten_singleton, hnext]
      refine ih.trans ?_
      exact (((((Run.start.snoc .request).snoc (.enter rfl rfl rfl)).snoc (.work rfl)).snoc
        (.work rfl)).snoc (.finish rfl)).snoc (.leave rfl)

theorem run_sleep (nTicks : U32)
    (hends : pitSleepEnds (ticksAfter t nTicks.toNat) (eTicks t nTicks) = true) :
    Run (WakeupStep gate) (awakeAt t (.pitSleep nTicks :: es))
      (.main (.event (.pitSleep nTicks)) ::
        ((List.replicate nTicks.toNat tick).flatten ++ [.main .wake]))
      (awakeAt (ticksAfter t nTicks.toNat) es) := by
  have hsleep : Run (WakeupStep gate) (awakeAt t (.pitSleep nTicks :: es))
      [.main (.event (.pitSleep nTicks))]
      ⟨t, ⟨es, some (eTicks t nTicks)⟩, true, false, false, []⟩ :=
    run_singleton.mpr (.main rfl .event)
  exact hsleep.trans ((run_ticks gate t _ _).snoc (.main rfl (.wake hends)))

end Runs

/-- **INIT and STARTUP stay apart**: in every run, however `irq0` comes between, at least 50
timer interrupts are delivered between two IPIs of different modes, as long as the counter
does not wrap. -/
theorem wakeup_apart (hs : Idle s)
    (hmain : s.main = ⟨cpuWakeupCores lapicId acpiCpuids ncores, none⟩)
    (hrun : Run (WakeupStep gate) s
      (before ++ .main (.event e) :: (during ++ [.main (.event e')])) s')
    {mode mode' : U32} (hmode : e.ipiMode = some mode) (hmode' : e'.ipiMode = some mode')
    (hne : mode ≠ mode')
    (hfits : s.shared.toNat + (before ++ during).countP Label.isEnter + 50 < 2 ^ 32) :
    50 ≤ during.countP Label.isEnter := by
  have hcosts := pitSleep_costs (s := s) (m := 50) (fun nTicks hmem => by
    rw [hmain] at hmem
    rw [pitSleep_mem_cpuWakeupCores lapicId acpiCpuids ncores hmem]
    exact Nat.le_refl 50) hfits
  have hscript : _ = cpuWakeupCores lapicId acpiCpuids ncores :=
    (performed_append_rest hrun).trans (by rw [hmain])
  have hsplit : performed (before ++ .main (.event e) :: (during ++ [.main (.event e')])) =
      performed before ++ e :: (performed during ++ [e']) := by
    simp [performed, eventOf]
  have hapart := cpuWakeupCores_apart lapicId acpiCpuids ncores
  rw [← hscript, hsplit, List.append_assoc, List.cons_append, List.append_assoc,
    List.singleton_append] at hapart
  exact (hapart.between hmode hmode' hne).trans (cost_between hrun hs hcosts)

/-- An INIT, a sleep through 50 interrupts, and a STARTUP. -/
theorem wakeup_apart_oneCore : ∃ before during s,
    Run (WakeupStep ⟨0, 0x28, 0xF, 0, 1⟩) (awakeAt 7#32 (cpuWakeupCores 0#32 (fun _ => 1#8) 1#8))
      (before ++ .main (.event (.lapicWrite lapicIcrlo 0x4500#32)) ::
        (during ++ [.main (.event (.lapicWrite lapicIcrlo 0x44608#32))])) s ∧
      50 ≤ during.countP Label.isEnter := by
  have hbefore := (run_event ⟨0, 0x28, 0xF, 0, 1⟩ 7#32
    (cpuWakeupCores 0#32 (fun _ => 1#8) 1#8).tail (e := .log ⟨"Waking up all cores.\n", []⟩)
    rfl).trans ((run_event _ _ _ rfl).trans (run_event _ _ _ rfl))
  have hsleep := run_sleep ⟨0, 0x28, 0xF, 0, 1⟩ 7#32
    (lapicSendStartup 1#32 0x8#32 ++ [.pitSleep 50#32]) 50#32 (by decide)
  have hduring := (run_event _ _ _ (e := .log ⟨kinfo ++ "ICR send pending..\n", []⟩) rfl).trans
    (hsleep.trans (run_event _ _ _ rfl))
  have hrun := hbefore.trans ((run_event _ _ _ rfl).trans (hduring.trans (run_event _ _ _ rfl)))
  exact ⟨_, _, _, hrun, wakeup_apart ⟨rfl, rfl⟩ rfl hrun rfl rfl (by decide) (by decide +kernel)⟩

/-! ## IPIs -/

theorem ipis_append (hi : U32) (es es' : List SmpEvent) :
    ∃ hi', ipis hi (es ++ es') = ipis hi es ++ ipis hi' es' := by
  induction es generalizing hi with
  | nil => exact ⟨hi, rfl⟩
  | cons e es ih =>
      cases e with
      | log _ => exact ih hi
      | pitSleep _ => exact ih hi
      | lapicWrite reg data =>
          rw [List.cons_append, ipis, ipis]
          split
          · exact ih data
          · split
            · obtain ⟨hi', h⟩ := ih hi
              exact ⟨hi', by rw [h, List.cons_append]⟩
            · exact ih hi

/-- An end of interrupt sends nothing, and leaves the destination alone. -/
theorem ipis_traced (hi : U32) (ops : List (Label (Op SmpEvent))) :
    ipis hi (traced lapicSendEoi ops) = ipis hi (performed ops) := by
  induction ops generalizing hi with
  | nil => rfl
  | cons l ops ih =>
      cases l with
      | finish => exact ih hi
      | request => exact ih hi
      | enter => exact ih hi
      | work => exact ih hi
      | leave => exact ih hi
      | enable _ => exact ih hi
      | main op =>
          cases op with
          | poll => exact ih hi
          | wake => exact ih hi
          | event e =>
              show ipis hi (e :: traced lapicSendEoi ops) = ipis hi (e :: performed ops)
              cases e with
              | log _ => exact ih hi
              | pitSleep _ => exact ih hi
              | lapicWrite reg data =>
                  rw [ipis, ipis, ih, ih]

/-- **The timer does not disturb the IPIs**: in every run, what the local APIC is written, by
`irq0` too, sends what the wake-up alone would send by then. -/
theorem wakeup_ipis (hmain : s.main = ⟨cpuWakeupCores lapicId acpiCpuids ncores, none⟩)
    (hrun : Run (WakeupStep gate) s ops s') (hi : U32) :
    ∃ hi', ipis hi (traced lapicSendEoi ops) ++ ipis hi' s'.main.rest =
      wakeupIpis (lapicGetId lapicId) (wakeupCores acpiCpuids ncores) := by
  have hscript : _ = cpuWakeupCores lapicId acpiCpuids ncores :=
    (performed_append_rest hrun).trans (by rw [hmain])
  obtain ⟨hi', h⟩ := ipis_append hi (performed ops) s'.main.rest
  refine ⟨hi', ?_⟩
  rw [ipis_traced, ← h, hscript]
  exact (cpuWakeupCores_sends lapicId acpiCpuids ncores).ipis hi

/-- An interrupt between the two writes of an INIT. -/
theorem wakeup_ipis_between : ∃ ops s hi',
    Run (WakeupStep ⟨0, 0x28, 0xF, 0, 1⟩) (awakeAt 7#32 (cpuWakeupCores 0#32 (fun _ => 1#8) 1#8))
      ops s ∧
      ipis 0#32 (traced lapicSendEoi ops) ++ ipis hi' s.main.rest =
        [initIpi 1#32, startupIpi 1#32] := by
  have hbefore := (run_event ⟨0, 0x28, 0xF, 0, 1⟩ 7#32
    (cpuWakeupCores 0#32 (fun _ => 1#8) 1#8).tail (e := .log ⟨"Waking up all cores.\n", []⟩)
    rfl).trans ((run_event _ _ _ rfl).trans (run_event _ _ _ rfl))
  have hrun := hbefore.trans ((run_ticks _ _ _ 1).trans (run_event _ _ _ rfl))
  obtain ⟨hi', h⟩ := wakeup_ipis rfl hrun 0#32
  exact ⟨_, _, hi', hrun, h⟩

/-! ## Coming to the end -/

theorem wakeup_clear_iff {t : U32} {m : Script SmpEvent U64}
    (hrest : ∀ nTicks, .pitSleep nTicks ∈ m.rest → nTicks = 50#32) :
    Unblocked SmpEvent.deadline pitSleepEnds t m ↔
      (∀ d ∈ m.deadline, pitSleepWaits d t = false) ∧
        (.pitSleep 50#32 ∈ m.rest → 2 ^ 32 ≤ t.toNat + 50) := by
  have hwraps : pitSleepEnds t (eTicks t 50#32) = true ↔ 2 ^ 32 ≤ t.toNat + 50 := by
    have ht := t.isLt
    have h50 : (50#32).toNat = 50 := rfl
    unfold pitSleepEnds pitSleepWaits eTicks
    rw [Bool.not_eq_true', decide_eq_false_iff_not, BitVec.lt_def, not_lt,
      BitVec.toNat_setWidth, BitVec.toNat_setWidth, BitVec.toNat_add, h50]
    omega
  constructor
  · rintro ⟨hnow, hlater⟩
    refine ⟨fun d hd => ?_, fun hmem => hwraps.mp (hlater _ hmem _ rfl)⟩
    exact (Bool.not_eq_true' _).mp (hnow d hd)
  · rintro ⟨hnow, hlater⟩
    refine ⟨fun d hd => (Bool.not_eq_true' _).mpr (hnow d hd), fun e he d hd => ?_⟩
    cases e with
    | lapicWrite _ _ => exact absurd hd nofun
    | log _ => exact absurd hd nofun
    | pitSleep nTicks =>
        obtain rfl := hrest nTicks he
        obtain rfl := Option.some.inj hd
        exact hwraps.mpr (hlater he)

/-- **The wake-up can come to its end** exactly where interrupts are enabled for it, or no
sleep is left that waits. -/
theorem wakeup_can_finish_iff (hs : Idle s)
    (hmain : s.main = ⟨cpuWakeupCores lapicId acpiCpuids ncores, none⟩)
    (hrun : Run (WakeupStep gate) s ops s') :
    (∃ ops' s'', Quiet ops' ∧ Run (WakeupStep gate) s' ops' s'' ∧ s''.main = ⟨[], none⟩) ↔
      s'.mainEnabled = true ∨ (∀ d ∈ s'.main.deadline, pitSleepWaits d s'.shared = false) ∧
        (.pitSleep 50#32 ∈ s'.main.rest → 2 ^ 32 ≤ s'.shared.toNat + 50) := by
  have hscript : _ = cpuWakeupCores lapicId acpiCpuids ncores :=
    (performed_append_rest hrun).trans (by rw [hmain])
  have hrest : ∀ nTicks, .pitSleep nTicks ∈ s'.main.rest → nTicks = 50#32 := by
    intro nTicks hmem
    apply pitSleep_mem_cpuWakeupCores lapicId acpiCpuids ncores
    rw [← hscript]
    exact List.mem_append_right _ hmem
  rw [exists_finish_iff pitSleep_passes hs (by rw [hmain]) hrun, wakeup_clear_iff hrest]

theorem wakeup_can_finish_oneCore : ∃ ops s,
    Run (WakeupStep ⟨0, 0x28, 0xF, 0, 1⟩) (awakeAt 7#32 (cpuWakeupCores 0#32 (fun _ => 1#8) 1#8))
      ops s ∧ s.main = ⟨[], none⟩ := by
  have hstart : Run (WakeupStep ⟨0, 0x28, 0xF, 0, 1⟩)
      (awakeAt 7#32 (cpuWakeupCores 0#32 (fun _ => 1#8) 1#8)) [] _ := .start
  obtain ⟨ops, s, -, hrun, hend⟩ :=
    (wakeup_can_finish_iff ⟨rfl, rfl⟩ rfl hstart).mpr (.inl rfl)
  exact ⟨ops, s, hrun, hend⟩

end FacelessOS
