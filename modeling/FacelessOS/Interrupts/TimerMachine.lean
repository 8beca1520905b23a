import FacelessOS.Interrupts.Idt
import FacelessOS.Lib.Reentrant
import FacelessOS.Timer.Pit

/-!
# The timer interrupt, interleaved (`irq.c`, `IDT.c`, `pit.c`)

The machine is the CPU with its interrupt flag, the local APIC with the timer's request and
in-service bits, and the kernel, which `irq0` interrupts between any two of its steps. The
gate is a trap gate, so `irq0` can be interrupted by itself, behind its end of interrupt and
to any depth (`idt_install_nests`). It counts before, so every interrupt is counted once all
the same (`ticks_exact`), and a sleep lasts as long as it should exactly where its deadline
does not wrap (`pitSleep_honoured_iff`).
-/

namespace FacelessOS

open Reentrant Runs

/-- `irq0` up to the end of interrupt: `pit_ticks` is loaded into a register, and stored when
it is counted up. -/
def irq0Handler : Handler U32 U32 where
  entry := 0
  body := [fun s => (s.1, s.1), fun s => ((irq0 s.2).1, s.2)]

/-- The kernel: in the loop of `pit_sleep`, or anywhere else, where it leaves `pit_ticks`
alone. -/
inductive Sleeper where
  | awake
  | sleeping (eTicks : U64)

inductive SleeperOp where
  | sleep (nTicks : U32)
  | poll
  | wake

/-- `pit_sleep`. A `poll` goes on waiting, and a `wake` is the poll that does not. -/
inductive PitSleepStep : U32 → Sleeper → SleeperOp → Sleeper → Prop where
  | sleep {t n : U32} : PitSleepStep t .awake (.sleep n) (.sleeping (eTicks t n))
  | poll {t : U32} {e : U64} : pitSleepWaits e t = true →
      PitSleepStep t (.sleeping e) .poll (.sleeping e)
  | wake {t : U32} {e : U64} : pitSleepWaits e t = false →
      PitSleepStep t (.sleeping e) .wake .awake

/-- The CPU clears the interrupt flag on the way through an interrupt gate, type `0xE`, and
keeps it on the way through a trap gate. -/
def Gate.masks (gate : Gate) : Bool := gate.type = 0xE#4

def timerGate (idt : Idt) : Gate := decodeGate (idt 0x20#8).image

abbrev TimerState : Type := State U32 U32 Sleeper

abbrev TimerStep (gate : Gate) : TimerState → Label SleeperOp → TimerState → Prop :=
  Step irq0Handler gate.masks PitSleepStep

def timerStart (pitTicks : U32) : TimerState := ⟨pitTicks, .awake, true, false, false, []⟩

theorem timerStart_idle (t : U32) : Idle (timerStart t) := ⟨rfl, rfl⟩

theorem irq0Handler_iterate (t : U32) (k : ℕ) : irq0Handler.effect^[k] t = ticksAfter t k := rfl

variable {gate : Gate} {s s' : TimerState} {ops during : List (Label SleeperOp)} {t n : U32}

/-! ## Counting -/

/-- The timer raises no interrupt while one is pending. -/
def Spaced (s : TimerState) (l : Label SleeperOp) : Prop :=
  l.isRequest = true → s.requested = false

/-- **Every interrupt is counted once.** In every run, however `irq0` is interrupted by
itself and the kernel by `irq0`: `pit_ticks` is what as many interrupts make of it as were
delivered, outside of the service of one; no more are delivered than were raised, and all
but a pending one where none was raised too early. When all have returned, the kernel that
did nothing meanwhile finds all else as it was. -/
theorem ticks_exact (hs : Idle s) (hrun : Run (TimerStep gate) s ops s') :
    (s'.inService = false → s'.shared = ticksAfter s.shared (ops.countP Label.isEnter)) ∧
    ops.countP Label.isEnter + s'.requested.toNat ≤
      ops.countP Label.isRequest + s.requested.toNat ∧
    (Run (Guarded Spaced (TimerStep gate)) s ops s' →
      ops.countP Label.isEnter + s'.requested.toNat =
        ops.countP Label.isRequest + s.requested.toNat) ∧
    ((∀ l ∈ ops, l.IsInterrupt) → s'.stack = [] → s' = { s with
      shared := ticksAfter s.shared (ops.countP Label.isEnter)
      requested := s'.requested }) :=
  ⟨fun hservice => Run.shared_eq hrun hs hservice, (Run.accounted hrun hs).requests,
    fun hspaced => Run.entered hspaced hs,
    fun hops hstack => Run.transparent hrun hs hops hstack⟩

/-- `irq0` interrupted by itself, before it returns. -/
theorem ticks_exact_nested : ∃ s, Run (TimerStep ⟨0, 0x28, 0xF, 0, 1⟩) (timerStart 7#32)
    [.request, .enter, .work, .work, .finish, .request, .enter, .work, .work, .finish, .leave,
      .leave] s ∧ s = timerStart 9#32 := by
  have hfirst : Run (TimerStep ⟨0, 0x28, 0xF, 0, 1⟩) (timerStart 7#32)
      [.request, .enter, .work, .work, .finish] ⟨8#32, .awake, true, false, false, [.done true]⟩ :=
    ((((Run.start.snoc .request).snoc (.enter rfl rfl rfl)).snoc (.work rfl)).snoc
      (.work rfl)).snoc (.finish rfl)
  have hsecond : Run (TimerStep ⟨0, 0x28, 0xF, 0, 1⟩)
      ⟨8#32, .awake, true, false, false, [.done true]⟩
      [.request, .enter, .work, .work, .finish, .leave, .leave] _ :=
    ((((((Run.start.snoc .request).snoc (.enter rfl rfl rfl)).snoc (.work rfl)).snoc
      (.work rfl)).snoc (.finish rfl)).snoc (.leave rfl)).snoc (.leave rfl)
  refine ⟨_, hfirst.trans hsecond, ?_⟩
  obtain ⟨-, -, -, hback⟩ := ticks_exact (timerStart_idle 7#32) (hfirst.trans hsecond)
  exact hback (by simp [Label.IsInterrupt]) rfl

/-! ## Nesting -/

/-- What `idt_install` leaves under the vector of the timer. -/
theorem timerGate_installed (idt : Idt) (exceptions : ℕ → U64) (irq0 : U64) :
    timerGate (setIdtDescs idt (setupExceptions exceptions ++ setupIrqs irq0)) =
      ⟨irq0, 0x28, 0xF, 0, 1⟩ := by
  unfold timerGate
  rw [setIdtDescs_get, setupIrqs, lastCall_concat, if_pos rfl]
  exact decodeGate_setIdtDesc ..

/-- **`irq0` can be interrupted by itself to any depth**: there is no bound on the number of
its frames on the stack, with the gate that `idt_install` makes from its flags for an
interrupt gate. Through an interrupt gate there would never be more than one. -/
theorem idt_install_nests (idt : Idt) (exceptions : ℕ → U64) (irq0 : U64) (t : U32) :
    (∀ n, ∃ ops s, Run (TimerStep
      (timerGate (setIdtDescs idt (setupExceptions exceptions ++ setupIrqs irq0))))
      (timerStart t) ops s ∧ s.stack.length = n) ∧
    ∀ gate, gate.type = intGateFlags.extractLsb' 0 4 → ∀ ops s,
      Run (TimerStep gate) (timerStart t) ops s → s.stack.length ≤ 1 := by
  constructor
  · intro n
    rw [timerGate_installed]
    obtain ⟨ops, s, hrun, hlen, -, -⟩ :=
      exists_nested irq0Handler PitSleepStep (s := timerStart t) rfl rfl n
    exact ⟨ops, s, hrun, hlen.trans (Nat.zero_add n)⟩
  · intro gate htype ops s hrun
    have hmasks : gate.masks = true := decide_eq_true htype
    unfold TimerStep at hrun
    rw [hmasks] at hrun
    exact Run.length_le_one hrun rfl

/-! ## Sleeping -/

theorem sleep_cases {m m' : Sleeper} (h : PitSleepStep t m (.sleep n) m') :
    m' = .sleeping (eTicks t n) := by
  cases h with
  | sleep => rfl

theorem wake_cases {e : U64} {m : Sleeper} (h : PitSleepStep t (.sleeping e) .wake m) :
    pitSleepWaits e t = false := by
  cases h with
  | wake hends => exact hends

theorem poll_cases {e : U64} {m : Sleeper} (h : PitSleepStep t (.sleeping e) .poll m) :
    pitSleepWaits e t = true := by
  cases h with
  | poll hwaits => exact hwaits

theorem sleeps_on {e : U64} {l : Label SleeperOp} (hstep : TimerStep gate s l s')
    (hmain : s.main = .sleeping e) (hl : l ≠ .main .wake) : s'.main = .sleeping e := by
  cases hstep with
  | main hstack hop =>
      rw [hmain] at hop
      cases hop with
      | poll _ => rfl
      | wake _ => exact absurd rfl hl
  | request => exact hmain
  | enter _ _ _ => exact hmain
  | work _ => exact hmain
  | finish _ => exact hmain
  | leave _ => exact hmain
  | enable _ => exact hmain

/-- The state while a sleep lasts that began at `t`, with `ops` since then. -/
structure Sleeping (t n : U32) (ops : List (Label SleeperOp)) (s : TimerState) : Prop where
  main : s.main = .sleeping (eTicks t n)
  ticks : s.stack = [] → s.shared = ticksAfter t (ops.countP Label.isEnter)
  saved : ∀ f ∈ s.stack, f.saved = true
  atomic : ∃ k, Atomic irq0Handler t k s

theorem sleeping_of_run (hs : Idle s)
    (hrun : Run (TimerStep gate) s (.main (.sleep n) :: during) s')
    (hwake : .main .wake ∉ during) : Sleeping s.shared n during s' := by
  rw [← List.singleton_append, run_append] at hrun
  obtain ⟨s₁, hsleep, hrun⟩ := hrun
  obtain ⟨-, m, hm, rfl⟩ := step_main.mp (run_singleton.mp hsleep)
  obtain rfl := sleep_cases hm
  have hidle : Idle ({ s with main := .sleeping (eTicks s.shared n) } : TimerState) :=
    ⟨hs.stack, hs.inService⟩
  have hcount := Run.accounted hrun hidle
  refine ⟨?_, fun hstack => ?_, ?_, _, hcount.atomic⟩
  · exact hrun.history_invariant
      (P := fun ops t => .main .wake ∉ ops → t.main = .sleeping (eTicks s.shared n))
      (fun _ => rfl) (fun ops t l t' ht hstep hops => by
        rw [List.mem_append, not_or, List.mem_singleton] at hops
        exact sleeps_on hstep (ht hops.1) (Ne.symm hops.2)) hwake
  · exact Run.shared_eq hrun hidle (hcount.atomic.stack_nil hstack).1
  · refine hrun.invariant (P := fun t => ∀ f ∈ t.stack, f.saved = true) ?_
      fun _ _ _ ht hstep => hstep.saved ht
    rw [hidle.stack]
    exact fun _ hf => absurd hf List.not_mem_nil

/-- **A sleep lasts as many interrupts as it should**, in every run, exactly where its deadline
does not wrap; and a poll goes on waiting only where there were fewer, or the counter has
wrapped. -/
theorem pitSleep_honoured_iff (gate : Gate) (t n : U32) :
    ((∀ (s s' : TimerState) (during : List (Label SleeperOp)), Idle s → s.shared = t →
      .main .wake ∉ during →
      Run (TimerStep gate) s (.main (.sleep n) :: (during ++ [.main .wake])) s' →
      n.toNat ≤ during.countP Label.isEnter) ↔ t.toNat + n.toNat < 2 ^ 32) ∧
    ∀ (s s' : TimerState) (during : List (Label SleeperOp)), Idle s → s.shared = t →
      .main .wake ∉ during →
      Run (TimerStep gate) s (.main (.sleep n) :: (during ++ [.main .poll])) s' →
      t.toNat + during.countP Label.isEnter < 2 ^ 32 → during.countP Label.isEnter < n.toNat := by
  refine ⟨⟨fun hall => ?_, ?_⟩, ?_⟩
  · -- a sleep whose deadline wraps may end at once
    by_contra hwrap
    have hends : pitSleepWaits (eTicks t n) t = false := by
      have hiff := pitSleepWaits_iff t n 0
      rw [show ticksAfter t 0 = t from rfl] at hiff
      rw [hiff]
      have ht := t.isLt
      have hn := n.isLt
      omega
    have hrun : Run (TimerStep gate) ⟨t, .awake, true, false, false, []⟩
        [.main (.sleep n), .main .wake] ⟨t, .awake, true, false, false, []⟩ :=
      (Run.start.snoc (.main rfl .sleep)).snoc (.main rfl (.wake hends))
    have hzero := hall _ _ [] ⟨rfl, rfl⟩ rfl List.not_mem_nil hrun
    have ht := t.isLt
    rw [List.countP_nil] at hzero
    omega
  · rintro hfits s s' during hs rfl hwake hrun
    rw [← List.cons_append] at hrun
    obtain ⟨u, hsleep, hlast⟩ := run_snoc.mp hrun
    have hsleeping := sleeping_of_run hs hsleep hwake
    obtain ⟨hstack, m, hm, -⟩ := step_main.mp hlast
    rw [hsleeping.main, hsleeping.ticks hstack] at hm
    have hends := (pitSleepWaits_iff s.shared n _).mp (wake_cases hm)
    rw [Nat.mod_eq_of_lt hfits] at hends
    have hle := Nat.mod_le (s.shared.toNat + during.countP Label.isEnter) (2 ^ 32)
    omega
  · rintro s s' during hs rfl hwake hrun hfits
    rw [← List.cons_append] at hrun
    obtain ⟨u, hsleep, hlast⟩ := run_snoc.mp hrun
    have hsleeping := sleeping_of_run hs hsleep hwake
    obtain ⟨hstack, m, hm, -⟩ := step_main.mp hlast
    rw [hsleeping.main, hsleeping.ticks hstack] at hm
    have hwaits := poll_cases hm
    rw [← Bool.not_eq_false, pitSleepWaits_iff, Nat.mod_eq_of_lt hfits, not_le] at hwaits
    have hle := Nat.mod_le (s.shared.toNat + n.toNat) (2 ^ 32)
    omega

theorem exists_ticks (t n : U32) (k : ℕ) :
    ∃ m, pitSleepWaits (eTicks t n) (ticksAfter t (k + m)) = false := by
  refine ⟨n.toNat + (2 ^ 32 - k % 2 ^ 32), ?_⟩
  rw [pitSleepWaits_iff]
  omega

/-- **A sleep can still end** exactly where interrupts are enabled for it, or the counter is
there already. -/
theorem pitSleep_can_end_iff (hs : Idle s)
    (hrun : Run (TimerStep gate) s (.main (.sleep n) :: during) s')
    (hwake : .main .wake ∉ during) :
    (∃ ops s'', (∀ l ∈ ops, l.IsInterrupt) ∧
      Run (TimerStep gate) s' (ops ++ [.main .wake]) s'') ↔
      s'.mainEnabled = true ∨ pitSleepWaits (eTicks s.shared n) s'.shared = false := by
  have hsleeping := sleeping_of_run hs hrun hwake
  by_cases henabled : s'.mainEnabled = true
  · refine iff_of_true ?_ (.inl henabled)
    -- the handlers return, and as many more interrupts come as it takes
    obtain ⟨k, hatomic⟩ := hsleeping.atomic
    obtain ⟨ops, u, hops, hreturn, hstack⟩ :=
      exists_return irq0Handler gate.masks PitSleepStep hatomic
    have hquiet : .main .wake ∉ during ++ ops := by
      rw [List.mem_append, not_or]
      exact ⟨hwake, fun hmem => hops _ hmem⟩
    have hall := hrun.trans hreturn
    rw [List.cons_append] at hall
    have hu := sleeping_of_run hs hall hquiet
    obtain ⟨k', hatomic'⟩ := hu.atomic
    have hidle : Idle u := ⟨hstack, (hatomic'.stack_nil hstack).1⟩
    have hon : u.enabled = true := by
      have hkept := (Run.main_kept hreturn hops).2
      rw [henabled, State.mainEnabled, hstack] at hkept
      exact hkept
    obtain ⟨m, hm⟩ := exists_ticks s.shared n ((during ++ ops).countP Label.isEnter)
    obtain ⟨ops', b, hops', hticks⟩ :=
      exists_effect irq0Handler gate.masks PitSleepStep hidle hon m
    have hshared : irq0Handler.effect^[m] u.shared =
        ticksAfter s.shared ((during ++ ops).countP Label.isEnter + m) := by
      rw [hu.ticks hstack, Nat.add_comm, ← irq0Handler_iterate, ← irq0Handler_iterate,
        Function.iterate_add_apply]
    have hlast : TimerStep gate
        { u with shared := irq0Handler.effect^[m] u.shared, requested := b } (.main .wake) _ :=
      .main hstack (by rw [hu.main, hshared]; exact .wake hm)
    have hend := (hreturn.trans hticks).snoc hlast
    exact ⟨ops ++ ops', _, List.forall_mem_append.mpr ⟨hops, hops'⟩, hend⟩
  · obtain ⟨hstack, hdisabled⟩ :=
      stack_of_not_mainEnabled hsleeping.saved (Bool.not_eq_true _ ▸ henabled)
    constructor
    · rintro ⟨ops, s'', hops, hrun'⟩
      obtain ⟨u, hrest, hlast⟩ := run_snoc.mp hrun'
      obtain ⟨-, m, hm, -⟩ := step_main.mp hlast
      rw [(Run.main_kept hrest hops).1, hsleeping.main,
        Run.disabled hrest hops hstack hdisabled] at hm
      exact .inr (wake_cases hm)
    · rintro (hon | hends)
      · exact absurd hon henabled
      · have hlast : TimerStep gate s' (.main .wake) { s' with main := .awake } :=
          .main hstack (by rw [hsleeping.main]; exact .wake hends)
        exact ⟨[], _, fun _ hl => absurd hl List.not_mem_nil, run_singleton.mpr hlast⟩

/-- A sleep of two ticks that has polled once. -/
theorem pitSleep_can_end_seven : ∃ ops s, Run (TimerStep ⟨0, 0x28, 0xF, 0, 1⟩)
    ⟨7#32, .sleeping 9#64, true, false, false, []⟩ (ops ++ [.main .wake]) s := by
  have hrun : Run (TimerStep ⟨0, 0x28, 0xF, 0, 1⟩) (timerStart 7#32)
      [.main (.sleep 2#32), .main .poll] ⟨7#32, .sleeping 9#64, true, false, false, []⟩ :=
    (Run.start.snoc (.main rfl .sleep)).snoc (.main rfl (.poll (by decide)))
  obtain ⟨ops, s, -, hend⟩ :=
    (pitSleep_can_end_iff (timerStart_idle 7#32) hrun (by simp)).mpr (.inl rfl)
  exact ⟨ops, s, hend⟩

end FacelessOS
