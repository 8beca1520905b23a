import FacelessOS.Lib.Reentrant

/-!
# Programs that wait for their interrupts

A program goes through a list of events. Behind an event it may have to wait until the shared
state, which only the handlers change, is past a deadline that it sets then.

Events keep their order, whatever the handlers do between them (`performed_append_rest`). Between
two events there are as many handlers as the deadlines ask for (`cost_between`), and the
program can come to its end exactly where interrupts are enabled for it or nothing is left to
wait for (`exists_finish_iff`).
-/

namespace Scripts

open Runs Reentrant

/-- The events that are left, and what is waited for in front of them. -/
structure Script (ε δ : Type*) where
  rest : List ε
  deadline : Option δ

inductive Op (ε : Type*) where
  | event (e : ε)
  | poll
  | wake

/-- A `poll` goes on waiting, and a `wake` is the poll that does not. -/
inductive ScriptStep {σ ε δ : Type*} (arm : σ → ε → Option δ) (past : σ → δ → Bool) :
    σ → Script ε δ → Op ε → Script ε δ → Prop where
  | event {s : σ} {e : ε} {rest : List ε} :
      ScriptStep arm past s ⟨e :: rest, none⟩ (.event e) ⟨rest, arm s e⟩
  | poll {s : σ} {d : δ} {rest : List ε} : past s d = false →
      ScriptStep arm past s ⟨rest, some d⟩ .poll ⟨rest, some d⟩
  | wake {s : σ} {d : δ} {rest : List ε} : past s d = true →
      ScriptStep arm past s ⟨rest, some d⟩ .wake ⟨rest, none⟩

section Programs

variable {σ ρ ε δ : Type*}

def eventOf : Label (Op ε) → Option ε
  | .main (.event e) => some e
  | _ => none

/-- The events of a run. -/
def performed (ops : List (Label (Op ε))) : List ε := ops.filterMap eventOf

/-- The events of a run, with those that a handler makes when it tells the controller. -/
def traced (told : List ε) (ops : List (Label (Op ε))) : List ε :=
  ops.flatMap fun l => if l.isFinish then told else (eventOf l).toList

/-- What the deadlines of these events ask for, in handlers. -/
def cost (c : ε → ℕ) (es : List ε) : ℕ := es.foldr (fun e n => c e + n) 0

abbrev ProgramState (σ ρ ε δ : Type*) : Type _ := State σ ρ (Script ε δ)

abbrev ProgramStep (h : Handler σ ρ) (masks : Bool) (arm : σ → ε → Option δ)
    (past : σ → δ → Bool) : ProgramState σ ρ ε δ → Label (Op ε) → ProgramState σ ρ ε δ → Prop :=
  Step h masks (ScriptStep arm past)

variable {h : Handler σ ρ} {masks : Bool} {arm : σ → ε → Option δ} {past : σ → δ → Bool}
  {s s' u : ProgramState σ ρ ε δ} {ops during : List (Label (Op ε))} {l : Label (Op ε)}
  {e e' : ε} {d : δ} {c : ε → ℕ} {n : ℕ}

theorem performed_concat (ops : List (Label (Op ε))) (l : Label (Op ε)) :
    performed (ops ++ [l]) = performed ops ++ (eventOf l).toList := by
  unfold performed
  rw [List.filterMap_append]
  cases hl : eventOf l with
  | none => rw [List.filterMap_cons_none hl]; rfl
  | some e => rw [List.filterMap_cons_some hl]; rfl

theorem performed_concat_none (ops : List (Label (Op ε))) (hl : eventOf l = none) :
    performed (ops ++ [l]) = performed ops := by
  rw [performed_concat, hl]
  exact List.append_nil _

theorem cost_append (c : ε → ℕ) (es es' : List ε) :
    cost c (es ++ es') = cost c es + cost c es' := by
  induction es with
  | nil => exact (Nat.zero_add _).symm
  | cons e es ih =>
      have hcons : ∀ es, cost c (e :: es) = c e + cost c es := fun _ => rfl
      rw [List.cons_append, hcons, hcons, ih, Nat.add_assoc]

theorem step_cases (hstep : ProgramStep h masks arm past s l s') :
    (∃ op, l = .main op ∧ s.stack = [] ∧ ScriptStep arm past s.shared s.main op s'.main ∧
      s' = { s with main := s'.main }) ∨
    s'.main = s.main ∧ ∀ op, l ≠ .main op := by
  cases hstep with
  | main hstack hop => exact .inl ⟨_, rfl, hstack, hop, rfl⟩
  | request => exact .inr ⟨rfl, nofun⟩
  | enter _ _ _ => exact .inr ⟨rfl, nofun⟩
  | work _ => exact .inr ⟨rfl, nofun⟩
  | finish _ => exact .inr ⟨rfl, nofun⟩
  | leave _ => exact .inr ⟨rfl, nofun⟩
  | enable _ => exact .inr ⟨rfl, nofun⟩

theorem eventOf_none (hl : ∀ op, l ≠ .main op) : eventOf l = none := by
  cases l with
  | main op => exact absurd rfl (hl op)
  | request | enter | work | finish | leave | enable _ => rfl

theorem performed_append_rest (hrun : Run (ProgramStep h masks arm past) s ops s') :
    performed ops ++ s'.main.rest = s.main.rest := by
  apply hrun.history_invariant (P := fun ops t => performed ops ++ t.main.rest = s.main.rest)
  · rfl
  · intro ops t l t' ht hstep
    rw [performed_concat, List.append_assoc]
    rcases step_cases hstep with ⟨op, rfl, -, hop, -⟩ | ⟨hmain, hl⟩
    · generalize t.main = m, t'.main = m' at ht hop ⊢
      cases hop with
      | event => exact ht
      | poll _ => exact ht
      | wake _ => exact ht
    · rw [hmain, eventOf_none hl]
      exact ht

/-! ## Waiting -/

/-- The handlers so far pay for the events, and those up to the deadline for the last one
too. -/
structure Paid (h : Handler σ ρ) (arm : σ → ε → Option δ) (c : ε → ℕ) (s : ProgramState σ ρ ε δ)
    (ops : List (Label (Op ε))) (m : Script ε δ) : Prop where
  awake : m.deadline = none → cost c (performed ops) ≤ ops.countP Label.isEnter
  waiting : ∀ d, m.deadline = some d → ∃ j, ∃ e ∈ s.main.rest, j ≤ ops.countP Label.isEnter ∧
    arm (h.effect^[j] s.shared) e = some d ∧ cost c (performed ops) ≤ j + c e

/-- For the first `n` handlers, a deadline that is past was passed by as many as its event
costs. -/
structure Costs (h : Handler σ ρ) (arm : σ → ε → Option δ) (past : σ → δ → Bool) (c : ε → ℕ)
    (s : ProgramState σ ρ ε δ) (n : ℕ) : Prop where
  free : ∀ t e, arm t e = none → c e = 0
  passed : ∀ j k, ∀ e ∈ s.main.rest, ∀ d, j ≤ k → k ≤ n → arm (h.effect^[j] s.shared) e = some d →
    past (h.effect^[k] s.shared) d = true → j + c e ≤ k

theorem paid_of_run (hrun : Run (ProgramStep h masks arm past) s ops s') (hs : Idle s)
    (hstart : s.main.deadline = none) (hcosts : Costs h arm past c s n)
    (hn : ops.countP Label.isEnter ≤ n) : Paid h arm c s ops s'.main := by
  induction hrun with
  | start => exact ⟨fun _ => Nat.zero_le _, fun d hd => absurd (hstart.symm.trans hd) nofun⟩
  | @snoc ops l t t' hrun hstep ih =>
      rw [countP_concat] at hn
      obtain ⟨hawake, hwaiting⟩ := ih (Nat.le_of_add_right_le hn)
      rcases step_cases hstep with ⟨op, rfl, hstack, hop, -⟩ | ⟨hmain, hl⟩
      · have hshared : t.shared = h.effect^[ops.countP Label.isEnter] s.shared :=
          Run.shared_eq hrun hs ((Run.accounted hrun hs).atomic.stack_nil hstack).1
        have hcount : (ops ++ [Label.main op]).countP Label.isEnter = ops.countP Label.isEnter :=
          countP_concat _ _ _
        have hrest := performed_append_rest hrun
        rw [hshared] at hop
        generalize t.main = m, t'.main = m' at hawake hwaiting hop hrest ⊢
        cases hop with
        | @event e rest =>
            have hspent : cost c (performed (ops ++ [.main (.event e)])) =
                cost c (performed ops) + c e := by
              rw [performed_concat, cost_append]
              simp [cost, eventOf]
            constructor
            · intro harm
              rw [hspent, hcount, hcosts.free _ _ harm]
              exact hawake rfl
            · intro d harm
              have hmem : e ∈ s.main.rest := by
                rw [← hrest]
                exact List.mem_append_right _ List.mem_cons_self
              rw [hspent, hcount]
              exact ⟨_, e, hmem, Nat.le_refl _, harm, Nat.add_le_add_right (hawake rfl) _⟩
        | poll _ =>
            refine ⟨nofun, fun d hd => ?_⟩
            rw [performed_concat_none _ rfl, hcount]
            exact hwaiting d hd
        | @wake d rest hover =>
            refine ⟨fun _ => ?_, nofun⟩
            obtain ⟨j, e, he, hj, harm, hcost⟩ := hwaiting d rfl
            rw [performed_concat_none _ rfl, hcount]
            exact Nat.le_trans hcost
              (hcosts.passed j _ e he d hj (Nat.le_of_add_right_le hn) harm hover)
      · have hspent := performed_concat_none ops (eventOf_none hl)
        rw [hmain]
        constructor
        · intro hd
          rw [hspent, countP_concat]
          exact Nat.le_trans (hawake hd) (Nat.le_add_right _ _)
        · intro d hd
          obtain ⟨j, e, he, hj, harm, hcost⟩ := hwaiting d hd
          rw [hspent, countP_concat]
          exact ⟨j, e, he, Nat.le_trans hj (Nat.le_add_right _ _), harm, hcost⟩

theorem awake_of_event {t : σ} {m m' : Script ε δ}
    (hop : ScriptStep arm past t m (.event e) m') : m.deadline = none := by
  cases hop with
  | event => rfl

/-- **Between any two events as many handlers are entered as the deadlines between them ask
for.** -/
theorem cost_between {before : List (Label (Op ε))}
    (hrun : Run (ProgramStep h masks arm past) s
      (before ++ .main (.event e) :: (during ++ [.main (.event e')])) s') (hs : Idle s)
    (hcosts : Costs h arm past c s ((before ++ during).countP Label.isEnter)) :
    cost c (e :: performed during) ≤ during.countP Label.isEnter := by
  obtain ⟨u, hbefore, hrest⟩ := run_append.mp hrun
  rw [← List.cons_append] at hrest
  obtain ⟨v, hduring, hlast⟩ := run_snoc.mp hrest
  obtain ⟨w, hfirst, -⟩ := run_append.mp
    (show Run _ u ([.main (.event e)] ++ during) v from hduring)
  obtain ⟨hstack, m, hevent, -⟩ := step_main.mp (run_singleton.mp hfirst)
  obtain ⟨-, m', hevent', -⟩ := step_main.mp hlast
  have hidle : Idle u := ⟨hstack, ((Run.accounted hbefore hs).atomic.stack_nil hstack).1⟩
  have hshared := Run.shared_eq hbefore hs hidle.inService
  have hleft := performed_append_rest hbefore
  rw [List.countP_append] at hcosts
  have hcosts' : Costs h arm past c u (during.countP Label.isEnter) := by
    refine ⟨hcosts.free, fun j k e he d hjk hk harm hover => ?_⟩
    rw [hshared, ← Function.iterate_add_apply] at harm hover
    have hmem : e ∈ s.main.rest := by
      rw [← hleft]
      exact List.mem_append_right _ he
    have hle := hcosts.passed _ _ e hmem d (Nat.add_le_add_right hjk _)
      (by rw [Nat.add_comm]; exact Nat.add_le_add_left hk _) harm hover
    omega
  exact (paid_of_run hduring hidle (awake_of_event hevent) hcosts' (Nat.le_refl _)).awake
    (awake_of_event hevent')

/-! ## Coming to the end -/

/-- Nothing is left to wait for in this state. -/
structure Unblocked (arm : σ → ε → Option δ) (past : σ → δ → Bool) (t : σ) (m : Script ε δ) :
    Prop where
  now : ∀ d ∈ m.deadline, past t d = true
  later : ∀ e ∈ m.rest, ∀ d ∈ arm t e, past t d = true

theorem Unblocked.of_step {t : σ} {op : Op ε} {m m' : Script ε δ}
    (hstep : ScriptStep arm past t m op m') (hm : Unblocked arm past t m') :
    Unblocked arm past t m := by
  cases hstep with
  | event => exact ⟨nofun, List.forall_mem_cons.mpr ⟨hm.now, hm.later⟩⟩
  | poll _ => exact hm
  | wake hover => exact ⟨fun d hd => Option.some.inj hd ▸ hover, hm.later⟩

/-- Every deadline passes with enough handlers. -/
def Passes (h : Handler σ ρ) (arm : σ → ε → Option δ) (past : σ → δ → Bool) : Prop :=
  ∀ t e d, arm t e = some d → ∀ t', ∃ k, past (h.effect^[k] t') d = true

def Armed (arm : σ → ε → Option δ) (m : Script ε δ) : Prop :=
  ∀ d ∈ m.deadline, ∃ t e, arm t e = some d

theorem armed_of_run (hrun : Run (ProgramStep h masks arm past) s ops s')
    (hstart : Armed arm s.main) : Armed arm s'.main := by
  apply hrun.invariant (P := fun t => Armed arm t.main) hstart
  intro t l t' ht hstep
  rcases step_cases hstep with ⟨op, rfl, -, hop, -⟩ | ⟨hmain, -⟩
  · generalize t.main = m, t'.main = m' at ht hop ⊢
    cases hop with
    | event => exact fun d hd => ⟨_, _, hd⟩
    | poll _ => exact ht
    | wake _ => exact nofun
  · rw [hmain]
    exact ht

/-- The steps leave the flag of the program alone. -/
def Quiet (ops : List (Label (Op ε))) : Prop := ∀ l ∈ ops, ∀ b, l ≠ .enable b

theorem Quiet.append {ops' : List (Label (Op ε))} (hops : Quiet ops) (hops' : Quiet ops') :
    Quiet (ops ++ ops') := List.forall_mem_append.mpr ⟨hops, hops'⟩

theorem Quiet.of_interrupts (hops : ∀ l ∈ ops, l.IsInterrupt) : Quiet ops := by
  rintro l hl b rfl
  exact hops _ hl

/-- A wait can end, where it is over or interrupts are enabled. -/
theorem exists_wake (masks : Bool) (arm : σ → ε → Option δ) (hu : Idle u)
    (hends : ∀ d ∈ u.main.deadline, past u.shared d = true ∨
      u.enabled = true ∧ ∃ k, past (h.effect^[k] u.shared) d = true) :
    ∃ ops b t, Quiet ops ∧ (u.enabled = false → t = u.shared) ∧
      Run (ProgramStep h masks arm past) u ops
        { u with shared := t, requested := b, main := ⟨u.main.rest, none⟩ } := by
  cases hmain : u.main with
  | mk rest deadline =>
      cases deadline with
      | none =>
          refine ⟨[], u.requested, u.shared, nofun, fun _ => rfl, ?_⟩
          rw [← hmain]
          exact .start
      | some d =>
          rcases hends d (by rw [hmain]; rfl) with hover | ⟨henabled, k, hover⟩
          · refine ⟨[.main .wake], u.requested, u.shared, by simp [Quiet], fun _ => rfl, ?_⟩
            exact run_singleton.mpr (.main hu.stack (by rw [hmain]; exact .wake hover))
          · obtain ⟨ops, b, hops, hrun⟩ :=
              exists_effect h masks (ScriptStep arm past) hu henabled k
            refine ⟨ops ++ [.main .wake], b, h.effect^[k] u.shared,
              (Quiet.of_interrupts hops).append (by simp [Quiet]),
              fun hoff => absurd (hoff.symm.trans henabled) Bool.false_ne_true, ?_⟩
            exact hrun.snoc (.main hu.stack (by rw [hmain]; exact .wake hover))

theorem exists_finish (masks : Bool) (hpasses : Passes h arm past) (hu : Idle u)
    (harmed : Armed arm u.main) (hclear : u.enabled = true ∨ Unblocked arm past u.shared u.main) :
    ∃ ops u', Quiet ops ∧ Run (ProgramStep h masks arm past) u ops u' ∧
      u'.main = ⟨[], none⟩ := by
  obtain ⟨rest, hrest⟩ : ∃ rest, u.main.rest = rest := ⟨_, rfl⟩
  have hends : ∀ u : ProgramState σ ρ ε δ, Armed arm u.main →
      u.enabled = true ∨ Unblocked arm past u.shared u.main →
      ∀ d ∈ u.main.deadline, past u.shared d = true ∨
        u.enabled = true ∧ ∃ k, past (h.effect^[k] u.shared) d = true := by
    rintro u harmed (henabled | hclear) d hd
    · obtain ⟨t, e, harm⟩ := harmed d hd
      exact .inr ⟨henabled, hpasses t e d harm u.shared⟩
    · exact .inl (hclear.now d hd)
  induction rest generalizing u with
  | nil =>
      obtain ⟨ops, b, t, hops, -, hrun⟩ := exists_wake masks arm hu (hends u harmed hclear)
      rw [hrest] at hrun
      exact ⟨ops, _, hops, hrun, rfl⟩
  | cons e rest ih =>
      obtain ⟨ops, b, t, hops, hkept, hrun⟩ :=
        exists_wake masks arm hu (hends u harmed hclear)
      rw [hrest] at hrun
      have hevent := hrun.snoc (.main hu.stack .event)
      obtain ⟨ops', u', hops', hrun', hend⟩ := ih (u := { u with
          shared := t, requested := b, main := ⟨rest, arm t e⟩ }) ⟨hu.stack, hu.inService⟩
        (fun d hd => ⟨t, e, hd⟩) (by
          cases henabled : u.enabled with
          | true => exact .inl rfl
          | false =>
              obtain rfl := hkept henabled
              rcases hclear with hon | hclear
              · exact absurd (henabled.symm.trans hon) Bool.false_ne_true
              · have hlater := hclear.later
                rw [hrest] at hlater
                obtain ⟨hnow, hlater⟩ := List.forall_mem_cons.mp hlater
                exact .inr ⟨hnow, hlater⟩) rfl
      exact ⟨_, u', (hops.append (by simp [Quiet])).append hops', hevent.trans hrun', hend⟩

/-- Where interrupts are disabled for the program they stay so, and nothing changes the
shared state. -/
theorem clear_of_run (hrun : Run (ProgramStep h masks arm past) s ops s') (hops : Quiet ops)
    (hstack : s.stack = []) (hoff : s.enabled = false)
    (hend : Unblocked arm past s'.shared s'.main) : Unblocked arm past s.shared s.main := by
  have hkept : Quiet ops → s'.stack = [] ∧ s'.enabled = false ∧ s'.shared = s.shared ∧
      (Unblocked arm past s.shared s'.main → Unblocked arm past s.shared s.main) := by
    apply hrun.history_invariant (P := fun ops t => Quiet ops → t.stack = [] ∧
      t.enabled = false ∧ t.shared = s.shared ∧
      (Unblocked arm past s.shared t.main → Unblocked arm past s.shared s.main))
    · exact fun _ => ⟨hstack, hoff, rfl, id⟩
    · intro ops t l t' ht hstep hops
      obtain ⟨hnil, hdisabled, hshared, hclear⟩ := ht fun l hl => hops l (List.mem_append_left _ hl)
      have hl := hops l (by simp)
      cases hstep with
      | request => exact ⟨hnil, hdisabled, hshared, hclear⟩
      | enter hon _ _ => exact absurd (hdisabled.symm.trans hon) Bool.false_ne_true
      | work hbusy => exact absurd (hnil.symm.trans hbusy) (List.cons_ne_nil _ _).symm
      | finish hbusy => exact absurd (hnil.symm.trans hbusy) (List.cons_ne_nil _ _).symm
      | leave hdone => exact absurd (hnil.symm.trans hdone) (List.cons_ne_nil _ _).symm
      | enable _ => exact absurd rfl (hl _)
      | main _ hop =>
          rw [hshared] at hop
          exact ⟨hnil, hdisabled, hshared, fun hm => hclear (hm.of_step hop)⟩
  obtain ⟨-, -, hshared, hclear⟩ := hkept hops
  rw [hshared] at hend
  exact hclear hend

/-- **The program can come to its end** exactly where interrupts are enabled for it or nothing
is left to wait for. -/
theorem exists_finish_iff (hpasses : Passes h arm past) (hs : Idle s)
    (hstart : s.main.deadline = none) (hrun : Run (ProgramStep h masks arm past) s ops s') :
    (∃ ops' s'', Quiet ops' ∧ Run (ProgramStep h masks arm past) s' ops' s'' ∧
      s''.main = ⟨[], none⟩) ↔
      s'.mainEnabled = true ∨ Unblocked arm past s'.shared s'.main := by
  have harmed : Armed arm s'.main := armed_of_run hrun (by rw [Armed, hstart]; exact nofun)
  have hsaved : ∀ f ∈ s'.stack, f.saved = true := by
    refine hrun.invariant (P := fun t => ∀ f ∈ t.stack, f.saved = true) ?_
      fun _ _ _ ht hstep => hstep.saved ht
    rw [hs.stack]
    exact fun _ hf => absurd hf List.not_mem_nil
  constructor
  · rintro ⟨ops', s'', hops', hrun', hend⟩
    cases henabled : s'.mainEnabled with
    | true => exact .inl rfl
    | false =>
        obtain ⟨hstack, hoff⟩ := stack_of_not_mainEnabled hsaved henabled
        refine .inr (clear_of_run hrun' hops' hstack hoff ?_)
        rw [hend]
        exact ⟨nofun, nofun⟩
  · intro hcan
    -- the handlers return first
    obtain ⟨ops', u, hops', hreturn, hstack⟩ := exists_return h masks (ScriptStep arm past)
      (Run.accounted hrun hs).atomic
    have hidle : Idle u :=
      ⟨hstack, ((Run.accounted (hrun.trans hreturn) hs).atomic.stack_nil hstack).1⟩
    obtain ⟨hmain, hflag⟩ := Run.main_kept hreturn hops'
    have hclear : u.enabled = true ∨ Unblocked arm past u.shared u.main := by
      have hon : u.mainEnabled = u.enabled := by rw [State.mainEnabled, hstack]; rfl
      rw [← hon, hflag, hmain]
      cases henabled : s'.mainEnabled with
      | true => exact .inl rfl
      | false =>
          obtain ⟨hnil, hoff⟩ := stack_of_not_mainEnabled hsaved henabled
          rw [Run.disabled hreturn hops' hnil hoff]
          exact hcan.imp (fun hon => absurd (henabled.symm.trans hon) Bool.false_ne_true) id
    obtain ⟨ops'', u', hops'', hfinish, hend⟩ := exists_finish masks hpasses hidle
      (by rw [hmain]; exact harmed) hclear
    exact ⟨_, u', (Quiet.of_interrupts hops').append hops'', hreturn.trans hfinish, hend⟩

end Programs

end Scripts
