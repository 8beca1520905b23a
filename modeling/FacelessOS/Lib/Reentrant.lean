import FacelessOS.Lib.Runs
import Mathlib.Logic.Function.Iterate
import Mathlib.Tactic.Convert

/-!
# Interrupt handlers that may be interrupted

A main program and a handler over shared state. The handler works in small steps with
registers of its own, tells the interrupt controller that it is done and returns later;
between the two it may be entered again, unless its gate masks interrupts. The controller
holds a request back until it is told, and keeps one at most.

However the handlers nest, each does its work in one piece: outside of it the shared state
is the effect of as many handlers as were entered (`Run.shared_eq`, `Run.entered`), and when
all have returned the main program goes on as if nothing else had happened
(`Run.transparent`). They nest to depth one where the gate masks (`Run.length_le_one`) and
to any depth where it does not (`exists_nested`).
-/

namespace Reentrant

open Runs

/-- What a handler does before it tells the controller: steps on the shared state and its
registers. -/
structure Handler (σ ρ : Type*) where
  entry : ρ
  body : List (σ × ρ → σ × ρ)

/-- A handler that was entered: at work, with the steps that are left, or about to return to
code that had interrupts enabled or not. -/
inductive Frame (σ ρ : Type*) where
  | busy (rest : List (σ × ρ → σ × ρ)) (registers : ρ) (saved : Bool)
  | done (saved : Bool)

@[ext]
structure State (σ ρ μ : Type*) where
  shared : σ
  main : μ
  enabled : Bool
  requested : Bool
  inService : Bool
  stack : List (Frame σ ρ)

inductive Label (ι : Type*) where
  | request
  | enter
  | work
  | finish
  | leave
  | enable (b : Bool)
  | main (i : ι)

section Steps

variable {σ ρ μ ι : Type*}

def runSteps (rest : List (σ × ρ → σ × ρ)) (s : σ × ρ) : σ × ρ := rest.foldl (fun s f => f s) s

/-- What a handler does to the shared state. -/
def Handler.effect (h : Handler σ ρ) (s : σ) : σ := (runSteps h.body (s, h.entry)).1

def Frame.saved : Frame σ ρ → Bool
  | .busy _ _ saved => saved
  | .done saved => saved

def Frame.IsDone (f : Frame σ ρ) : Prop := f = .done f.saved

def Label.isRequest : Label ι → Bool
  | .request => true
  | _ => false

def Label.isEnter : Label ι → Bool
  | .enter => true
  | _ => false

def Label.isFinish : Label ι → Bool
  | .finish => true
  | _ => false

def Label.IsInterrupt : Label ι → Prop
  | .enable _ => False
  | .main _ => False
  | _ => True

/-- The machine. The topmost handler runs, and the main program where there is none. -/
inductive Step (h : Handler σ ρ) (masks : Bool) (main : σ → μ → ι → μ → Prop) :
    State σ ρ μ → Label ι → State σ ρ μ → Prop where
  | request {s : State σ ρ μ} : Step h masks main s .request { s with requested := true }
  | enter {s : State σ ρ μ} : s.enabled = true → s.requested = true → s.inService = false →
      Step h masks main s .enter
        { s with
          enabled := !masks
          requested := false
          inService := true
          stack := .busy h.body h.entry s.enabled :: s.stack }
  | work {s : State σ ρ μ} {f : σ × ρ → σ × ρ} {rest : List (σ × ρ → σ × ρ)} {r : ρ}
      {saved : Bool} {fs : List (Frame σ ρ)} : s.stack = .busy (f :: rest) r saved :: fs →
      Step h masks main s .work
        { s with
          shared := (f (s.shared, r)).1
          stack := .busy rest (f (s.shared, r)).2 saved :: fs }
  | finish {s : State σ ρ μ} {r : ρ} {saved : Bool} {fs : List (Frame σ ρ)} :
      s.stack = .busy [] r saved :: fs →
      Step h masks main s .finish { s with inService := false, stack := .done saved :: fs }
  | leave {s : State σ ρ μ} {saved : Bool} {fs : List (Frame σ ρ)} :
      s.stack = .done saved :: fs →
      Step h masks main s .leave { s with enabled := saved, stack := fs }
  | enable {s : State σ ρ μ} {b : Bool} : s.stack = [] →
      Step h masks main s (.enable b) { s with enabled := b }
  | main {s : State σ ρ μ} {i : ι} {m : μ} : s.stack = [] → main s.shared s.main i m →
      Step h masks main s (.main i) { s with main := m }

structure Idle (s : State σ ρ μ) : Prop where
  stack : s.stack = []
  inService : s.inService = false

/-! ## Invariants -/

/-- Work is done in one piece, where `n` handlers are done with theirs: at most one handler
is at work, the innermost one, and what is left of it completes the effect of one more. -/
inductive Atomic (h : Handler σ ρ) (s₀ : σ) (n : ℕ) (s : State σ ρ μ) : Prop where
  | idle : s.inService = false → (∀ f ∈ s.stack, f.IsDone) → s.shared = h.effect^[n] s₀ →
      Atomic h s₀ n s
  | serving {rest : List (σ × ρ → σ × ρ)} {r : ρ} {saved : Bool} {fs : List (Frame σ ρ)} :
      s.inService = true → s.stack = .busy rest r saved :: fs → (∀ f ∈ fs, f.IsDone) →
      (runSteps rest (s.shared, r)).1 = h.effect^[n + 1] s₀ → Atomic h s₀ n s

/-- Behind a gate that masks, a handler is alone and interrupts stay disabled. -/
def Masked (s : State σ ρ μ) : Prop := s.stack = [] ∨ ∃ f, s.stack = [f] ∧ s.enabled = false

/-- The flag that the main program gets back when all handlers have returned. -/
def State.mainEnabled (s : State σ ρ μ) : Bool := s.stack.foldl (fun _ f => f.saved) s.enabled

variable {h : Handler σ ρ} {masks : Bool} {main : σ → μ → ι → μ → Prop} {s s' : State σ ρ μ}
  {l : Label ι} {s₀ : σ} {n : ℕ}

theorem not_isDone_busy {rest : List (σ × ρ → σ × ρ)} {r : ρ} {saved : Bool} :
    ¬ (Frame.busy rest r saved).IsDone := nofun

theorem Atomic.stack_nil (hs : Atomic h s₀ n s) (hstack : s.stack = []) :
    s.inService = false ∧ s.shared = h.effect^[n] s₀ := by
  cases hs with
  | idle hservice _ hshared => exact ⟨hservice, hshared⟩
  | serving _ hbusy => exact absurd (hstack.symm.trans hbusy) (List.cons_ne_nil _ _).symm

theorem Atomic.serving_of_busy {rest : List (σ × ρ → σ × ρ)} {r : ρ} {saved : Bool}
    {fs : List (Frame σ ρ)} (hs : Atomic h s₀ n s) (hstack : s.stack = .busy rest r saved :: fs) :
    s.inService = true ∧ (∀ f ∈ fs, f.IsDone) ∧
      (runSteps rest (s.shared, r)).1 = h.effect^[n + 1] s₀ := by
  cases hs with
  | idle _ hdone =>
      exact absurd (hdone _ (by rw [hstack]; exact List.mem_cons_self)) not_isDone_busy
  | serving hservice hbusy hdone hrest =>
      obtain ⟨hhead, rfl⟩ := List.cons.inj (hbusy.symm.trans hstack)
      obtain ⟨rfl, rfl, rfl⟩ := Frame.busy.inj hhead
      exact ⟨hservice, hdone, hrest⟩

theorem step_main {i : ι} : Step h masks main s (.main i) s' ↔
    s.stack = [] ∧ ∃ m, main s.shared s.main i m ∧ s' = { s with main := m } := by
  constructor
  · intro hstep
    cases hstep with
    | main hstack hmain => exact ⟨hstack, _, hmain, rfl⟩
  · rintro ⟨hstack, m, hmain, rfl⟩
    exact .main hstack hmain

theorem Step.atomic (hstep : Step h masks main s l s') (hs : Atomic h s₀ n s) :
    Atomic h s₀ (n + l.isFinish.toNat) s' := by
  cases hstep with
  | request =>
      cases hs with
      | idle hservice hdone hshared => exact .idle hservice hdone hshared
      | serving hservice hbusy hdone hrest => exact .serving hservice hbusy hdone hrest
  | enter henabled hrequested hservice =>
      cases hs with
      | idle _ hdone hshared =>
          have heffect : h.effect s.shared = h.effect^[n + 1] s₀ := by
            rw [Function.iterate_succ_apply', hshared]
          exact .serving rfl rfl hdone heffect
      | serving hservice' => exact absurd (hservice.symm.trans hservice') Bool.false_ne_true
  | work hstack =>
      obtain ⟨hservice, hdone, hrest⟩ := hs.serving_of_busy hstack
      exact .serving hservice rfl hdone hrest
  | finish hstack =>
      obtain ⟨-, hdone, hrest⟩ := hs.serving_of_busy hstack
      exact .idle rfl (List.forall_mem_cons.mpr ⟨rfl, hdone⟩) hrest
  | leave hstack =>
      cases hs with
      | idle hservice hdone hshared =>
          refine .idle hservice (fun f hf => hdone f ?_) hshared
          rw [hstack]
          exact List.mem_cons_of_mem _ hf
      | serving _ hbusy => exact absurd (List.cons.inj (hbusy.symm.trans hstack)).1 nofun
  | enable hstack =>
      obtain ⟨hservice, hshared⟩ := hs.stack_nil hstack
      exact .idle hservice (by rw [hstack]; exact fun _ hf => absurd hf List.not_mem_nil) hshared
  | main hstack _ =>
      obtain ⟨hservice, hshared⟩ := hs.stack_nil hstack
      exact .idle hservice (by rw [hstack]; exact fun _ hf => absurd hf List.not_mem_nil) hshared

theorem Step.masked (hstep : Step h true main s l s') (hs : Masked s) : Masked s' := by
  have halone : ∀ {f fs}, s.stack = f :: fs → fs = [] ∧ s.enabled = false := by
    intro f fs hstack
    rcases hs with hnil | ⟨g, hone, henabled⟩
    · exact absurd (hnil.symm.trans hstack) (List.cons_ne_nil _ _).symm
    · exact ⟨(List.cons.inj (hone.symm.trans hstack)).2.symm, henabled⟩
  cases hstep with
  | request => exact hs
  | enter henabled _ _ =>
      rcases hs with hnil | ⟨_, _, hdisabled⟩
      · exact .inr ⟨_, congrArg _ hnil, rfl⟩
      · exact absurd (hdisabled.symm.trans henabled) Bool.false_ne_true
  | work hstack =>
      obtain ⟨rfl, henabled⟩ := halone hstack
      exact .inr ⟨_, rfl, henabled⟩
  | finish hstack =>
      obtain ⟨rfl, henabled⟩ := halone hstack
      exact .inr ⟨_, rfl, henabled⟩
  | leave hstack => exact .inl (halone hstack).1
  | enable hstack => exact .inl hstack
  | main hstack _ => exact .inl hstack

theorem Step.main_kept (hstep : Step h masks main s l s') (hl : l.IsInterrupt) :
    s'.main = s.main ∧ s'.mainEnabled = s.mainEnabled := by
  unfold State.mainEnabled
  cases hstep with
  | request => exact ⟨rfl, rfl⟩
  | enter _ _ _ => exact ⟨rfl, rfl⟩
  | work hstack => exact ⟨rfl, by rw [hstack]; rfl⟩
  | finish hstack => exact ⟨rfl, by rw [hstack]; rfl⟩
  | leave hstack => exact ⟨rfl, by rw [hstack]; rfl⟩
  | enable _ => exact absurd hl id
  | main _ _ => exact absurd hl id

theorem Step.counted {requests enters finishes : ℕ} (hstep : Step h masks main s l s')
    (hentered : enters = finishes + s.inService.toNat)
    (hrequests : enters + s.requested.toNat ≤ requests) (hatomic : Atomic h s₀ n s) :
    enters + l.isEnter.toNat = finishes + l.isFinish.toNat + s'.inService.toNat ∧
      enters + l.isEnter.toNat + s'.requested.toNat ≤ requests + l.isRequest.toNat := by
  cases hstep with
  | request =>
      have hle := Bool.toNat_le s.requested
      exact ⟨hentered, by show enters + 0 + 1 ≤ requests + 1; omega⟩
  | enter _ hrequested hservice =>
      rw [hservice] at hentered
      rw [hrequested] at hrequests
      exact ⟨congrArg (· + 1) hentered, hrequests⟩
  | work _ => exact ⟨hentered, hrequests⟩
  | finish hstack =>
      rw [(hatomic.serving_of_busy hstack).1] at hentered
      exact ⟨hentered, hrequests⟩
  | leave _ => exact ⟨hentered, hrequests⟩
  | enable _ => exact ⟨hentered, hrequests⟩
  | main _ _ => exact ⟨hentered, hrequests⟩

/-- No request is lost that comes when none is pending. -/
theorem Step.none_lost {requests enters : ℕ} (hstep : Step h masks main s l s')
    (hrequests : requests ≤ enters + s.requested.toNat)
    (hl : l.isRequest = true → s.requested = false) :
    requests + l.isRequest.toNat ≤ enters + l.isEnter.toNat + s'.requested.toNat := by
  cases hstep with
  | request =>
      rw [hl rfl] at hrequests
      exact Nat.succ_le_succ hrequests
  | enter _ hrequested _ =>
      rw [hrequested] at hrequests
      exact hrequests
  | work _ => exact hrequests
  | finish _ => exact hrequests
  | leave _ => exact hrequests
  | enable _ => exact hrequests
  | main _ _ => exact hrequests

/-! ## Runs -/

/-- What the labels so far say about the state. -/
structure Accounted (h : Handler σ ρ) (s : State σ ρ μ) (ops : List (Label ι))
    (s' : State σ ρ μ) : Prop where
  atomic : Atomic h s.shared (ops.countP Label.isFinish) s'
  entered : ops.countP Label.isEnter = ops.countP Label.isFinish + s'.inService.toNat
  requests : ops.countP Label.isEnter + s'.requested.toNat ≤
    ops.countP Label.isRequest + s.requested.toNat

variable {ops : List (Label ι)}

theorem countP_concat (p : Label ι → Bool) (ops : List (Label ι)) (l : Label ι) :
    (ops ++ [l]).countP p = ops.countP p + (p l).toNat := by
  rw [List.countP_append, List.countP_singleton]
  cases p l with
  | false => rfl
  | true => rfl

theorem Idle.atomic (hs : Idle s) : Atomic h s.shared 0 s :=
  .idle hs.inService (by rw [hs.stack]; exact fun _ hf => absurd hf List.not_mem_nil) rfl

theorem Run.accounted (hrun : Run (Step h masks main) s ops s') (hs : Idle s) :
    Accounted h s ops s' := by
  apply hrun.history_invariant (P := Accounted h s)
  · exact ⟨hs.atomic, by rw [hs.inService]; rfl, Nat.le_refl _⟩
  · intro ops t l t' ht hstep
    obtain ⟨hentered, hrequests⟩ := hstep.counted ht.entered ht.requests ht.atomic
    refine ⟨?_, ?_, ?_⟩
    · rw [countP_concat]
      exact hstep.atomic ht.atomic
    · rw [countP_concat, countP_concat]
      exact hentered
    · rw [countP_concat, countP_concat, Nat.add_right_comm _ _ s.requested.toNat]
      exact hrequests

/-- **The work is in one piece**: where no interrupt is in service the shared state is the
effect of as many handlers as were entered. -/
theorem Run.shared_eq (hrun : Run (Step h masks main) s ops s') (hs : Idle s)
    (hservice : s'.inService = false) :
    s'.shared = h.effect^[ops.countP Label.isEnter] s.shared := by
  have hcount := Run.accounted hrun hs
  have hentered := hcount.entered
  rw [hservice] at hentered
  rw [hentered]
  cases hcount.atomic with
  | idle _ _ hshared => exact hshared
  | serving hservice' => exact absurd (hservice.symm.trans hservice') Bool.false_ne_true

/-- Handlers are entered once for each request, where these do not come too close. -/
theorem Run.entered (hrun : Run (Guarded (fun s l => l.isRequest = true → s.requested = false)
    (Step h masks main)) s ops s') (hs : Idle s) :
    ops.countP Label.isEnter + s'.requested.toNat =
      ops.countP Label.isRequest + s.requested.toNat := by
  have hplain : Run (Step h masks main) s ops s' := hrun.mono fun _ _ _ hstep => hstep.2
  apply Nat.le_antisymm (Run.accounted hplain hs).requests
  apply hrun.history_invariant (P := fun ops t => ops.countP Label.isRequest + s.requested.toNat ≤
    ops.countP Label.isEnter + t.requested.toNat)
  · exact Nat.le_refl _
  · rintro ops t l t' ht ⟨hguard, hstep⟩
    rw [countP_concat, countP_concat, Nat.add_right_comm]
    exact hstep.none_lost ht hguard

/-- Where its gate masks, the handler never interrupts itself. -/
theorem Run.length_le_one (hrun : Run (Step h true main) s ops s') (hs : s.stack = []) :
    s'.stack.length ≤ 1 := by
  have hmasked : Masked s' := hrun.invariant (P := Masked) (.inl hs)
    fun _ _ _ ht hstep => hstep.masked ht
  rcases hmasked with hnil | ⟨f, hone, -⟩
  · rw [hnil]
    exact Nat.zero_le 1
  · rw [hone]
    exact Nat.le_refl 1

theorem Run.main_kept (hrun : Run (Step h masks main) s ops s')
    (hops : ∀ l ∈ ops, l.IsInterrupt) : s'.main = s.main ∧ s'.mainEnabled = s.mainEnabled := by
  refine hrun.history_invariant
    (P := fun ops t => (∀ l ∈ ops, l.IsInterrupt) →
      t.main = s.main ∧ t.mainEnabled = s.mainEnabled)
    (fun _ => ⟨rfl, rfl⟩) (fun ops t l t' ht hstep hops => ?_) hops
  obtain ⟨hmain, henabled⟩ := ht fun l hl => hops l (List.mem_append_left _ hl)
  obtain ⟨hmain', henabled'⟩ := hstep.main_kept (hops l (by simp))
  exact ⟨hmain'.trans hmain, henabled'.trans henabled⟩

/-- **The main program is not disturbed**: when all handlers have returned, however they
were nested, the state is as it was but for the effect of these handlers and a request. -/
theorem Run.transparent (hrun : Run (Step h masks main) s ops s') (hs : Idle s)
    (hops : ∀ l ∈ ops, l.IsInterrupt) (hstack : s'.stack = []) :
    s' = { s with
      shared := h.effect^[ops.countP Label.isEnter] s.shared
      requested := s'.requested } := by
  obtain ⟨hmain, henabled⟩ := Run.main_kept hrun hops
  obtain ⟨hservice, -⟩ := (Run.accounted hrun hs).atomic.stack_nil hstack
  unfold State.mainEnabled at henabled
  rw [hstack, hs.stack] at henabled
  apply State.ext
  · exact Run.shared_eq hrun hs hservice
  · exact hmain
  · exact henabled
  · rfl
  · exact hservice.trans hs.inService.symm
  · exact hstack.trans hs.stack.symm

/-! ## What the machine can do -/

theorem Step.saved (hstep : Step h masks main s l s') (hs : ∀ f ∈ s.stack, f.saved = true) :
    ∀ f ∈ s'.stack, f.saved = true := by
  cases hstep with
  | request => exact hs
  | enter henabled _ _ => exact List.forall_mem_cons.mpr ⟨henabled, hs⟩
  | work hstack =>
      rw [hstack] at hs
      exact List.forall_mem_cons.mpr (List.forall_mem_cons.mp hs)
  | finish hstack =>
      rw [hstack] at hs
      exact List.forall_mem_cons.mpr (List.forall_mem_cons.mp hs)
  | leave hstack =>
      rw [hstack] at hs
      exact (List.forall_mem_cons.mp hs).2
  | enable _ => exact hs
  | main _ _ => exact hs

theorem stack_of_not_mainEnabled (hs : ∀ f ∈ s.stack, f.saved = true)
    (henabled : s.mainEnabled = false) : s.stack = [] ∧ s.enabled = false := by
  unfold State.mainEnabled at henabled
  cases hstack : s.stack with
  | nil =>
      rw [hstack] at henabled
      exact ⟨rfl, henabled⟩
  | cons f fs =>
      have hlast : ∀ (fs : List (Frame σ ρ)) (b : Bool), b = true →
          (∀ f ∈ fs, f.saved = true) → fs.foldl (fun _ f => f.saved) b = true := by
        intro fs
        induction fs with
        | nil => exact fun b hb _ => hb
        | cons f fs ih =>
            exact fun b _ hall => ih _ (hall f List.mem_cons_self)
              fun g hg => hall g (List.mem_cons_of_mem _ hg)
      rw [hstack] at henabled hs
      rw [List.foldl_cons, hlast fs _ (hs f List.mem_cons_self)
        fun g hg => hs g (List.mem_cons_of_mem _ hg)] at henabled
      exact absurd henabled (Bool.false_ne_true ·.symm)

theorem Run.disabled (hrun : Run (Step h masks main) s ops s') (hops : ∀ l ∈ ops, l.IsInterrupt)
    (hstack : s.stack = []) (henabled : s.enabled = false) : s'.shared = s.shared := by
  have hkept := hrun.history_invariant
    (P := fun ops t => (∀ l ∈ ops, l.IsInterrupt) →
      t.stack = [] ∧ t.enabled = false ∧ t.shared = s.shared)
    (fun _ => ⟨hstack, henabled, rfl⟩) (fun ops t l t' ht hstep hops => by
      obtain ⟨hnil, hdisabled, hshared⟩ := ht fun l hl => hops l (List.mem_append_left _ hl)
      have hl := hops l (by simp)
      cases hstep with
      | request => exact ⟨hnil, hdisabled, hshared⟩
      | enter henabled _ _ => exact absurd (hdisabled.symm.trans henabled) Bool.false_ne_true
      | work hstack => exact absurd (hnil.symm.trans hstack) (List.cons_ne_nil _ _).symm
      | finish hstack => exact absurd (hnil.symm.trans hstack) (List.cons_ne_nil _ _).symm
      | leave hstack => exact absurd (hnil.symm.trans hstack) (List.cons_ne_nil _ _).symm
      | enable _ => exact absurd hl id
      | main _ _ => exact absurd hl id) hops
  exact hkept.2.2

variable (h masks main)

theorem exists_work {rest : List (σ × ρ → σ × ρ)} {r : ρ} {saved : Bool} {fs : List (Frame σ ρ)}
    (hstack : s.stack = .busy rest r saved :: fs) :
    ∃ ops, (∀ l ∈ ops, l.IsInterrupt) ∧ Run (Step h masks main) s ops
      { s with
        shared := (runSteps rest (s.shared, r)).1
        inService := false
        stack := .done saved :: fs } := by
  induction rest generalizing s r with
  | nil => exact ⟨[.finish], by simp [Label.IsInterrupt], run_singleton.mpr (.finish hstack)⟩
  | cons f rest ih =>
      obtain ⟨ops, hops, hrun⟩ := ih (s := { s with
        shared := (f (s.shared, r)).1
        stack := .busy rest (f (s.shared, r)).2 saved :: fs }) rfl
      exact ⟨[.work] ++ ops, by simpa [Label.IsInterrupt] using hops,
        (run_singleton.mpr (.work hstack)).trans hrun⟩

theorem exists_return {s₀ : σ} {n : ℕ} (hs : Atomic h s₀ n s) :
    ∃ ops s', (∀ l ∈ ops, l.IsInterrupt) ∧ Run (Step h masks main) s ops s' ∧ s'.stack = [] := by
  have hdone : ∀ (fs : List (Frame σ ρ)) (s : State σ ρ μ), s.stack = fs →
      (∀ f ∈ fs, f.IsDone) → ∃ ops s', (∀ l ∈ ops, l.IsInterrupt) ∧
        Run (Step h masks main) s ops s' ∧ s'.stack = [] := by
    intro fs
    induction fs with
    | nil => exact fun s hstack _ => ⟨[], s, by simp, .start, hstack⟩
    | cons f fs ih =>
        intro s hstack hall
        obtain ⟨hf, hfs⟩ := List.forall_mem_cons.mp hall
        rw [hf] at hstack
        obtain ⟨ops, s', hops, hrun, hnil⟩ :=
          ih { s with enabled := f.saved, stack := fs } rfl hfs
        exact ⟨[.leave] ++ ops, s', by simpa [Label.IsInterrupt] using hops,
          (run_singleton.mpr (.leave hstack)).trans hrun, hnil⟩
  cases hs with
  | idle _ hall _ => exact hdone _ s rfl hall
  | @serving rest r saved fs _ hstack hall _ =>
      obtain ⟨ops, hops, hrun⟩ := exists_work h masks main hstack
      obtain ⟨ops', s', hops', hrun', hnil⟩ := hdone (.done saved :: fs)
        { s with
          shared := (runSteps rest (s.shared, r)).1
          inService := false
          stack := .done saved :: fs } rfl (List.forall_mem_cons.mpr ⟨rfl, hall⟩)
      exact ⟨ops ++ ops', s', List.forall_mem_append.mpr ⟨hops, hops'⟩, hrun.trans hrun', hnil⟩

theorem exists_serve (henabled : s.enabled = true) (hservice : s.inService = false) :
    ∃ ops, (∀ l ∈ ops, l.IsInterrupt) ∧ Run (Step h masks main) s ops
      { s with
        shared := h.effect s.shared
        enabled := !masks
        requested := false
        inService := false
        stack := .done true :: s.stack } := by
  have henter : Step h masks main { s with requested := true } .enter
      { s with
        enabled := !masks
        requested := false
        inService := true
        stack := .busy h.body h.entry s.enabled :: s.stack } := .enter henabled rfl hservice
  obtain ⟨ops, hops, hrun⟩ := exists_work h masks main (s := { s with
      enabled := !masks
      requested := false
      inService := true
      stack := .busy h.body h.entry s.enabled :: s.stack }) rfl
  have hserve := (run_singleton.mpr .request).trans ((run_singleton.mpr henter).trans hrun)
  rw [henabled] at hserve
  exact ⟨_, by simpa [Label.IsInterrupt] using hops, hserve⟩

theorem exists_effect (hs : Idle s) (henabled : s.enabled = true) (n : ℕ) :
    ∃ ops b, (∀ l ∈ ops, l.IsInterrupt) ∧ Run (Step h masks main) s ops
      { s with shared := h.effect^[n] s.shared, requested := b } := by
  induction n with
  | zero => exact ⟨[], s.requested, by simp, .start⟩
  | succ n ih =>
      obtain ⟨ops, b, hops, hrun⟩ := ih
      obtain ⟨ops', hops', hrun'⟩ := exists_serve h masks main (s := { s with
        shared := h.effect^[n] s.shared, requested := b }) henabled hs.inService
      refine ⟨ops ++ ops' ++ [.leave], false, ?_, ?_⟩
      · exact List.forall_mem_append.mpr ⟨List.forall_mem_append.mpr ⟨hops, hops'⟩,
          List.forall_mem_singleton.mpr trivial⟩
      · have hleave := (hrun.trans hrun').snoc (.leave rfl)
        rw [Function.iterate_succ_apply']
        convert hleave using 1
        exact State.ext rfl rfl henabled rfl hs.inService rfl

/-- **Handlers nest to any depth** where the gate does not mask. -/
theorem exists_nested (henabled : s.enabled = true) (hservice : s.inService = false) (n : ℕ) :
    ∃ ops s', Run (Step h false main) s ops s' ∧ s'.stack.length = s.stack.length + n ∧
      s'.enabled = true ∧ s'.inService = false := by
  induction n with
  | zero => exact ⟨[], s, .start, rfl, henabled, hservice⟩
  | succ n ih =>
      obtain ⟨ops, t, hrun, hlen, henabled', hservice'⟩ := ih
      obtain ⟨ops', -, hrun'⟩ := exists_serve h false main henabled' hservice'
      exact ⟨ops ++ ops', _, hrun.trans hrun', congrArg (· + 1) hlen, rfl, rfl⟩

end Steps

end Reentrant
