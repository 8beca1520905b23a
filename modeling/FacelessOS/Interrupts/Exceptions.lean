import FacelessOS.Interrupts.Idt
import FacelessOS.Libkern.Panic
import FacelessOS.Memory.Gdt

/-!
# Exceptions (`IDT.c`, `exceptions.asm`, `panic.c`)

What becomes of an event that the CPU delivers through the tables of `gdt_load` and
`idt_install`: a handler that was installed is entered under every vector but the last, which
the limit leaves out (`attempt_setIdtDescs`). So after `idt_install` every event but the
timer's ends in a handler that panics, and prints the name of its fault or of the one that
its delivery makes (`fault_reported`); the CPU never shuts down.
-/

namespace FacelessOS

inductive ExceptionHandler where
  | div0Handler
  | debugException
  | breakpointException
  | overflowException
  | boundrangeExceededException
  | invalidOpcodeException
  | devNotAvailException
  | doubleFault
  | invalidTssException
  | segmentNotPresent
  | stackSegmentFault
  | generalProtectionFault
  | pageFault
deriving DecidableEq, Repr

/-- The argument of `kpanic`, which a handler passes to `cpu_panic`. -/
def kpanicVector : ExceptionHandler → U32
  | .div0Handler => 0x0
  | .debugException => 0x1
  | .breakpointException => 0x3
  | .overflowException => 0x4
  | .boundrangeExceededException => 0x5
  | .invalidOpcodeException => 0x6
  | .devNotAvailException => 0x7
  | .doubleFault => 0x8
  | .invalidTssException => 0xA
  | .segmentNotPresent => 0xB
  | .stackSegmentFault => 0xC
  | .generalProtectionFault => 0xD
  | .pageFault => 0xE

def exceptions : List ExceptionHandler :=
  [.div0Handler,
    .debugException,
    .generalProtectionFault,
    .breakpointException,
    .overflowException,
    .boundrangeExceededException,
    .invalidOpcodeException,
    .devNotAvailException,
    .doubleFault,
    .generalProtectionFault,
    .invalidTssException,
    .segmentNotPresent,
    .stackSegmentFault,
    .generalProtectionFault,
    .pageFault]

def exceptionOf (vector : ℕ) : ExceptionHandler := exceptions.getD vector .div0Handler

def zeroIdt : Idt := fun _ => ⟨0, 0, 0, 0, 0, 0, 0, 0, 0, 0, 0⟩

/-- The table after it, where the handlers lie at these addresses. -/
def idtInstall (address : ExceptionHandler → U64) (irq0 : U64) : Idt :=
  setIdtDescs zeroIdt (setupExceptions (fun i => address (exceptionOf i)) ++ setupIrqs irq0)

/-- `idtr.limit`, with descriptors of 16 bytes. -/
def idtrLimit : U16 := 16 * 255

/-! ## Delivery -/

inductive Event where
  | exception (vector : U8)
  | interrupt (vector : U8)
deriving DecidableEq, Repr

def Event.vector : Event → U8
  | .exception vector => vector
  | .interrupt vector => vector

/-- A fault in the delivery of a benign event is delivered in its place; one in the delivery
of another event makes a double fault. -/
def Event.benign : Event → Bool
  | .exception vector => vector ∉ [8#8, 0#8, 10#8, 11#8, 12#8, 13#8, 14#8, 20#8, 21#8]
  | .interrupt _ => true

/-- One try: the handler is entered, or there is a fault with this vector. -/
inductive Attempt where
  | enters (handler : U64)
  | fault (vector : U8)
deriving DecidableEq, Repr

/-- The checks of the CPU, in its order: the limit, the type, the present bit, and the code
segment. -/
def attempt (limit : U16) (idt : Idt) (vector : U8) : Attempt :=
  let gate := decodeGate (idt vector).image
  if limit.toNat < 16 * vector.toNat + 15 then .fault 13
  else if gate.type ≠ 0xE#4 ∧ gate.type ≠ 0xF#4 then .fault 13
  else if gate.present = 0#1 then .fault 11
  else
    match selected gdt gdtLimit gate.selector with
    | none => .fault 13
    | some e =>
        if e.isCode64 = false then .fault 13
        else if e.present = false then .fault 11
        else .enters gate.offset

def Attempt.handler? : Attempt → Option U64
  | .enters handler => some handler
  | .fault _ => none

/-- What becomes of an event: a fault on the way to its handler is delivered in its place if
that may be, and else, or if there is another, a double fault; `none` when the CPU shuts
down. -/
def deliver (limit : U16) (idt : Idt) (event : Event) : Option U64 :=
  match attempt limit idt event.vector with
  | .enters handler => some handler
  | .fault vector =>
      (if event.benign then (attempt limit idt vector).handler? else none).or
        (attempt limit idt 8).handler?

/-- A handler that was installed is entered, but for the one under the last vector: its
descriptor ends behind the limit. -/
theorem attempt_setIdtDescs {idt : Idt} {calls : List IdtCall} {v : U8} {call : IdtCall}
    (hlast : lastCall calls v = some call) : attempt idtrLimit (setIdtDescs idt calls) v =
      if v = 0xFF#8 then .fault 13 else .enters call.isr := by
  have hlimit : idtrLimit.toNat < 16 * v.toNat + 15 ↔ v = 0xFF#8 := by
    show 4080 < _ ↔ _
    bv_omega
  unfold attempt
  rw [setIdtDescs_get, hlast]
  dsimp only
  rw [decodeGate_setIdtDesc]
  by_cases hv : v = 0xFF#8
  · rw [if_pos (hlimit.mpr hv), if_pos hv]
  · -- every gate names the selector that `gdt_load` puts into `cs`
    obtain ⟨e, hselected, hpresent, hcode⟩ := (selected_code64 0x28).mpr rfl
    rw [if_neg (mt hlimit.mp hv), if_neg hv]
    dsimp only
    rw [if_neg (by decide), if_neg (by decide), hselected]
    dsimp only
    rw [if_neg (by simp [hcode]), if_neg (by simp [hpresent])]

section Installed

variable (address : ExceptionHandler → U64) (irq0 : U64)

theorem lastCall_exception {i : ℕ} (hi : i < 15) :
    lastCall (setupExceptions (fun i => address (exceptionOf i)) ++ setupIrqs irq0)
      (BitVec.ofNat 8 i) = some ⟨BitVec.ofNat 8 i, address (exceptionOf i), trapGateFlags⟩ := by
  interval_cases i
  all_goals rfl

theorem lastCall_none {v : U8} (hv : 15 ≤ v.toNat) (htimer : v ≠ 0x20#8) :
    lastCall (setupExceptions (fun i => address (exceptionOf i)) ++ setupIrqs irq0) v = none := by
  rw [setupIrqs, lastCall_concat, if_neg (Ne.symm htimer), lastCall, List.getLast?_eq_none_iff,
    List.filter_eq_nil_iff]
  intro call hcall
  rw [decide_eq_true_iff]
  rintro rfl
  rw [setupExceptions, List.mem_append, List.mem_singleton, List.mem_map] at hcall
  rcases hcall with ⟨i, hi, rfl⟩ | rfl
  · have hlt := List.mem_range.mp hi
    rw [toNat_ofNat (by omega)] at hv
    omega
  · exact absurd hv (show ¬ 15 ≤ (0#8).toNat by decide)

/-- The handlers of the exceptions are entered. -/
theorem attempt_exception {i : ℕ} (hi : i < 15) :
    attempt idtrLimit (idtInstall address irq0) (BitVec.ofNat 8 i) =
      .enters (address (exceptionOf i)) := by
  have hne : BitVec.ofNat 8 i ≠ 0xFF#8 := by bv_omega
  unfold idtInstall
  rw [attempt_setIdtDescs (lastCall_exception address irq0 hi), if_neg hne]

/-- Every other event, but for the timer's, is a fault. -/
theorem attempt_other {v : U8} (hv : 15 ≤ v.toNat) (htimer : v ≠ 0x20#8) :
    attempt idtrLimit (idtInstall address irq0) v = .fault 13 := by
  have hget : idtInstall address irq0 v = zeroIdt v := by
    rw [idtInstall, setIdtDescs_get, lastCall_none address irq0 hv htimer]
  have htype : (decodeGate (zeroIdt v).image).type = 0#4 := by
    unfold zeroIdt
    decide
  unfold attempt
  rw [hget]
  dsimp only
  rw [htype]
  split
  · rfl
  · rfl

end Installed

/-- The vector that is reported: its own for an exception with a line of its own, that of a
double fault for the two others whose delivery may not fault, and else that of a general
protection fault. -/
def reportedVector (event : Event) : U8 :=
  if event.vector.toNat < 15 ∧ event.vector ≠ 2#8 ∧ event.vector ≠ 9#8 then event.vector
  else if event = .exception 20#8 ∨ event = .exception 21#8 then 8#8
  else 13#8

theorem deliver_handler (address : ExceptionHandler → U64) (irq0 : U64) {event : Event}
    (htimer : event.vector ≠ 0x20#8) :
    ∃ h, deliver idtrLimit (idtInstall address irq0) event = some (address h) ∧
      kpanicVector h = (reportedVector event).setWidth 32 := by
  by_cases hv : event.vector.toNat < 15
  · have hattempt := attempt_exception address irq0 hv
    rw [BitVec.ofNat_toNat, BitVec.setWidth_eq] at hattempt
    refine ⟨exceptionOf event.vector.toNat, ?_, ?_⟩
    · unfold deliver
      rw [hattempt]
    · have hall : ∀ v : U8, v.toNat < 15 → kpanicVector (exceptionOf v.toNat) =
          (if v.toNat < 15 ∧ v ≠ 2#8 ∧ v ≠ 9#8 then v else 13#8).setWidth 32 := by
        decide
      have hlow : ¬ (event = .exception 20#8 ∨ event = .exception 21#8) := by
        rintro (rfl | rfl)
        all_goals exact absurd hv (by decide)
      rw [hall _ hv, reportedVector, if_neg hlow]
  · have hother := attempt_other address irq0 (Nat.not_lt.mp hv) htimer
    have h13 : attempt idtrLimit (idtInstall address irq0) 13 = .enters (address (exceptionOf 13)) :=
      attempt_exception address irq0 (by decide)
    have h8 : attempt idtrLimit (idtInstall address irq0) 8 = .enters (address (exceptionOf 8)) :=
      attempt_exception address irq0 (by decide)
    unfold deliver reportedVector
    rw [hother, if_neg fun h => hv h.1]
    dsimp only
    rw [h13, h8]
    by_cases hdouble : event = .exception 20#8 ∨ event = .exception 21#8
    · rw [if_pos hdouble]
      rcases hdouble with rfl | rfl
      · exact ⟨.doubleFault, rfl, rfl⟩
      · exact ⟨.doubleFault, rfl, rfl⟩
    · have hbenign : event.benign = true := by
        cases event with
        | exception v =>
            have hall : ∀ v : U8, ¬ v.toNat < 15 → v ≠ 20#8 → v ≠ 21#8 →
                (Event.exception v).benign = true := by
              decide
            exact hall v hv (fun heq => hdouble (.inl (congrArg _ heq)))
              fun heq => hdouble (.inr (congrArg _ heq))
        | interrupt v => rfl
      rw [if_neg hdouble, hbenign]
      exact ⟨.generalProtectionFault, rfl, rfl⟩

theorem deliver_timer (address : ExceptionHandler → U64) (irq0 : U64) :
    deliver idtrLimit (idtInstall address irq0) (.interrupt 0x20#8) = some irq0 := by
  have hlast : lastCall (setupExceptions (fun i => address (exceptionOf i)) ++ setupIrqs irq0)
      0x20#8 = some ⟨0x20#8, irq0, intGateFlags⟩ := by
    rw [setupIrqs, lastCall_concat, if_pos rfl]
  have hattempt : attempt idtrLimit (idtInstall address irq0) 0x20#8 = .enters irq0 :=
    (attempt_setIdtDescs hlast).trans (if_neg (by decide))
  unfold deliver Event.vector
  rw [hattempt]

def reportedFault (event : Event) : String := faultType ((reportedVector event).setWidth 32)

/-- **Every event but the timer's ends in a panic that names its fault**, with the tables of
`idt_install`, wherever the handlers and the name lie; and every such fault has a name. -/
theorem fault_reported {address : ExceptionHandler → U64} {irq0 : U64} {event : Event}
    {literal : String → U64} {env : LogEnv} {fuel : ℕ} (htimer : event.vector ≠ 0x20#8)
    (hliteral : (strAt env.mem (literal (reportedFault event))).Holds (bytes (reportedFault event)))
    (hfuel : 32 ≤ fuel) :
    reportedFault event ≠ "Unknown Fault" ∧
    ∃ h, deliver idtrLimit (idtInstall address irq0) event = some (address h) ∧
      ∃ out, logCalls fuel env (cpuPanic literal (kpanicVector h)) = some out ∧
        Printed out (panicText "\x1b[91mCaught: " (bytes (reportedFault event))) := by
  obtain ⟨h, hdeliver, hvector⟩ := deliver_handler address irq0 htimer
  have hname : faultType (kpanicVector h) = reportedFault event := congrArg faultType hvector
  have hnamed : ∀ h, faultType (kpanicVector h) ≠ "Unknown Fault" := by
    intro h
    cases h
    all_goals decide
  refine ⟨hname ▸ hnamed h, h, hdeliver, ?_⟩
  rw [← hname] at hliteral ⊢
  refine cpuPanic_prints hliteral env fuel rfl fun call hcall => Nat.lt_of_lt_of_le ?_ hfuel
  have hlen : ∀ fmt ∈ ["\x1b[H\x1b[2J\x1b[3J", "\x1b[91m** KERNEL PANIC **\n",
      "\x1b[91mCaught: %s\n"], (bytes fmt).length < 32 := by
    decide
  apply hlen
  simp only [cpuPanic, panicBanner, List.cons_append, List.nil_append, List.mem_cons,
    List.not_mem_nil, or_false] at hcall
  rcases hcall with rfl | rfl | rfl
  · exact List.mem_cons_self
  · exact List.mem_cons_of_mem _ List.mem_cons_self
  · exact List.mem_cons_of_mem _ (List.mem_cons_of_mem _ List.mem_cons_self)

/-- A page fault, with its name at `0x1000`. -/
theorem fault_reported_pageFault : ∃ out,
    logCalls 32 { zeroEnv with mem := fun x => literal "Page Fault" (x - 0x1000#64).toNat }
      (cpuPanic (fun _ => 0x1000#64) 0xE) = some out ∧
    Printed out (panicText "\x1b[91mCaught: " (bytes "Page Fault")) := by
  have hliteral : (strAt (fun x => literal "Page Fault" (x - 0x1000#64).toNat) 0x1000#64).Holds
      (bytes "Page Fault") := by decide +kernel
  obtain ⟨-, h, hdeliver, out, hout, hprinted⟩ := @fault_reported
    (fun h => (kpanicVector h).setWidth 64) 0 (.exception 14) (fun _ => 0x1000#64)
    { zeroEnv with mem := fun x => literal "Page Fault" (x - 0x1000#64).toNat } 32 (by decide)
    hliteral (Nat.le_refl 32)
  have h14 : some 14#64 = some ((kpanicVector h).setWidth 64) := hdeliver
  have hvector : kpanicVector h = 0xE := by
    revert h14
    cases h
    all_goals decide
  rw [hvector] at hout
  exact ⟨out, hout, hprinted⟩

end FacelessOS
