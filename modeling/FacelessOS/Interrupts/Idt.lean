import FacelessOS.Basic
import Mathlib.Data.List.Induction
import Mathlib.Logic.Function.Basic
import Mathlib.Tactic.IntervalCases

/-!
# The interrupt descriptor table (`IDT.c`, `IDT.h`)

A descriptor is packed into 16 bytes, `image`, from which the CPU decodes a gate. The
address survives the split over three fields (`decodeGate_setIdtDesc`), but `set_idt_desc`
ignores its flags: every gate is a present trap gate for the kernel. So a run of calls
leaves the gates that were asked for exactly when these are the flags of the last call for
every vector (`setIdtDescs_iff`), and `idt_install` does not: its timer interrupt goes
through a trap gate.
-/

namespace FacelessOS

def trapGateFlags : U32 := 0x8F
def intGateFlags : U32 := 0x8E

structure IdtGateDescriptor where
  isrLow : U16
  cs : U16
  ist : BitVec 3
  reserved : BitVec 5
  attr : BitVec 4
  reserved1 : BitVec 1
  dpl : BitVec 2
  p : BitVec 1
  isrMiddle : U16
  isrHigh : U32
  reserved2 : U32
deriving DecidableEq, Repr

abbrev Idt : Type := U8 → IdtGateDescriptor

def setIdtDesc (idt : Idt) (vector : U8) (isr : U64) (_flags : U32) : Idt :=
  let addr := isr
  Function.update idt vector
    { isrLow := (addr &&& 0xFFFF#64).setWidth 16
      cs := 0x28
      ist := 0x0
      reserved := 0x0
      attr := 0xF
      reserved1 := 0x0
      dpl := 0
      p := 1
      isrMiddle := ((addr >>> 16) &&& 0xFFFF#64).setWidth 16
      isrHigh := ((addr >>> 32) &&& 0xFFFFFFFF#64).setWidth 32
      reserved2 := 0x0 }

structure IdtCall where
  vector : U8
  isr : U64
  flags : U32
deriving DecidableEq, Repr

def setIdtDescs (idt : Idt) (calls : List IdtCall) : Idt :=
  calls.foldl (fun idt c => setIdtDesc idt c.vector c.isr c.flags) idt

def setupExceptions (exceptions : ℕ → U64) : List IdtCall :=
  (List.range 15).map (fun vector => ⟨BitVec.ofNat 8 vector, exceptions vector, trapGateFlags⟩) ++
    [⟨0#8, exceptions 0, trapGateFlags⟩]

def setupIrqs (irq0 : U64) : List IdtCall := [⟨0x20#8, irq0, intGateFlags⟩]

/-! ## Gates -/

/-- The 16 bytes of a descriptor, the last field most significant. -/
def IdtGateDescriptor.image (d : IdtGateDescriptor) : BitVec 128 :=
  d.reserved2 ++ d.isrHigh ++ d.isrMiddle ++ d.p ++ d.dpl ++ d.reserved1 ++ d.attr ++
    d.reserved ++ d.ist ++ d.cs ++ d.isrLow

/-- What the CPU takes from a descriptor. -/
structure Gate where
  offset : U64
  selector : U16
  type : BitVec 4
  dpl : BitVec 2
  present : BitVec 1
deriving DecidableEq, Repr

/-- The gate in the 16 bytes, as the x86-64 manual lays it out. -/
def decodeGate (raw : BitVec 128) : Gate where
  offset := raw.extractLsb' 64 32 ++ raw.extractLsb' 48 16 ++ raw.extractLsb' 0 16
  selector := raw.extractLsb' 16 16
  type := raw.extractLsb' 40 4
  dpl := raw.extractLsb' 45 2
  present := raw.extractLsb' 47 1

/-- The gate that a call asks for: the type in bits 0-3 of the flags, the privilege level in
bits 5-6 and the present bit in bit 7. -/
structure Asked (gate : Gate) (call : IdtCall) : Prop where
  offset : gate.offset = call.isr
  type : gate.type = call.flags.extractLsb' 0 4
  dpl : gate.dpl = call.flags.extractLsb' 5 2
  present : gate.present = call.flags.extractLsb' 7 1

theorem extract_field (d : IdtGateDescriptor) {start n : ℕ} {f : BitVec n}
    (h : ∀ i < n, d.image.getLsbD (start + i) = f.getLsbD i) :
    d.image.extractLsb' start n = f := by
  refine BitVec.eq_of_getLsbD_eq fun i hi => ?_
  rw [BitVec.getLsbD_extractLsb', decide_eq_true hi, Bool.true_and, h i hi]

/-- The packed format keeps every field of the gate. -/
theorem decodeGate_image (d : IdtGateDescriptor) : decodeGate d.image =
    ⟨d.isrHigh ++ d.isrMiddle ++ d.isrLow, d.cs, d.attr, d.dpl, d.p⟩ := by
  rw [decodeGate, Gate.mk.injEq]
  refine ⟨congrArg₂ _ (congrArg₂ _ ?_ ?_) ?_, ?_, ?_, ?_, ?_⟩
  -- the offset in its three parts, then the other fields
  all_goals
    refine extract_field d fun i hi => ?_
    simp only [IdtGateDescriptor.image, BitVec.getLsbD_append]
    grind

theorem isr_parts (addr : U64) :
    ((addr >>> 32) &&& 0xFFFFFFFF#64).setWidth 32 ++ ((addr >>> 16) &&& 0xFFFF#64).setWidth 16 ++
      (addr &&& 0xFFFF#64).setWidth 16 = addr := by
  refine BitVec.eq_of_getLsbD_eq fun i hi => ?_
  simp only [BitVec.getLsbD_append, BitVec.getLsbD_setWidth, BitVec.getLsbD_and,
    BitVec.getLsbD_ushiftRight]
  interval_cases i <;> simp

/-- A call leaves a present trap gate with its address, whatever its flags are. -/
theorem decodeGate_setIdtDesc (idt : Idt) (vector : U8) (isr : U64) (flags : U32) :
    decodeGate (setIdtDesc idt vector isr flags vector).image = ⟨isr, 0x28, 0xF, 0, 1⟩ := by
  rw [decodeGate_image, setIdtDesc, Function.update_self]
  simp only [isr_parts]

theorem setIdtDesc_other (idt : Idt) {vector v : U8} (isr : U64) (flags : U32) (h : v ≠ vector) :
    setIdtDesc idt vector isr flags v = idt v := by
  rw [setIdtDesc, Function.update_of_ne h]

/-! ## Runs -/

def lastCall (calls : List IdtCall) (v : U8) : Option IdtCall :=
  (calls.filter fun c => c.vector = v).getLast?

/-- Every vector that was written holds the gate its last call asks for, and every other
descriptor is what it was. -/
def KeepsArguments (idt : Idt) (calls : List IdtCall) : Prop :=
  ∀ v, match lastCall calls v with
    | some call => Asked (decodeGate (setIdtDescs idt calls v).image) call
    | none => setIdtDescs idt calls v = idt v

theorem lastCall_concat (calls : List IdtCall) (c : IdtCall) (v : U8) :
    lastCall (calls ++ [c]) v = if c.vector = v then some c else lastCall calls v := by
  rw [lastCall, List.filter_append]
  by_cases h : c.vector = v
  · rw [if_pos h, List.filter_cons_of_pos (by simpa using h)]
    exact List.getLast?_concat
  · rw [if_neg h, List.filter_cons_of_neg (by simpa using h), List.filter_nil, List.append_nil]
    rfl

theorem setIdtDescs_get (idt : Idt) (calls : List IdtCall) (v : U8) :
    setIdtDescs idt calls v = match lastCall calls v with
      | some call => setIdtDesc idt v call.isr call.flags v
      | none => idt v := by
  induction calls using List.reverseRecOn with
  | nil => rfl
  | append_singleton calls c ih =>
      rw [lastCall_concat, setIdtDescs, List.foldl_append]
      by_cases h : c.vector = v
      · rw [if_pos h]
        subst h
        simp only [List.foldl_cons, List.foldl_nil, setIdtDesc, Function.update_self]
      · rw [if_neg h, ← ih]
        exact setIdtDesc_other (setIdtDescs idt calls) c.isr c.flags (Ne.symm h)

/-- A run keeps the arguments of its calls exactly when the last call for every vector asks
for a present trap gate of privilege level 0. -/
theorem setIdtDescs_iff (idt : Idt) (calls : List IdtCall) : KeepsArguments idt calls ↔
    ∀ v call, lastCall calls v = some call → call.flags.extractLsb' 0 4 = 0xF#4 ∧
      call.flags.extractLsb' 5 2 = 0#2 ∧ call.flags.extractLsb' 7 1 = 1#1 := by
  constructor
  · intro h v call hlast
    have hv := h v
    rw [setIdtDescs_get, hlast] at hv
    simp only [decodeGate_setIdtDesc] at hv
    exact ⟨hv.type.symm, hv.dpl.symm, hv.present.symm⟩
  · intro h v
    rw [setIdtDescs_get]
    cases hlast : lastCall calls v with
    | none => rfl
    | some call =>
        obtain ⟨htype, hdpl, hpresent⟩ := h v call hlast
        simp only [decodeGate_setIdtDesc]
        exact ⟨rfl, htype.symm, hdpl.symm, hpresent.symm⟩

/-- `idt_install` asks for an interrupt gate under vector `0x20`. -/
theorem idt_install_not_kept : ¬ ∀ (idt : Idt) (calls : List IdtCall), KeepsArguments idt calls := by
  intro h
  have h20 := h (fun _ => ⟨0, 0, 0, 0, 0, 0, 0, 0, 0, 0, 0⟩)
    (setupExceptions (fun _ => 0x8000#64) ++ setupIrqs 0x9000#64) 0x20#8
  rw [setIdtDescs_get, setupIrqs, lastCall_concat, if_pos rfl] at h20
  simp only [decodeGate_setIdtDesc] at h20
  exact absurd h20.type (by decide)

end FacelessOS
