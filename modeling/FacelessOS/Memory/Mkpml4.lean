import FacelessOS.Libkern.Strings
import FacelessOS.Memory.HeapMapped

/-!
# Copies of the root table

`mkpml4` allocates a table, copies the one at `pml4` into it with `strncpy` and then reads
`CR3` into the variable that holds the new table, so what it returns is the table that is
loaded (`mkpml4_never_copies`).
-/

namespace FacelessOS

open ByteStore

/-! ## `strncpy` -/

def Vm.setByte (s : Vm) (p : U64) (v : U8) : Vm :=
  { s with mem := store8 s.mem p v, trace := .stored p 1 :: s.trace }

/-- `strncpy` with its stores: the pointer it returns and the copy. -/
def Vm.strncpy (s : Vm) (dst src len : U64) : U64 × CopyRun Vm :=
  (dst, strncpyLoop (fun s => strAt s.mem src)
    (fun s i v => s.setByte (dst + BitVec.ofNat 64 i) v) len.toNat 0 ⟨s, [], []⟩)

theorem Vm.cr3_strncpy (s : Vm) (dst src len : U64) :
    (s.strncpy dst src len).2.mem.cr3 = s.cr3 := by
  unfold strncpy
  refine strncpyLoop_invariant (P := fun m : Vm => m.cr3 = s.cr3) ?_ rfl
  exact fun _ _ _ h => h

theorem Vm.mem_setByte {s : Vm} {p x : U64} {v : U8} :
    (s.setByte p v).mem x = if x = p then v else s.mem x := by
  by_cases hx : x = p
  · rw [if_pos hx, hx]
    exact store8_same _ _ _
  · rw [if_neg hx]
    refine write_of_not_within fun hw => hx ?_
    unfold Within at hw
    bv_omega

/-! ## `mkpml4` -/

/-- `mkpml4`: the pointer it returns and the state after it. -/
def mkpml4 (fuel : ℕ) (s : Kheap) : Option (U64 × Kheap) := do
  let (alloc, s) ← kmalloc fuel s (512#64 * 8#64)
  let vm := (s.vm.strncpy alloc s.vm.pml4 0x1000#64).2.mem
  let alloc := vm.cr3
  some (alloc, { s with vm := vm })

def loadPml4 (s : Vm) (pml4 : U64) : Vm := { s with cr3 := pml4 }

def Mkpml4s (s : Kheap) (ret : U64) (s' : Kheap) : Prop :=
  ∃ fuel, mkpml4 fuel s = some (ret, s')

/-- What `mkpml4` is for: a second root table with the entries of the first one, which
shares no entry with it. -/
structure IndependentCopy (s : Vm) (ret : U64) (s' : Vm) : Prop where
  aligned : PageAligned ret
  distinct : ret ≠ s.cr3
  entries : ∀ i, s'.entry ret i = s.entry s.pml4 i
  unchanged : ∀ i, s'.entry s.pml4 i = s.entry s.pml4 i
  independent : ∀ i e j, (s'.setEntry ret i e).entry s.pml4 j = s'.entry s.pml4 j ∧
    (s'.setEntry s.pml4 i e).entry ret j = s'.entry ret j

theorem MapsPage.registers {s s' : Vm} {a : U64} {fl : U32} (h : MapsPage s a fl s') :
    s'.pml4 = s.pml4 ∧ s'.cr3 = s.cr3 := by
  obtain ⟨fuel, h⟩ := h
  exact mapPage_preserves (R := fun s s' => s'.pml4 = s.pml4 ∧ s'.cr3 = s.cr3)
    (fun _ => ⟨rfl, rfl⟩) (fun _ _ _ h h' => ⟨h'.1.trans h.1, h'.2.trans h.2⟩)
    (fun _ _ _ _ => ⟨rfl, rfl⟩) (fun _ _ _ _ => ⟨rfl, rfl⟩) fuel h

theorem Kmallocs.registers {s s' : Kheap} {sz p : U64} (h : Kmallocs s sz p s') :
    s'.vm.pml4 = s.vm.pml4 ∧ s'.vm.cr3 = s.vm.cr3 := by
  obtain ⟨vm, hvm, halloc⟩ := h.allocates
  rw [← hvm.registers.1, ← hvm.registers.2]
  cases halloc <;> exact ⟨rfl, rfl⟩

theorem Mkpml4s.registers {s s' : Kheap} {ret : U64} (h : Mkpml4s s ret s') :
    ret = s.vm.cr3 ∧ s'.vm.cr3 = s.vm.cr3 := by
  obtain ⟨fuel, h⟩ := h
  obtain ⟨⟨alloc, s₁⟩, hcall, h⟩ := Option.bind_eq_some_iff.mp h
  obtain ⟨rfl, rfl⟩ := Prod.mk.inj (Option.some.inj h)
  have hcall' : Kmallocs s 4096#64 alloc s₁ := ⟨fuel, hcall⟩
  have hreg : (s₁.vm.strncpy alloc s₁.vm.pml4 0x1000#64).2.mem.cr3 = s.vm.cr3 :=
    (Vm.cr3_strncpy _ _ _ _).trans hcall'.registers.2
  exact ⟨hreg, hreg⟩

theorem mkpml4_returns {s s₁ : Kheap} {alloc : U64} (h : Kmallocs s 4096#64 alloc s₁) :
    ∃ s', Mkpml4s s s.vm.cr3 s' := by
  obtain ⟨fuel, hcall⟩ := h
  have hrun : mkpml4 fuel s = some _ := Option.bind_eq_some_iff.mpr ⟨(alloc, s₁), hcall, rfl⟩
  have hmk : Mkpml4s s _ _ := ⟨fuel, hrun⟩
  exact ⟨_, by rw [← hmk.registers.1]; exact hmk⟩

/-- **`mkpml4` never makes a copy**: it returns the table in `CR3`, and loading what it
returns changes nothing. -/
theorem mkpml4_never_copies {s s' : Kheap} {ret : U64} (h : Mkpml4s s ret s') :
    ¬ IndependentCopy s.vm ret s'.vm ∧ loadPml4 s'.vm ret = s'.vm := by
  obtain ⟨hret, hcr3⟩ := h.registers
  refine ⟨fun hcopy => hcopy.distinct hret, ?_⟩
  rw [hret, ← hcr3]
  rfl

theorem lowPageHeap_table : Kmallocs lowPageHeap 4096#64 0x51d#64
    { vm := lowPageHeap.vm.setIsFree kheapStart 0#8, memAllocated := 4096#64 } :=
  kmalloc_first (by decide +kernel) (by decide) (by decide +kernel)

theorem mkpml4_never_copies_lowPageHeap : ∃ s', Mkpml4s lowPageHeap 0x80000000#64 s' ∧
    ¬ IndependentCopy lowPageHeap.vm 0x80000000#64 s'.vm := by
  obtain ⟨s', h⟩ := mkpml4_returns lowPageHeap_table
  exact ⟨s', h, (mkpml4_never_copies h).1⟩

theorem lowPageHeap_notCopied :
    ¬ ∀ (s s₁ s' : Kheap) (alloc ret : U64), s.vm.cr3 = s.vm.pml4 →
      Kmallocs s 4096#64 alloc s₁ → alloc ≠ 0#64 → Mkpml4s s ret s' →
      IndependentCopy s.vm ret s'.vm := by
  intro hclaim
  obtain ⟨s', h⟩ := mkpml4_returns lowPageHeap_table
  have hcopy := hclaim _ _ _ _ _ rfl lowPageHeap_table (by decide) h
  exact hcopy.distinct rfl

end FacelessOS
