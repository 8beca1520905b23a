import FacelessOS.Memory.FrameAllocator
import FacelessOS.Memory.KheapRuns

/-!
# Who owns a frame

The heap and the frame allocator share one physical address space, and nothing
reconciles them: the allocator hands out the usable pages of the memory map in order,
whatever the heap uses. So whether a frame is handed out at some time is decided by the
memory map alone (`handedOut_iff`).
-/

namespace FacelessOS

open ByteStore Runs

/-! ## Runs of both allocators -/

inductive KernelOp where
  | pmmAlloc
  | pmmAllocz
  | mapPage (logical : U64) (flags : U32)
  | kheapInit
  | kmalloc (sz : U64)
  | kfree (block : U64)

/-- A call that returns, with the live allocations kept account of. -/
inductive KernelStep : HeapRun → KernelOp → HeapRun → Prop where
  | pmmAlloc {r : HeapRun} :
      KernelStep r .pmmAlloc ⟨{ r.heap with vm := r.heap.vm.pmmAlloc.2 }, r.live⟩
  | pmmAllocz {r : HeapRun} :
      KernelStep r .pmmAllocz ⟨{ r.heap with vm := r.heap.vm.pmmAllocz.2 }, r.live⟩
  | mapPage {r : HeapRun} {a : U64} {fl : U32} {vm : Vm} : MapsPage r.heap.vm a fl vm →
      KernelStep r (.mapPage a fl) ⟨{ r.heap with vm := vm }, r.live⟩
  | kheapInit {r : HeapRun} {s' : Kheap} : KheapInits r.heap s' →
      KernelStep r .kheapInit ⟨s', r.live⟩
  | kmalloc {r : HeapRun} {sz p : U64} {s' : Kheap} : Kmallocs r.heap sz p s' →
      KernelStep r (.kmalloc sz) ⟨s', if p = 0#64 then r.live else (p, sz) :: r.live⟩
  | kfree {r : HeapRun} {p : U64} {s' : Kheap} : kfree r.heap p = .ok s' →
      KernelStep r (.kfree p) ⟨s', r.live.eraseP fun a => a.1 = p⟩

/-- The frame that `map_page` maps the page of `x` to. -/
def frameOf (x : U64) : U64 := x &&& pageAddrMask

/-- Usable entries start and end on page boundaries. -/
def AlignedMap (mmap : List MmapEntry) : Prop :=
  ∀ entry ∈ mmap, entry.type = stivale2MmapUsable →
    PageAligned entry.base ∧ entry.length.toNat % pageSize = 0

def InUsable (mmap : List MmapEntry) (f : U64) : Prop :=
  ∃ entry ∈ mmap, entry.type = stivale2MmapUsable ∧
    (f - entry.base).toNat < entry.length.toNat

theorem AlignedMap.pageMultiple {mmap : List MmapEntry} (h : AlignedMap mmap) :
    PageMultiple mmap :=
  fun entry he ht => (h entry he ht).2

theorem AlignedMap.mem_usablePages {mmap : List MmapEntry} (h : AlignedMap mmap) {f : U64}
    (hf : PageAligned f) : f ∈ usablePages mmap ↔ InUsable mmap f := by
  constructor
  · intro hmem
    obtain ⟨entry, he, hpage⟩ := List.mem_flatMap.mp hmem
    obtain ⟨ht, k, hk, rfl⟩ := mem_entryPages.mp hpage
    refine ⟨entry, he, ht, ?_⟩
    have hlt := entry.length.isLt
    rw [BitVec.add_comm, BitVec.add_sub_cancel, BitVec.toNat_ofNat]
    unfold pageSize at hk ⊢
    omega
  · rintro ⟨entry, he, ht, hlt⟩
    obtain ⟨hbase, hlen⟩ := h entry he ht
    refine List.mem_flatMap.mpr ⟨entry, he, mem_entryPages.mpr ⟨ht,
      (f - entry.base).toNat / pageSize, ?_, ?_⟩⟩
    · unfold pageSize at hlen ⊢
      omega
    · -- both addresses are page boundaries, so their distance is whole pages
      have hmul : (f - entry.base).toNat % pageSize = 0 := by
        rw [PageAligned, pageSize] at hf hbase
        rw [BitVec.toNat_sub, pageSize]
        omega
      rw [Nat.mul_div_cancel' (Nat.dvd_of_mod_eq_zero hmul), BitVec.ofNat_toNat,
        BitVec.setWidth_eq, BitVec.add_comm, BitVec.sub_add_cancel]

/-! ## The allocator works through its list -/

/-- Between the two states the allocator has handed out the next pages of its
list, and recorded them. -/
def TakesInOrder (s s' : Vm) : Prop :=
  ∀ pages, HandsOut s.pmm.gmmap pages → ∃ used rest, pages = used ++ rest ∧
    HandsOut s'.pmm.gmmap rest ∧ s'.frames = used.reverse ++ s.frames

namespace TakesInOrder

theorem of_same {s s' : Vm} (hpmm : s'.pmm = s.pmm) (hframes : s'.frames = s.frames) :
    TakesInOrder s s' :=
  fun pages h => ⟨[], pages, rfl, by rw [hpmm]; exact h, hframes⟩

theorem trans {s s' s'' : Vm} (h : TakesInOrder s s') (h' : TakesInOrder s' s'') :
    TakesInOrder s s'' := by
  intro pages hout
  obtain ⟨used, rest, rfl, hrest, hframes⟩ := h pages hout
  obtain ⟨used', rest', rfl, hrest', hframes'⟩ := h' rest hrest
  refine ⟨used ++ used', rest', (List.append_assoc _ _ _).symm, hrest', ?_⟩
  rw [hframes', hframes, List.reverse_append, List.append_assoc]

theorem pmmAlloc (s : Vm) : TakesInOrder s s.pmmAlloc.2 := by
  intro pages hout
  cases hout with
  | done hnone =>
      rw [Vm.pmmAlloc_of_none hnone]
      exact ⟨[], [], rfl, .done hnone, rfl⟩
  | @page _ mmap' f rest hsome hrest =>
      rw [Vm.pmmAlloc_of_some hsome]
      exact ⟨[f], rest, rfl, hrest, rfl⟩

theorem pmmAllocz (s : Vm) : TakesInOrder s s.pmmAllocz.2 :=
  (pmmAlloc s).trans (of_same rfl rfl)

theorem mapPage {s s' : Vm} {a : U64} {fl : U32} (h : MapsPage s a fl s') :
    TakesInOrder s s' := by
  obtain ⟨fuel, h⟩ := h
  exact mapPage_preserves (fun s => of_same rfl rfl) (fun _ _ _ h h' => h.trans h')
    (fun s t i fl => (pmmAllocz s).trans (of_same rfl rfl))
    (fun s t i e => of_same rfl rfl) fuel h

theorem kmalloc {s s' : Kheap} {sz p : U64} (h : Kmallocs s sz p s') :
    TakesInOrder s.vm s'.vm := by
  obtain ⟨vm, hvm, halloc⟩ := h.allocates
  refine (mapPage hvm).trans ?_
  cases halloc <;> exact of_same rfl rfl

theorem kheapInit {s s' : Kheap} (h : KheapInits s s') : TakesInOrder s.vm s'.vm := by
  obtain ⟨fuel, h⟩ := h
  obtain ⟨vm, hvm, h⟩ := Option.bind_eq_some_iff.mp h
  obtain rfl := Option.some.inj h
  exact (mapPage ⟨fuel, hvm⟩).trans (of_same rfl rfl)

theorem kfree {s s' : Kheap} {p : U64} (h : FacelessOS.kfree s p = .ok s') :
    TakesInOrder s.vm s'.vm := by
  obtain rfl := kfree_ok h
  exact of_same rfl rfl

end TakesInOrder

theorem KernelStep.takesInOrder {r r' : HeapRun} {op : KernelOp}
    (h : KernelStep r op r') : TakesInOrder r.heap.vm r'.heap.vm := by
  cases h with
  | pmmAlloc => exact .pmmAlloc _
  | pmmAllocz => exact .pmmAllocz _
  | mapPage hcall => exact .mapPage hcall
  | kheapInit hcall => exact .kheapInit hcall
  | kmalloc hcall => exact .kmalloc hcall
  | kfree hcall => exact .kfree hcall

theorem takesInOrder_of_run {r r' : HeapRun} {ops : List KernelOp}
    (h : Run KernelStep r ops r') : TakesInOrder r.heap.vm r'.heap.vm := by
  induction h with
  | start => exact .of_same rfl rfl
  | snoc _ hstep ih => exact ih.trans hstep.takesInOrder

theorem exists_run_handsOut_all {rest : List U64} (r : HeapRun)
    (h : HandsOut r.heap.vm.pmm.gmmap rest) : ∃ ops r', Run KernelStep r ops r' ∧
      r'.heap.vm.frames = rest.reverse ++ r.heap.vm.frames := by
  induction rest generalizing r with
  | nil => exact ⟨[], r, .start, rfl⟩
  | cons f rest ih =>
      cases h with
      | page hsome hrest =>
          have hstep : KernelStep r .pmmAlloc _ := .pmmAlloc
          have halloc : r.heap.vm.pmmAlloc.2.frames = f :: r.heap.vm.frames := by
            rw [Vm.pmmAlloc_of_some hsome]
            rfl
          obtain ⟨ops, r', hrun, hframes⟩ := ih
            ⟨{ r.heap with vm := r.heap.vm.pmmAlloc.2 }, r.live⟩ (by
              rw [Vm.pmmAlloc_of_some hsome]
              exact hrest)
          refine ⟨_, r', (Run.start.snoc hstep).trans hrun, ?_⟩
          rw [hframes, halloc, List.reverse_cons, List.append_assoc]
          rfl

/-- **The memory map decides who owns a frame.** Over any run of both allocators and the
mapper, `pmm_alloc` never hands out a frame, before or later, exactly when it lies in no
usable entry. -/
theorem handedOut_iff {r₀ r : HeapRun} {ops : List KernelOp}
    (hmap : AlignedMap r₀.heap.vm.pmm.gmmap) (hrun : Run KernelStep r₀ ops r) (x : U64) :
    (∀ ops' r', Run KernelStep r ops' r' →
        frameOf x ∉ r₀.heap.vm.newFrames r'.heap.vm) ↔
      ¬ InUsable r₀.heap.vm.pmm.gmmap (frameOf x) := by
  rw [← hmap.mem_usablePages (f := frameOf x) (pageAligned_mask x)]
  have hout := handsOut_usablePages hmap.pageMultiple
  constructor
  · intro hnever hmem
    obtain ⟨used, rest, hpages, hrest, hframes⟩ := takesInOrder_of_run hrun _ hout
    obtain ⟨ops', r', hrun', hall⟩ := exists_run_handsOut_all r hrest
    refine hnever ops' r' hrun' ?_
    have happ : r'.heap.vm.frames = (used ++ rest).reverse ++ r₀.heap.vm.frames := by
      rw [hall, hframes, List.reverse_append, List.append_assoc]
    rw [Vm.newFrames_of_append happ, List.reverse_reverse, ← hpages]
    exact hmem
  · intro hmem ops' r' hrun' hnew
    obtain ⟨used, rest, hpages, -, hframes⟩ :=
      takesInOrder_of_run (hrun.trans hrun') _ hout
    rw [Vm.newFrames_of_append hframes, List.reverse_reverse] at hnew
    rw [hpages] at hmem
    exact hmem (List.mem_append_left _ hnew)

end FacelessOS
