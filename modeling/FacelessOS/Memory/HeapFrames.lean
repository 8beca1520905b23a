import FacelessOS.Memory.BlockChain
import FacelessOS.Memory.HeapMapped

/-!
# The frames under the heap

The heap starts at `KHEAP_START` and grows from there; its pages are mapped to the frames
of the same addresses, and nothing reserves those frames or asks whether they are usable.
As long as the block list is kept and no request reaches the limit, its bytes lie below
`heapReach`, and one run uses all the pages below. So heap and frame allocator have
separate owners over the maps without a usable page there, the heap lies in usable memory
over the maps where all of them are usable, and never both (`heapFrames_owners`).
-/

namespace FacelessOS

open ByteStore LinkedList Runs

/-! ## Runs of the kernel -/

def KernelOp.BeforeHeap : KernelOp → Prop
  | .pmmAlloc | .pmmAllocz | .mapPage _ _ => True
  | .kheapInit | .kmalloc _ | .kfree _ => False

def KeepsHeaders (s s' : Vm) : Prop :=
  ∀ b, Listed s.mem b → ∀ x, Within b headerSize x → s'.mem x = s.mem x

/-- The condition on a call after `kheap_init`. It keeps the headers, a request also the
list, and is below the limit; only live pointers are freed. -/
def KernelOp.KeepsHeap (r : HeapRun) : KernelOp → Prop
  | .pmmAlloc => True
  | .pmmAllocz => KeepsHeaders r.heap.vm r.heap.vm.pmmAllocz.2
  | .mapPage a fl => ∀ vm, MapsPage r.heap.vm a fl vm → KeepsHeaders r.heap.vm vm
  | .kheapInit => False
  | .kmalloc sz => KeepsChain r.heap sz ∧ sz < kheapLimit
  | .kfree p => ∃ sz, (p, sz) ∈ r.live

/-- The states reached from `s` with this memory map: first the frame allocator and the
mapper, then `kheap_init`, then calls that meet the condition. -/
inductive KernelRun (mmap : List MmapEntry) (s : Kheap) : HeapRun → Prop where
  | run {ops ops' : List KernelOp} {s₁ s₂ : Kheap} {r : HeapRun} :
      s.vm.pmm.gmmap = mmap →
      Run (Guarded (fun _ op => op.BeforeHeap) KernelStep) ⟨s, []⟩ ops ⟨s₁, []⟩ →
      KheapInits s₁ s₂ →
      Run (Guarded KernelOp.KeepsHeap KernelStep) ⟨s₂, []⟩ ops' r → KernelRun mmap s r

/-- `x` is a byte of a listed header or of a live allocation. -/
def HeapAddr (r : HeapRun) (x : U64) : Prop :=
  (∃ b, Listed r.heap.vm.mem b ∧ Within b headerSize x) ∨
    ∃ a ∈ r.live, Within a.1 a.2.toNat x

/-- The frames of the heap bytes of `r` are never handed out, in the run from `s` to it
or later. -/
def HeapFramesKept (s : Kheap) (r : HeapRun) : Prop :=
  ∀ x, HeapAddr r x → ∀ ops r', Run KernelStep r ops r' →
    frameOf x ∉ s.vm.newFrames r'.heap.vm

/-- The heap bytes of `r` lie in usable entries. -/
def HeapUsable (mmap : List MmapEntry) (r : HeapRun) : Prop :=
  ∀ x, HeapAddr r x → InUsable mmap x

/-- The end of the bytes that the heap can use: a last header, and a request behind it. -/
def heapReach : ℕ := heapTop + kheapLimit.toNat

theorem KernelRun.all {mmap : List MmapEntry} {s : Kheap} {r : HeapRun}
    (h : KernelRun mmap s r) : ∃ ops, Run KernelStep ⟨s, []⟩ ops r := by
  obtain ⟨-, hbefore, hinit, hrun⟩ := h
  have hboot := (hbefore.mono fun _ _ _ h => h.2).snoc (.kheapInit hinit)
  exact ⟨_, hboot.trans (hrun.mono fun _ _ _ h => h.2)⟩

theorem KernelRun.map_eq {mmap : List MmapEntry} {s : Kheap} {r : HeapRun}
    (h : KernelRun mmap s r) : s.vm.pmm.gmmap = mmap := by
  obtain ⟨hmap, -, -, -⟩ := h
  exact hmap

/-! ## Where heap bytes lie -/

/-- The block list is kept and lies in the heap, and each live request is below the
limit. -/
structure HeapPlaced (r : HeapRun) (blocks : List U64) : Prop where
  chain : BlockChain r.heap.vm.mem blocks r.live
  inHeap : ∀ b ∈ blocks, InHeap b
  small : ∀ a ∈ r.live, a.2 < kheapLimit

theorem KheapInits.placed {s s' : Kheap} (h : KheapInits s s') :
    HeapPlaced ⟨s', []⟩ [kheapStart] := by
  refine ⟨h.blockChain, fun b hb => ?_, fun a ha => absurd ha List.not_mem_nil⟩
  rw [List.mem_singleton.mp hb]
  exact ⟨Nat.le_refl _, by decide⟩

namespace HeapPlaced

variable {r r' : HeapRun} {blocks : List U64}

theorem congr {vm : Vm} (h : HeapPlaced r blocks) (hkeeps : KeepsHeaders r.heap.vm vm) :
    HeapPlaced ⟨{ r.heap with vm := vm }, r.live⟩ blocks :=
  ⟨h.chain.congr fun b hb => hkeeps b (h.chain.chain.listed_iff.mpr hb), h.inHeap, h.small⟩

theorem kmalloc {sz p : U64} {s' : Kheap} (h : HeapPlaced r blocks)
    (hkeeps : KeepsChain r.heap sz) (hsz : sz < kheapLimit)
    (hcall : Kmallocs r.heap sz p s') : ∃ blocks',
      HeapPlaced ⟨s', if p = 0#64 then r.live else (p, sz) :: r.live⟩ blocks' := by
  obtain ⟨blocks', hchain, hnew⟩ := h.chain.kmalloc hkeeps hcall
  refine ⟨blocks', hchain, fun b hb => (hnew b hb).elim (h.inHeap b) id, fun a ha => ?_⟩
  split at ha
  · exact h.small a ha
  · rcases List.mem_cons.mp ha with rfl | ha
    · exact hsz
    · exact h.small a ha

theorem kfree {p sz : U64} {s' : Kheap} (h : HeapPlaced r blocks) (hlive : (p, sz) ∈ r.live)
    (hcall : FacelessOS.kfree r.heap p = .ok s') :
    HeapPlaced ⟨s', r.live.eraseP fun a => a.1 = p⟩ blocks := by
  obtain ⟨b, hb, rfl⟩ := h.chain.live_block p sz hlive
  obtain rfl := kfree_ok hcall
  rw [blk_dataStart]
  obtain ⟨hchain, hapart, hmagic, hblock⟩ := h.chain.setIsFree hb 1#8
  exact ⟨⟨hchain, hapart, hmagic, fun p' sz' hp =>
    hblock p' sz' (List.mem_of_mem_eraseP hp)⟩, h.inHeap,
    fun a ha => h.small a (List.mem_of_mem_eraseP ha)⟩

/-- **One call that meets the condition.** -/
theorem step {op : KernelOp} (h : HeapPlaced r blocks) (hkeeps : op.KeepsHeap r)
    (hstep : KernelStep r op r') : ∃ blocks', HeapPlaced r' blocks' := by
  cases hstep with
  | pmmAlloc => exact ⟨blocks, h.congr fun _ _ _ _ => rfl⟩
  | pmmAllocz => exact ⟨blocks, h.congr hkeeps⟩
  | mapPage hcall => exact ⟨blocks, h.congr (hkeeps _ hcall)⟩
  | kheapInit _ => exact hkeeps.elim
  | kmalloc hcall => exact h.kmalloc hkeeps.1 hkeeps.2 hcall
  | kfree hcall =>
      obtain ⟨sz, hlive⟩ := hkeeps
      exact ⟨blocks, h.kfree hlive hcall⟩

theorem bounds (h : HeapPlaced r blocks) {x : U64} (hx : HeapAddr r x) :
    kheapStart.toNat ≤ x.toNat ∧ x.toNat < heapReach := by
  have hreach : heapReach < 2 ^ 64 := by decide
  have hlimit : 0 < kheapLimit.toNat := by decide
  rcases hx with ⟨b, hb, hx⟩ | ⟨⟨p, sz⟩, ha, hx⟩
  · obtain ⟨hlow, htop⟩ := h.inHeap b (h.chain.chain.listed_iff.mp hb)
    rw [within_header_iff htop] at hx
    unfold heapReach
    omega
  · obtain ⟨b, hb, rfl⟩ := h.chain.live_block p sz ha
    obtain ⟨hlow, htop⟩ := h.inHeap b hb
    have hdata := toNat_dataStart htop
    have hsz : sz.toNat < kheapLimit.toNat := h.small _ ha
    unfold heapReach at hreach ⊢
    rw [within_iff (show (Block.dataStart b).toNat + sz.toNat ≤ 2 ^ 64 by omega)] at hx
    show _ ∧ _
    omega

end HeapPlaced

theorem KernelRun.placed {mmap : List MmapEntry} {s : Kheap} {r : HeapRun}
    (h : KernelRun mmap s r) : ∃ blocks, HeapPlaced r blocks := by
  obtain ⟨-, -, hinit, hrun⟩ := h
  exact hrun.guarded_invariant (P := fun r => ∃ blocks, HeapPlaced r blocks)
    ⟨_, hinit.placed⟩ fun _ _ _ ⟨_, h⟩ hkeeps hstep => h.step hkeeps hstep

theorem heapAddr_first (r : HeapRun) : HeapAddr r kheapStart :=
  Or.inl ⟨kheapStart, .head (by decide), within_self (by decide)⟩

theorem AlignedMap.inUsable_frameOf {mmap : List MmapEntry} (hmap : AlignedMap mmap) {x : U64}
    (hx : x.toNat < heapReach) : InUsable mmap (frameOf x) ↔ InUsable mmap x := by
  have hframe : (frameOf x).toNat = x.toNat / 0x1000 * 0x1000 := by
    rw [frameOf, toNat_pageAddrMask]
    unfold heapReach heapTop headerSize kheapLimit gb at hx
    simp only [BitVec.toNat_add, BitVec.toNat_ofNat] at hx
    omega
  refine exists_congr fun entry => and_congr_right fun he => and_congr_right fun ht => ?_
  obtain ⟨hbase, hlen⟩ := hmap entry he ht
  have hlt := x.isLt
  have hblt := entry.base.isLt
  rw [PageAligned] at hbase
  rw [BitVec.toNat_sub, BitVec.toNat_sub, hframe]
  unfold pageSize at hbase hlen
  omega

/-! ## A heap that uses all it can -/

def maxRequest : U64 := kheapLimit - 1#64

/-- Where the block for the largest request goes while nothing is allocated. -/
def lastBlock : U64 := kheapStart + maxRequest

theorem KeepsChain.kernelStep {s s' : Kheap} {sz p : U64} (hkeeps : KeepsChain s sz)
    (live : List (U64 × U64)) (hsz : sz < kheapLimit) (h : Kmallocs s sz p s') (hp : p ≠ 0#64) :
    Guarded KernelOp.KeepsHeap KernelStep ⟨s, live⟩ (.kmalloc sz) ⟨s', (p, sz) :: live⟩ := by
  have hstep := KernelStep.kmalloc (r := ⟨s, live⟩) h
  rw [if_neg hp] at hstep
  exact ⟨⟨hkeeps, hsz⟩, hstep⟩

namespace FullHeap

/-- A request of 0 bytes takes the first block, -/
def vm₁ : Vm := lowPageHeap.vm.setIsFree kheapStart 0#8

/-- the largest one a new block, -/
def vm₂ : Vm := (vm₁.appendBlock kheapStart lastBlock maxRequest).setIsFree lastBlock 0#8

/-- the first block is freed, -/
def vm₃ : Vm := vm₂.setIsFree kheapStart 1#8

/-- and the largest request takes it again. -/
def vm₄ : Vm := vm₃.setIsFree kheapStart 0#8

def heap (vm : Vm) (memAllocated : U64) (pmm : Pmm) : Kheap :=
  ⟨{ vm with pmm := pmm }, memAllocated⟩

variable (pmm : Pmm)

section Calls

-- while the page of the first block is mapped, no call asks the frame allocator
variable (vm : Vm) (hmapped : (vm.translate (pageOf kheapStart)).isSome)
include hmapped

theorem mapped : ((heap vm 0#64 pmm).vm.translate
    (pageOf (kheapStart + (heap vm 0#64 pmm).memAllocated))).isSome := by
  have haddr : kheapStart + (heap vm 0#64 pmm).memAllocated = kheapStart := by
    show kheapStart + 0#64 = kheapStart
    decide
  rw [haddr]
  exact hmapped

theorem kmalloc_first (sz : U64) (hlimit : sz < kheapLimit)
    (hfree : Block.isFree vm.mem kheapStart ≠ 0#8) :
    Kmallocs (heap vm 0#64 pmm) sz (Block.dataStart kheapStart)
      (heap (vm.setIsFree kheapStart 0#8) sz pmm) := by
  have hsum : (heap vm 0#64 pmm).memAllocated + sz = sz := BitVec.zero_add sz
  have hcall := FacelessOS.kmalloc_first (s := heap vm 0#64 pmm) (mapped pmm vm hmapped)
    (by rwa [hsum]) hfree
  rw [hsum] at hcall
  exact hcall

theorem kmalloc_last (hloop : firstFitLoop vm.mem 2 kheapStart 0#64 = some (0#64, kheapStart)) :
    Kmallocs (heap vm 0#64 pmm) maxRequest (Block.dataStart lastBlock)
      (heap ((vm.appendBlock kheapStart lastBlock maxRequest).setIsFree lastBlock 0#8) maxRequest
        pmm) := by
  have hsum : (heap vm 0#64 pmm).memAllocated + maxRequest = maxRequest := BitVec.zero_add _
  have hplace : kheapStart + (heap vm 0#64 pmm).memAllocated + maxRequest = lastBlock := by
    show kheapStart + 0#64 + maxRequest = lastBlock
    decide
  have hnext : Block.next
      ((heap vm 0#64 pmm).vm.appendBlock kheapStart lastBlock maxRequest).mem kheapStart =
        lastBlock :=
    Vm.next_appendBlock_prev (apart_of_le (by decide) (by decide))
  have hcall := kmalloc_appends (s := heap vm 0#64 pmm)
    ⟨1, mapPage_of_mapped (mapped pmm vm hmapped) 0 _⟩ (by rw [hsum]; decide) hloop (by decide)
    (hplace ▸ hnext) (hplace ▸ by decide)
  rw [hplace, hsum] at hcall
  exact hcall

end Calls

theorem kheapInit : KheapInits (heap lowPageVm 0#64 pmm) (heap lowPageHeap.vm 0#64 pmm) := by
  refine ⟨1, ?_⟩
  rw [FacelessOS.kheapInit,
    mapPage_of_mapped (s := (heap lowPageVm 0#64 pmm).vm) lowPageVm_mapped]
  rfl

theorem kmalloc₁ : Kmallocs (heap lowPageHeap.vm 0#64 pmm) 0#64 (Block.dataStart kheapStart)
    (heap vm₁ 0#64 pmm) :=
  kmalloc_first pmm _ (by decide +kernel) _ (by decide) (by decide +kernel)

theorem kmalloc₂ : Kmallocs (heap vm₁ 0#64 pmm) maxRequest (Block.dataStart lastBlock)
    (heap vm₂ maxRequest pmm) :=
  kmalloc_last pmm _ (by decide +kernel) (by decide +kernel)

theorem kfree_first {vm : Vm} {m : U64} (hmagic : Block.magic vm.mem kheapStart = kheapMagic) :
    kfree (heap vm m pmm) (Block.dataStart kheapStart) =
      .ok (heap (vm.setIsFree kheapStart 1#8)
        (m - Block.size (vm.setIsFree kheapStart 1#8).mem kheapStart) pmm) := by
  have hmagic' : Block.magic (heap vm m pmm).vm.mem kheapStart = kheapMagic := hmagic
  rw [kfree, blk_dataStart]
  exact if_neg (not_not_intro hmagic')

theorem kfree₃ :
    kfree (heap vm₂ maxRequest pmm) (Block.dataStart kheapStart) = .ok (heap vm₃ 0#64 pmm) := by
  have hsize : maxRequest - Block.size vm₃.mem kheapStart = 0#64 := by decide +kernel
  rw [← hsize]
  exact kfree_first pmm (by decide +kernel)

theorem kmalloc₄ : Kmallocs (heap vm₃ 0#64 pmm) maxRequest (Block.dataStart kheapStart)
    (heap vm₄ maxRequest pmm) :=
  kmalloc_first pmm _ (by decide +kernel) _ (by decide) (by decide +kernel)

theorem keepsChain_of_free (vm : Vm) (hmapped : (vm.translate (pageOf kheapStart)).isSome)
    (hfree : Block.isFree vm.mem kheapStart ≠ 0#8) (sz : U64) :
    KeepsChain (heap vm 0#64 pmm) sz := by
  refine ⟨fun vm' hvm b _ x _ => ?_, fun _ hbusy => ?_⟩
  · rw [hvm.of_mapped (mapped pmm vm hmapped)]
  · exact absurd (hbusy kheapStart (.head (by decide))) hfree

theorem keepsChain_last : KeepsChain (heap vm₁ 0#64 pmm) maxRequest := by
  have hmapped := mapped pmm vm₁ (by decide +kernel)
  have hnext : Block.next vm₁.mem kheapStart = 0#64 := by decide +kernel
  have hzero : Block.next vm₁.mem lastBlock = 0#64 := by decide +kernel
  have hchain : BlockList (heap vm₁ 0#64 pmm).vm.mem [kheapStart] := blockList_one hnext
  have hplace : kheapStart + (heap vm₁ 0#64 pmm).memAllocated + maxRequest = lastBlock := by
    show kheapStart + 0#64 + maxRequest = lastBlock
    decide
  refine ⟨fun vm hvm b _ x _ => ?_, fun _ _ last _ _ _ => ⟨fun b hb => ?_, fun vm hvm => ?_⟩⟩
  · rw [hvm.of_mapped hmapped]
  · rw [List.mem_singleton.mp (hchain.listed_iff.mp hb), hplace]
    exact apart_of_le (by decide) (by decide)
  · rw [hvm.of_mapped hmapped, hplace]
    exact hzero

def live : List (U64 × U64) :=
  [(Block.dataStart kheapStart, maxRequest), (Block.dataStart lastBlock, maxRequest)]

theorem kernelRun (mmap : List MmapEntry) : ∃ s,
    KernelRun mmap s ⟨heap vm₄ maxRequest ⟨mmap, 0, 0, 0⟩, live⟩ := by
  let pmm : Pmm := ⟨mmap, 0, 0, 0⟩
  have hfree₁ := keepsChain_of_free pmm lowPageHeap.vm (by decide +kernel)
    (by decide +kernel) 0#64
  have hfree₄ := keepsChain_of_free pmm vm₃ (by decide +kernel) (by decide +kernel)
    maxRequest
  have hlimit : maxRequest < kheapLimit := by decide
  have hstep₃ : Guarded KernelOp.KeepsHeap KernelStep ⟨heap vm₂ maxRequest pmm,
        [(Block.dataStart lastBlock, maxRequest), (Block.dataStart kheapStart, 0#64)]⟩
      (.kfree (Block.dataStart kheapStart))
      ⟨heap vm₃ 0#64 pmm, [(Block.dataStart lastBlock, maxRequest)]⟩ := by
    refine ⟨⟨0#64, ?_⟩, .kfree (kfree₃ pmm)⟩
    exact List.mem_cons_of_mem _ (List.mem_singleton_self _)
  have hrun₁ := Run.start.snoc
    (hfree₁.kernelStep [] (by decide) (kmalloc₁ pmm) (by decide))
  have hrun₂ := hrun₁.snoc ((keepsChain_last pmm).kernelStep _ hlimit (kmalloc₂ pmm) (by decide))
  have hrun₄ := (hrun₂.snoc hstep₃).snoc (hfree₄.kernelStep _ hlimit (kmalloc₄ pmm) (by decide))
  exact ⟨_, .run rfl .start (kheapInit pmm) hrun₄⟩

/-- Every page up to the end has a byte of the heap. -/
theorem covers {f : U64} (hf : PageAligned f) (hlt : f.toNat < heapReach) :
    ∃ x, HeapAddr ⟨heap vm₄ maxRequest pmm, live⟩ x ∧ frameOf x = f := by
  have hreach : heapReach = 0x80000f1d := by decide
  have hfirst : Within (Block.dataStart kheapStart) maxRequest.toNat f ↔
      0x51d ≤ f.toNat ∧ f.toNat < 0x40000a1c := within_iff (by decide)
  have hlast : Within (Block.dataStart lastBlock) maxRequest.toNat f ↔
      0x40000a1c ≤ f.toNat ∧ f.toNat < 0x80000f1b := within_iff (by decide)
  unfold PageAligned pageSize at hf
  by_cases hzero : f = 0#64
  · exact ⟨kheapStart, heapAddr_first _, by rw [hzero]; decide⟩
  · have hpos : f.toNat ≠ 0 := fun h => hzero (BitVec.eq_of_toNat_eq h)
    refine ⟨f, Or.inr ?_, isFrame_of_aligned hf (by omega)⟩
    by_cases hlow : f.toNat < 0x40000a1c
    · exact ⟨_, List.mem_cons_self, hfirst.mpr (by omega)⟩
    · exact ⟨_, List.mem_cons_of_mem _ (List.mem_singleton_self _), hlast.mpr (by omega)⟩

end FullHeap

theorem BootloaderMap.alignedMap {mmap : List MmapEntry} (h : BootloaderMap mmap) :
    AlignedMap mmap :=
  fun entry he ht => ⟨h.base_aligned entry he ht, h.length_pages entry he ht⟩

theorem KernelRun.handedOut_iff {mmap : List MmapEntry} {s : Kheap} {r : HeapRun}
    (hmap : AlignedMap mmap) (h : KernelRun mmap s r) (x : U64) :
    (∀ ops r', Run KernelStep r ops r' → frameOf x ∉ s.vm.newFrames r'.heap.vm) ↔
      ¬ InUsable mmap (frameOf x) := by
  obtain ⟨ops, hrun⟩ := h.all
  obtain rfl := h.map_eq
  exact FacelessOS.handedOut_iff hmap hrun x

/-- **Who owns the frames of the heap is decided by the memory map.** While requests are
below the limit and the calls keep the block list, heap bytes lie between `KHEAP_START`
and `heapReach`. Their frames are never handed out by `pmm_alloc`, before or later, in
all runs over a map if and only if no page below `heapReach` is usable; and they lie in
usable entries in all runs if and only if every page below is. No run has both. -/
theorem heapFrames_owners {mmap : List MmapEntry} (hmap : AlignedMap mmap) :
    (∀ s r, KernelRun mmap s r → ∀ x, HeapAddr r x →
      kheapStart.toNat ≤ x.toNat ∧ x.toNat < heapReach) ∧
    ((∀ s r, KernelRun mmap s r → HeapFramesKept s r) ↔
      ∀ f, PageAligned f → f.toNat < heapReach → ¬ InUsable mmap f) ∧
    ((∀ s r, KernelRun mmap s r → HeapUsable mmap r) ↔
      ∀ f, PageAligned f → f.toNat < heapReach → InUsable mmap f) ∧
    ∀ s r, KernelRun mmap s r → ¬ (HeapFramesKept s r ∧ HeapUsable mmap r) := by
  have hbounds : ∀ s r, KernelRun mmap s r → ∀ x, HeapAddr r x →
      kheapStart.toNat ≤ x.toNat ∧ x.toNat < heapReach := by
    intro s r h x hx
    obtain ⟨blocks, hplaced⟩ := h.placed
    exact hplaced.bounds hx
  have hframe : ∀ x : U64, x.toNat < heapReach → (frameOf x).toNat < heapReach := by
    intro x hx
    exact Nat.lt_of_le_of_lt (by rw [frameOf, BitVec.toNat_and]; exact Nat.and_le_left) hx
  obtain ⟨s₀, hfull⟩ := FullHeap.kernelRun mmap
  refine ⟨hbounds, ⟨fun hall f hf hlt huse => ?_, fun hnone s r h x hx => ?_⟩,
    ⟨fun hall f hf hlt => ?_, fun hall s r h x hx => ?_⟩, fun s r h hboth => ?_⟩
  · obtain ⟨x, hx, rfl⟩ := FullHeap.covers ⟨mmap, 0, 0, 0⟩ hf hlt
    exact (hfull.handedOut_iff hmap x).mp (hall _ _ hfull x hx) huse
  · exact (h.handedOut_iff hmap x).mpr
      (hnone _ (pageAligned_mask x) (hframe x (hbounds s r h x hx).2))
  · obtain ⟨x, hx, rfl⟩ := FullHeap.covers ⟨mmap, 0, 0, 0⟩ hf hlt
    exact (hmap.inUsable_frameOf (hbounds _ _ hfull x hx).2).mpr (hall _ _ hfull x hx)
  · have hlt := (hbounds s r h x hx).2
    exact (hmap.inUsable_frameOf hlt).mp (hall _ (pageAligned_mask x) (hframe x hlt))
  · have hfirst := heapAddr_first r
    have huse := (hmap.inUsable_frameOf (by decide)).mpr (hboth.2 kheapStart hfirst)
    exact (h.handedOut_iff hmap kheapStart).mp (hboth.1 kheapStart hfirst) huse

/-- Usable pages from `0x80001000` on only, and up to there only. -/
theorem heapFrames_owners_high :
    (∀ s r, KernelRun [⟨0x80001000#64, 0x3000#64, stivale2MmapUsable⟩] s r →
      HeapFramesKept s r) ∧
    ∀ s r, KernelRun [⟨0#64, 0x80001000#64, stivale2MmapUsable⟩] s r →
      HeapUsable [⟨0#64, 0x80001000#64, stivale2MmapUsable⟩] r := by
  have hreach : heapReach = 0x80000f1d := by decide
  have haligned : ∀ base length : U64, PageAligned base → length.toNat % pageSize = 0 →
      AlignedMap [⟨base, length, stivale2MmapUsable⟩] := by
    intro base length hbase hlength entry he _
    obtain rfl := List.mem_singleton.mp he
    exact ⟨hbase, hlength⟩
  constructor
  · refine (heapFrames_owners (haligned _ _ (by decide) (by decide))).2.1.mpr ?_
    rintro f - hlt ⟨entry, he, -, huse⟩
    obtain rfl := List.mem_singleton.mp he
    rw [BitVec.toNat_sub] at huse
    simp only [BitVec.toNat_ofNat] at huse
    omega
  · refine (heapFrames_owners (haligned _ _ (by decide) (by decide))).2.2.1.mpr ?_
    intro f _ hlt
    refine ⟨_, List.mem_singleton_self _, rfl, ?_⟩
    rw [BitVec.sub_zero, BitVec.toNat_ofNat]
    omega

/-- One request of two pages over the map of `lowPageVm`, whose pages `0x2000` to
`0x4000` are usable: the second page is handed out again, and the first one is not
usable. -/
theorem lowPageHeap_shared :
    (¬ ∀ (mmap : List MmapEntry) (s : Kheap) (r : HeapRun), BootloaderMap mmap →
      KernelRun mmap s r → HeapFramesKept s r) ∧
    ¬ ∀ (mmap : List MmapEntry) (s : Kheap) (r : HeapRun), BootloaderMap mmap →
      KernelRun mmap s r → HeapUsable mmap r := by
  have hmap : BootloaderMap lowPageVm.pmm.gmmap := by
    refine ⟨by decide, by decide, by unfold PageMultiple; decide, by decide, ?_⟩
    exact List.pairwise_singleton _ _
  have hkeeps := FullHeap.keepsChain_of_free lowPageVm.pmm lowPageHeap.vm
    (by decide +kernel) (by decide +kernel) 0x2000#64
  have hcall := FullHeap.kmalloc_first lowPageVm.pmm lowPageHeap.vm
    (by decide +kernel) 0x2000#64 (by decide) (by decide +kernel)
  have hrun : KernelRun lowPageVm.pmm.gmmap _ _ := .run rfl .start
    (FullHeap.kheapInit lowPageVm.pmm)
    (Run.start.snoc (hkeeps.kernelStep [] (by decide) hcall (by decide)))
  constructor
  · intro hclaim
    have hkept := hclaim _ _ _ hmap hrun 0x2000#64
      (Or.inr ⟨_, List.mem_singleton_self _, by decide⟩)
    refine (hrun.handedOut_iff hmap.alignedMap _).mp hkept ?_
    exact ⟨_, List.mem_singleton_self _, rfl, by decide⟩
  · intro hclaim
    obtain ⟨entry, he, -, hlt⟩ := hclaim _ _ _ hmap hrun kheapStart (heapAddr_first _)
    obtain rfl := List.mem_singleton.mp he
    exact absurd hlt (by decide)

end FacelessOS
