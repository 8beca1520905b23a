import FacelessOS.Lib.Runs
import FacelessOS.Memory.AddressSpace
import FacelessOS.Memory.KheapLayout

/-!
# Runs of the heap

`first_fit` puts a new header at `KHEAP_START + mem_allocated + size`, where
`size` is the new request, and not behind the data of the last block; and it
reuses a free block whatever the request is. So allocations stay apart exactly
as long as each call happens to find room: the condition is `KmallocFits`, a
property of the state before the call.
-/

namespace FacelessOS

open ByteStore LinkedList Runs

/-- The call of `map_page` that a `kmalloc` (or `kheap_init`) makes in this state
stores into no heap byte. -/
def HeapPrivate (s : Kheap) : Prop :=
  ∀ vm, MapsPage s.vm (kheapStart + s.memAllocated) kheapFlags vm →
    ∀ x, HeapByte x → vm.mem x = s.vm.mem x

/-- A state of a run: the heap, and the pointers handed out and not yet freed
with the sizes asked for. -/
structure HeapRun where
  heap : Kheap
  live : List (U64 × U64)

inductive HeapOp where
  | kmalloc (sz : U64)
  | kfree (block : U64)

/-- A call that returns; only live pointers are freed. -/
inductive HeapStep : HeapRun → HeapOp → HeapRun → Prop where
  | kmalloc {r : HeapRun} {sz p : U64} {s' : Kheap} : Kmallocs r.heap sz p s' →
      HeapStep r (.kmalloc sz) ⟨s', if p = 0#64 then r.live else (p, sz) :: r.live⟩
  | kfree {r : HeapRun} {p sz : U64} {s' : Kheap} : (p, sz) ∈ r.live →
      kfree r.heap p = .ok s' → HeapStep r (.kfree p) ⟨s', r.live.erase (p, sz)⟩

theorem HeapStep.kmalloc_of_ne {r : HeapRun} {sz p : U64} {s' : Kheap}
    (h : Kmallocs r.heap sz p s') (hp : p ≠ 0#64) :
    HeapStep r (.kmalloc sz) ⟨s', (p, sz) :: r.live⟩ := by
  have := HeapStep.kmalloc h
  rwa [if_neg hp] at this

theorem HeapStep.kfree_of_erase {s s' : Kheap} {live live' : List (U64 × U64)} {p sz : U64}
    (hlive : (p, sz) ∈ live) (h : FacelessOS.kfree s p = .ok s')
    (herase : live.erase (p, sz) = live') : HeapStep ⟨s, live⟩ (.kfree p) ⟨s', live'⟩ := by
  rw [← herase]
  exact .kfree hlive h

/-- Live allocations share no byte with each other or with a listed header. -/
def AllocationsApart (r : HeapRun) : Prop :=
  (r.live.Pairwise fun a b => Apart a.1 a.2.toNat b.1 b.2.toNat) ∧
  ∀ a ∈ r.live, ∀ b, Listed r.heap.vm.mem b → Apart a.1 a.2.toNat b headerSize

/-- There is room for the request of `kmalloc`: the free block it would reuse
reaches to the next header, or else the place for a new header lies behind the
data of every listed block, or far enough before its header. -/
structure KmallocFits (r : HeapRun) (sz : U64) : Prop where
  heap_private : HeapPrivate r.heap
  reused : r.heap.memAllocated + sz < kheapLimit →
    ∀ b, FirstFree r.heap.vm.mem b → b.toNat + headerSize + sz.toNat ≤ 2 ^ 64 ∧
      ∀ c, Listed r.heap.vm.mem c → b.toNat < c.toNat →
        b.toNat + headerSize + sz.toNat ≤ c.toNat
  appended : r.heap.memAllocated + sz < kheapLimit →
    (∀ b, Listed r.heap.vm.mem b → Block.isFree r.heap.vm.mem b = 0#8) →
    (kheapStart + r.heap.memAllocated + sz).toNat + headerSize + sz.toNat ≤ 2 ^ 64 ∧
      ∀ b size, Listed r.heap.vm.mem b → (Block.dataStart b, size) ∈ r.live →
        b.toNat + headerSize + size.toNat ≤
            (kheapStart + r.heap.memAllocated + sz).toNat ∨
          (kheapStart + r.heap.memAllocated + sz).toNat + headerSize + sz.toNat ≤
            b.toNat

def HeapOp.Fits (r : HeapRun) : HeapOp → Prop
  | .kmalloc sz => KmallocFits r sz
  | .kfree _ => True

/-- **What the layout is for.** Live allocations share no byte. -/
theorem Layout.allocationsApart {s : Kheap} {blocks : List U64}
    {live : List (U64 × U64)} (h : Layout s.vm.mem blocks live) :
    AllocationsApart ⟨s, live⟩ := by
  constructor
  · refine (List.Nodup.of_map _ h.live_nodup).pairwise_of_forall_ne ?_
    rintro ⟨p, sz⟩ hp ⟨p', sz'⟩ hp' hne
    obtain ⟨b, hb, rfl, -, hfit, hnext⟩ := h.live_block p sz hp
    obtain ⟨c, hc, rfl, -, hfit', hnext'⟩ := h.live_block p' sz' hp'
    have hbc : b ≠ c := by
      rintro rfl
      exact hne (List.inj_on_of_nodup_map h.live_nodup hp hp' rfl)
    have hb' := toNat_dataStart (h.region b hb).2
    have hc' := toNat_dataStart (h.region c hc).2
    show Apart (Block.dataStart b) sz.toNat (Block.dataStart c) sz'.toNat
    have hpos : 0 < headerSize := by decide
    rcases h.headersApart hb hc hbc with hle | hle
    · have := hnext c hc (by omega)
      exact apart_of_le (by omega) (by omega)
    · have := hnext' b hb (by omega)
      exact (apart_of_le (by omega) (by omega)).symm
  · rintro ⟨p, sz⟩ hp c hc
    obtain ⟨b, hb, rfl, -, hfit, hnext⟩ := h.live_block p sz hp
    have hc := h.chain.listed_iff.mp hc
    have hb' := toNat_dataStart (h.region b hb).2
    have htop := (h.region c hc).2
    show Apart (Block.dataStart b) sz.toNat c headerSize
    have hpos : 0 < headerSize := by decide
    have h64 : heapTop ≤ 2 ^ 64 := by decide
    by_cases hbc : b = c
    · subst hbc
      exact (apart_of_le (by omega) (by omega)).symm
    · rcases h.headersApart hb hc hbc with hle | hle
      · have := hnext c hc (by omega)
        exact apart_of_le (by omega) (by omega)
      · exact (apart_of_le (by omega) (by omega)).symm

theorem Layout.roomFor {r : HeapRun} {blocks : List U64} {sz : U64}
    (h : Layout r.heap.vm.mem blocks r.live) (hfits : KmallocFits r sz)
    (hlimit : r.heap.memAllocated + sz < kheapLimit)
    (hbusy : ∀ b ∈ blocks, Block.isFree r.heap.vm.mem b = 0#8) :
    RoomFor blocks r.live (kheapStart + r.heap.memAllocated + sz) sz := by
  obtain ⟨hwrap, hclear⟩ := hfits.appended hlimit fun b hb =>
    hbusy b (h.chain.listed_iff.mp hb)
  exact ⟨toNat_newHeader hlimit, hwrap,
    fun b hb size hlive => hclear b size (h.chain.listed_iff.mpr hb) hlive⟩

/-- **One `kmalloc` that fits** keeps the layout. -/
theorem Layout.kmalloc {r : HeapRun} {blocks : List U64} {sz p : U64} {s' : Kheap}
    (h : Layout r.heap.vm.mem blocks r.live) (hfits : KmallocFits r sz)
    (hcall : Kmallocs r.heap sz p s') :
    ∃ blocks', Layout s'.vm.mem blocks'
      (if p = 0#64 then r.live else (p, sz) :: r.live) := by
  obtain ⟨vm, hvm, halloc⟩ := hcall.allocates
  have hbytes := hfits.heap_private vm hvm
  have hvm' : Layout vm.mem blocks r.live := h.congr hbytes
  have hfree : ∀ b ∈ blocks,
      Block.isFree vm.mem b = Block.isFree r.heap.vm.mem b :=
    fun b hb => isFree_congr fun x hx => hbytes x (h.heapByte hb hx)
  cases halloc with
  | rejected => exact ⟨blocks, hvm'⟩
  | @reused fuel hole prev hlimit hloop hne =>
      rcases firstFitLoop_spec hvm'.chain hloop with ⟨hz, -⟩ | ⟨-, before, after, rfl,
        hbusy, hhole⟩
      · exact absurd hz hne
      · have hmem : hole ∈ before ++ hole :: after := by simp
        rw [if_neg (h.dataStart_ne_zero hmem)]
        refine ⟨_, hvm'.reuse hmem hhole ?_⟩
        have hfirst : FirstFree r.heap.vm.mem hole := by
          refine ⟨before, after, h.chain, fun c hc => ?_, ?_⟩
          · rw [← hfree c (List.mem_append_left _ hc)]
            exact hbusy c hc
          · rw [← hfree hole hmem]
            exact hhole
        obtain ⟨hwrap, hnext⟩ := hfits.reused hlimit hole hfirst
        exact ⟨hwrap, fun c hc => hnext c (h.chain.listed_iff.mpr hc)⟩
  | @lost fuel prev hlimit hloop _ hnone =>
      obtain ⟨l, rfl, hbusy⟩ := hvm'.chain.search_end hloop
      have hroom := h.roomFor hfits hlimit fun b hb => by rw [← hfree b hb, hbusy b hb]
      have hpn := hvm'.apart_of_roomFor hbusy hroom prev (by simp)
      rw [Vm.next_appendBlock_prev hpn] at hnone
      exact absurd hnone hroom.ne_zero
  | @appended fuel prev hole hlimit hloop _ hhole hne =>
      obtain ⟨l, rfl, hbusy⟩ := hvm'.chain.search_end hloop
      have hroom := h.roomFor hfits hlimit fun b hb => by rw [← hfree b hb, hbusy b hb]
      have hpn := hvm'.apart_of_roomFor hbusy hroom prev (by simp)
      rw [Vm.next_appendBlock_prev hpn] at hhole
      subst hhole
      have happ := hvm'.append hbusy hroom
      rw [if_neg (happ.dataStart_ne_zero (by simp))]
      exact ⟨_, happ⟩

/-- **One step that fits** keeps the layout. -/
theorem HeapStep.layout {r r' : HeapRun} {op : HeapOp}
    (hstep : HeapStep r op r') (hfits : op.Fits r)
    (h : ∃ blocks, Layout r.heap.vm.mem blocks r.live) :
    ∃ blocks, Layout r'.heap.vm.mem blocks r'.live := by
  obtain ⟨blocks, h⟩ := h
  cases hstep with
  | kmalloc hcall => exact h.kmalloc hfits hcall
  | @kfree p sz s' hlive hcall =>
      obtain ⟨b, hb, rfl, -, -⟩ := h.live_block p sz hlive
      obtain rfl := kfree_ok hcall
      rw [blk_dataStart]
      exact ⟨blocks, h.free hb hlive⟩

/-- **Allocations that fit never overlap.** In every run of `kmalloc` and of
`kfree` on live pointers over zeroed heap memory, each `kmalloc` fitting where it
is made, live allocations share no byte with each other or with a listed header,
in every state reached. -/
theorem allocationsApart_of_fits {s s₀ : Kheap} {r : HeapRun} {ops : List HeapOp}
    (hzero : ∀ x, HeapByte x → s.vm.mem x = 0#8)
    (hprivate : ∀ vm, MapsPage s.vm kheapStart kheapFlags vm →
      ∀ x, HeapByte x → vm.mem x = s.vm.mem x)
    (hinit : KheapInits s s₀)
    (hrun : Run (Guarded HeapOp.Fits HeapStep) ⟨s₀, []⟩ ops r) :
    AllocationsApart r := by
  obtain ⟨blocks, h⟩ := hrun.guarded_invariant
    (P := fun r => ∃ blocks, Layout r.heap.vm.mem blocks r.live)
    ⟨[kheapStart], hinit.layout hzero hprivate⟩
    fun r op r' h hfits hstep => hstep.layout hfits h
  exact h.allocationsApart

/-! A heap over tables at `0x80000000` that map the first page to itself. -/

def lowPageVm : Vm :=
  let s : Vm := { emptyVm with pml4 := 0x80000000#64, cr3 := 0x80000000#64 }
  (((s.setEntry 0x80000000#64 0 0x80001003#64).setEntry 0x80001000#64 0
    0x80002003#64).setEntry 0x80002000#64 0 0x80003003#64).setEntry 0x80003000#64 0 0x3#64

def lowPageHeap : Kheap where
  vm := (((lowPageVm.setNext kheapStart 0#64).setIsFree kheapStart 1#8).setSize
    kheapStart 0#64).setMagic kheapStart kheapMagic
  memAllocated := 0#64

theorem lowPageVm_mapped : (lowPageVm.translate (pageOf kheapStart)).isSome := by
  decide +kernel

theorem lowPageVm_zero (x : U64) (hx : HeapByte x) : lowPageVm.mem x = 0#8 := by
  have hfar : ∀ t : U64, PageAligned t → 0x80000000 ≤ t.toNat → ¬ Within t pageSize x := by
    intro t ht hle hw
    rw [within_frame ht] at hw
    have hlt := hx.2
    rw [heapTop, headerSize] at hlt
    omega
  rw [lowPageVm, Vm.mem_setEntry _ (by decide) _ _ (hfar _ (by decide) (by decide)),
    Vm.mem_setEntry _ (by decide) _ _ (hfar _ (by decide) (by decide)),
    Vm.mem_setEntry _ (by decide) _ _ (hfar _ (by decide) (by decide)),
    Vm.mem_setEntry _ (by decide) _ _ (hfar _ (by decide) (by decide))]
  rfl

theorem lowPageVm_private (vm : Vm) (h : MapsPage lowPageVm kheapStart kheapFlags vm)
    (x : U64) (_ : HeapByte x) : vm.mem x = lowPageVm.mem x := by
  rw [h.of_mapped lowPageVm_mapped]

theorem lowPageHeap_inits : KheapInits ⟨lowPageVm, 0#64⟩ lowPageHeap :=
  ⟨1, by rw [kheapInit, mapPage_of_mapped lowPageVm_mapped]; rfl⟩

theorem HeapPrivate.of_mapped {s : Kheap}
    (h : (s.vm.translate (pageOf (kheapStart + s.memAllocated))).isSome) :
    HeapPrivate s := by
  intro vm hvm x _
  rw [hvm.of_mapped h]

theorem lowPageHeap_private : HeapPrivate lowPageHeap := .of_mapped (by decide +kernel)

/-- Two requests of 16 and 45 bytes: the second header starts where the first
data ended or later. -/
theorem allocationsApart_of_fits_lowPageHeap : ∃ s₂ : Kheap,
    Run HeapStep ⟨lowPageHeap, []⟩ [.kmalloc 16#64, .kmalloc 45#64]
      ⟨s₂, [(0x55a#64, 45#64), (0x51d#64, 16#64)]⟩ ∧
    AllocationsApart ⟨s₂, [(0x55a#64, 45#64), (0x51d#64, 16#64)]⟩ := by
  have hrun : (kmalloc 2 lowPageHeap 16#64).bind (fun r₁ =>
      (kmalloc 3 r₁.2 45#64).map fun r₂ => ((r₁.1, r₂.1, r₁.2.memAllocated),
        (Block.isFree r₁.2.vm.mem kheapStart, Block.next r₁.2.vm.mem kheapStart),
        (r₁.2.vm.translate (pageOf (kheapStart + r₁.2.memAllocated))).isSome)) =
      some ((0x51d#64, 0x55a#64, 16#64), (0#8, 0#64), true) := by decide +kernel
  obtain ⟨⟨p, s₁⟩, hcall₁, hrun⟩ := Option.bind_eq_some_iff.mp hrun
  obtain ⟨⟨q, s₂⟩, hcall₂, heq⟩ := Option.map_eq_some_iff.mp hrun
  simp only [Prod.mk.injEq] at heq
  obtain ⟨⟨rfl, rfl, hm⟩, ⟨hbusy, hnext⟩, hmapped⟩ := heq
  have hlayout := lowPageHeap_inits.layout lowPageVm_zero lowPageVm_private
  -- the first request takes the free block, which nothing follows
  have hfits₁ : KmallocFits ⟨lowPageHeap, []⟩ 16#64 := by
    refine ⟨.of_mapped (by decide +kernel), fun _ b hb => ?_, fun _ hall => ?_⟩
    · obtain ⟨before, after, hchain, -, -⟩ := hb
      have hblocks := hlayout.chain.unique hchain
      have hmem : b ∈ [kheapStart] := by rw [hblocks]; simp
      obtain rfl := List.mem_singleton.mp hmem
      refine ⟨by decide, fun c hc hlt => ?_⟩
      obtain rfl := List.mem_singleton.mp (hlayout.chain.listed_iff.mp hc)
      exact absurd hlt (Nat.lt_irrefl _)
    · have := hall kheapStart (hlayout.chain.listed_iff.mpr (List.mem_singleton_self _))
      exact absurd this (by decide +kernel)
  have hchain₁ : BlockList s₁.vm.mem [kheapStart] := blockList_one hnext
  -- the second one is put behind its data
  have hfits₂ : KmallocFits ⟨s₁, [(0x51d#64, 16#64)]⟩ 45#64 := by
    refine ⟨.of_mapped hmapped, fun _ b hb => ?_, fun _ _ => ?_⟩
    · obtain ⟨before, after, hchain, -, hfree⟩ := hb
      have hmem : b ∈ [kheapStart] := by rw [hchain₁.unique hchain]; simp
      obtain rfl := List.mem_singleton.mp hmem
      exact absurd hbusy hfree
    · simp only [hm]
      refine ⟨by decide, fun b size hb hlive => ?_⟩
      obtain rfl := List.mem_singleton.mp (hchain₁.listed_iff.mp hb)
      obtain ⟨-, rfl⟩ := Prod.mk.inj (List.mem_singleton.mp hlive)
      exact Or.inl (by decide)
  have hstep₁ : HeapStep ⟨lowPageHeap, []⟩ (.kmalloc 16#64) ⟨s₁, [(0x51d#64, 16#64)]⟩ :=
    .kmalloc_of_ne ⟨2, hcall₁⟩ (by decide)
  have hstep₂ : HeapStep ⟨s₁, [(0x51d#64, 16#64)]⟩ (.kmalloc 45#64)
      ⟨s₂, [(0x55a#64, 45#64), (0x51d#64, 16#64)]⟩ :=
    .kmalloc_of_ne ⟨3, hcall₂⟩ (by decide)
  have hguard₁ : Guarded HeapOp.Fits HeapStep ⟨lowPageHeap, []⟩ (.kmalloc 16#64) _ :=
    ⟨hfits₁, hstep₁⟩
  have hguard₂ : Guarded HeapOp.Fits HeapStep ⟨s₁, [(0x51d#64, 16#64)]⟩
      (.kmalloc 45#64) _ := ⟨hfits₂, hstep₂⟩
  exact ⟨s₂, (Run.start.snoc hstep₁).snoc hstep₂,
    allocationsApart_of_fits lowPageVm_zero lowPageVm_private lowPageHeap_inits
      ((Run.start.snoc hguard₁).snoc hguard₂)⟩

theorem lowPageHeap_privateRun {op₁ op₂ : HeapOp} {r₁ r₂ : HeapRun}
    (hstep₁ : HeapStep ⟨lowPageHeap, []⟩ op₁ r₁)
    (hmapped : (r₁.heap.vm.translate (pageOf (kheapStart + r₁.heap.memAllocated))).isSome)
    (hstep₂ : HeapStep r₁ op₂ r₂) :
    Run (Guarded (fun r _ => HeapPrivate r.heap) HeapStep) ⟨lowPageHeap, []⟩ [op₁, op₂] r₂ := by
  have hguard₁ : Guarded (fun r _ => HeapPrivate r.heap) HeapStep _ _ _ :=
    ⟨lowPageHeap_private, hstep₁⟩
  have hguard₂ : Guarded (fun r _ => HeapPrivate r.heap) HeapStep _ _ _ :=
    ⟨.of_mapped hmapped, hstep₂⟩
  exact (Run.start.snoc hguard₁).snoc hguard₂

/-- Two requests of 16 and 24 bytes: the second header overwrites the end of the
first allocation. -/
theorem lowPageHeap_overlap :
    ¬ ∀ (s s₀ : Kheap) (r : HeapRun) (ops : List HeapOp),
      (∀ x, HeapByte x → s.vm.mem x = 0#8) → KheapInits s s₀ →
      Run (Guarded (fun r _ => HeapPrivate r.heap) HeapStep) ⟨s₀, []⟩ ops r →
      AllocationsApart r := by
  intro hclaim
  have hrun : (kmalloc 2 lowPageHeap 16#64).bind (fun r₁ =>
      (kmalloc 3 r₁.2 24#64).map fun r₂ =>
        (r₁.1, r₂.1, Block.next r₂.2.vm.mem kheapStart,
          (r₁.2.vm.translate (pageOf (kheapStart + r₁.2.memAllocated))).isSome)) =
      some (0x51d#64, 0x545#64, 0x528#64, true) := by decide +kernel
  obtain ⟨⟨p, s₁⟩, hcall₁, hrun⟩ := Option.bind_eq_some_iff.mp hrun
  obtain ⟨⟨q, s₂⟩, hcall₂, heq⟩ := Option.map_eq_some_iff.mp hrun
  simp only [Prod.mk.injEq] at heq
  obtain ⟨rfl, rfl, hnext, hmapped⟩ := heq
  have hstep₁ : HeapStep ⟨lowPageHeap, []⟩ (.kmalloc 16#64) ⟨s₁, [(0x51d#64, 16#64)]⟩ :=
    .kmalloc_of_ne ⟨2, hcall₁⟩ (by decide)
  have hstep₂ : HeapStep ⟨s₁, [(0x51d#64, 16#64)]⟩ (.kmalloc 24#64)
      ⟨s₂, [(0x545#64, 24#64), (0x51d#64, 16#64)]⟩ :=
    .kmalloc_of_ne ⟨3, hcall₂⟩ (by decide)
  have hapart := hclaim _ _ _ _ lowPageVm_zero lowPageHeap_inits
    (lowPageHeap_privateRun hstep₁ hmapped hstep₂)
  have hlisted : Listed s₂.vm.mem 0x528#64 := by
    rw [← hnext]
    exact .next (.head (by decide)) (by rw [hnext]; decide)
  have hheader := hapart.2 (0x51d#64, 16#64) (by simp) 0x528#64 hlisted
  exact hheader 0x528#64 (by decide) (by decide)

end FacelessOS
