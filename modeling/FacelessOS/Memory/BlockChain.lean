import FacelessOS.Memory.KheapRuns

/-!
# The block list

`first_fit` follows `next` from `kheap[0]` until it finds a free block or `NULL`, and it
stores no `next` into a block that it makes. The place of that block comes from a counter
that also goes down. So the list stays a list exactly as long as each new block is put
clear of the headers that are there, and over a `next` that is `NULL` already
(`finiteBlockList_of_room`).
-/

namespace FacelessOS

open ByteStore LinkedList Runs

/-- The list from `kheap[0]` ends, visits no block twice and only blocks with the magic
number, and the search over it returns. -/
def FiniteBlockList (m : Store 64) : Prop :=
  ∃ blocks, BlockList m blocks ∧ blocks.Nodup ∧
    (∀ b ∈ blocks, Block.magic m b = kheapMagic) ∧
    ∃ fuel out, firstFitLoop m fuel kheapStart 0#64 = some out

/-- This call of `kmalloc` keeps the list. The call of `map_page` it makes keeps the
headers; and if every block is in use and the last one is not too close to the end, the
place for a new header shares no byte with one that is there and holds no `next`. -/
structure KeepsChain (s : Kheap) (sz : U64) : Prop where
  headers : ∀ vm, MapsPage s.vm (kheapStart + s.memAllocated) kheapFlags vm →
    ∀ b, Listed s.vm.mem b → ∀ x, Within b headerSize x → vm.mem x = s.vm.mem x
  place : s.memAllocated + sz < kheapLimit →
    (∀ b, Listed s.vm.mem b → Block.isFree s.vm.mem b = 0#8) →
    ∀ last, Listed s.vm.mem last → Block.next s.vm.mem last = 0#64 →
      last + sizeofBlock * sizeofBlock ≤ kheapEnd →
      (∀ b, Listed s.vm.mem b →
        Apart b headerSize (kheapStart + s.memAllocated + sz) headerSize) ∧
      ∀ vm, MapsPage s.vm (kheapStart + s.memAllocated) kheapFlags vm →
        Block.next vm.mem (kheapStart + s.memAllocated + sz) = 0#64

def HeapOp.KeepsChain (r : HeapRun) : HeapOp → Prop
  | .kmalloc sz => FacelessOS.KeepsChain r.heap sz
  | .kfree _ => True

/-! ## The invariant -/

/-- The list is spelled out, its headers share no byte and have the magic number, and the
live allocations belong to its blocks. -/
structure BlockChain (m : Store 64) (blocks : List U64) (live : List (U64 × U64)) :
    Prop where
  chain : BlockList m blocks
  apart : blocks.Pairwise fun b c => Apart b headerSize c headerSize
  magic : ∀ b ∈ blocks, Block.magic m b = kheapMagic
  live_block : ∀ p sz, (p, sz) ∈ live → ∃ b ∈ blocks, p = Block.dataStart b

def InHeap (b : U64) : Prop :=
  kheapStart.toNat ≤ b.toNat ∧ b.toNat + headerSize ≤ heapTop

theorem newHeader_ne_zero {m sz : U64} (h : m + sz < kheapLimit) :
    kheapStart + m + sz ≠ 0#64 := by
  intro hzero
  have hlow := (toNat_newHeader h).1
  rw [hzero] at hlow
  exact absurd hlow (by decide)

theorem firstFitLoop_returns {m : Store 64} {current : U64} {l : List U64}
    (h : Chain (Block.next m) 0#64 current l) (prev : U64) :
    ∃ fuel out, firstFitLoop m fuel current prev = some out := by
  induction h generalizing prev with
  | nil => exact ⟨1, _, by rw [firstFitLoop, if_pos rfl]⟩
  | @cons a l ha _ ih =>
      by_cases hbusy : Block.isFree m a = 0#8
      · obtain ⟨fuel, out, hout⟩ := ih a
        exact ⟨fuel + 1, out, by rw [firstFitLoop, if_neg ha, if_pos hbusy, hout]⟩
      · exact ⟨1, _, by rw [firstFitLoop, if_neg ha, if_neg hbusy]⟩

namespace BlockChain

variable {m m' : Store 64} {s : Vm} {blocks : List U64} {live : List (U64 × U64)} {b : U64}

theorem finite (h : BlockChain m blocks live) : FiniteBlockList m :=
  ⟨blocks, h.chain, h.chain.nodup, h.magic, firstFitLoop_returns h.chain 0#64⟩

theorem congr (h : BlockChain m blocks live)
    (heq : ∀ b ∈ blocks, ∀ x, Within b headerSize x → m' x = m x) :
    BlockChain m' blocks live := by
  refine ⟨h.chain.congr fun b hb => next_congr (heq b hb), h.apart, fun b hb => ?_,
    h.live_block⟩
  rw [magic_congr (heq b hb), h.magic b hb]

theorem setIsFree_fields (h : BlockChain s.mem blocks live) (hb : b ∈ blocks) (v : U8) :
    ∀ c ∈ blocks, Block.next (s.setIsFree b v).mem c = Block.next s.mem c ∧
      Block.magic (s.setIsFree b v).mem c = Block.magic s.mem c ∧
      Block.isFree (s.setIsFree b v).mem c = if c = b then v else Block.isFree s.mem c := by
  intro c hc
  have hsymm : Std.Symm fun b c : U64 => Apart b headerSize c headerSize :=
    ⟨fun _ _ hbc => hbc.symm⟩
  exact Vm.fields_setIsFree (fun hcb => h.apart.forall hc hb hcb) v

theorem setIsFree (h : BlockChain s.mem blocks live) (hb : b ∈ blocks) (v : U8) :
    BlockChain (s.setIsFree b v).mem blocks live := by
  have hfields := h.setIsFree_fields hb v
  refine ⟨h.chain.congr fun c hc => (hfields c hc).1, h.apart, fun c hc => ?_,
    h.live_block⟩
  rw [(hfields c hc).2.1, h.magic c hc]

theorem handOut (h : BlockChain m blocks live) (hb : b ∈ blocks) (sz : U64) :
    BlockChain m blocks (if Block.dataStart b = 0#64 then live
      else (Block.dataStart b, sz) :: live) := by
  refine ⟨h.chain, h.apart, h.magic, fun p sz' hp => ?_⟩
  split at hp
  · exact h.live_block p sz' hp
  · rcases List.mem_cons.mp hp with heq | hp
    · exact ⟨b, hb, (Prod.mk.inj heq).1⟩
    · exact h.live_block p sz' hp

theorem append {l : List U64} {prev n : U64} (h : BlockChain s.mem (l ++ [prev]) live)
    (size : U64) (hn : n ≠ 0#64)
    (hapart : ∀ b ∈ l ++ [prev], Apart b headerSize n headerSize)
    (hnext : Block.next s.mem n = 0#64) :
    BlockChain ((s.appendBlock prev n size).setIsFree n 0#8).mem (l ++ [prev] ++ [n])
      live := by
  have hprev : ∀ b ∈ l, Apart b headerSize prev headerSize := fun b hb =>
    (List.pairwise_append.mp h.apart).2.2 b hb prev (List.mem_singleton_self _)
  have hhung := Vm.hungIn (s := s) size hprev hapart
  refine ⟨?_, ?_, ?_, ?_⟩
  · rw [List.append_assoc]
    exact h.chain.snoc hn hhung.next_prev (hhung.next_new.trans hnext) hhung.next_old
  · rw [List.pairwise_append]
    refine ⟨h.apart, List.pairwise_singleton _ _, fun b hb c hc => ?_⟩
    rw [List.mem_singleton.mp hc]
    exact hapart b hb
  · intro b hb
    rcases List.mem_append.mp hb with hb | hb
    · rw [hhung.magic_old b hb, h.magic b hb]
    · rw [List.mem_singleton.mp hb, hhung.magic_new]
  · intro p sz hp
    obtain ⟨b, hb, rfl⟩ := h.live_block p sz hp
    exact ⟨b, List.mem_append_left _ hb, rfl⟩

theorem mapPage {r : Kheap} {sz : U64} {vm : Vm} (h : BlockChain r.vm.mem blocks live)
    (hkeeps : KeepsChain r sz)
    (hvm : MapsPage r.vm (kheapStart + r.memAllocated) kheapFlags vm) :
    BlockChain vm.mem blocks live :=
  h.congr fun b hb => hkeeps.headers vm hvm b (h.chain.listed_iff.mpr hb)

/-- Where the search for a list that is kept finds no free block, the last block is the one
where it ends, and the condition says where the new one goes. -/
theorem room {r : Kheap} {sz prev : U64} {vm : Vm} {fuel : ℕ}
    (h : BlockChain r.vm.mem blocks live) (hkeeps : KeepsChain r sz)
    (hvm : MapsPage r.vm (kheapStart + r.memAllocated) kheapFlags vm)
    (hlimit : r.memAllocated + sz < kheapLimit)
    (hloop : firstFitLoop vm.mem fuel kheapStart 0#64 = some (0#64, prev))
    (hend : prev + sizeofBlock * sizeofBlock ≤ kheapEnd) : ∃ l, blocks = l ++ [prev] ∧
      (∀ b ∈ blocks, Apart b headerSize (kheapStart + r.memAllocated + sz) headerSize) ∧
      Block.next vm.mem (kheapStart + r.memAllocated + sz) = 0#64 := by
  have hlisted : ∀ {b}, b ∈ blocks → Listed r.vm.mem b := h.chain.listed_iff.mpr
  have hbytes := fun b hb => hkeeps.headers vm hvm b (hlisted (b := b) hb)
  have hvm' := h.mapPage hkeeps hvm
  obtain ⟨l, rfl, hbusy⟩ := hvm'.chain.search_end hloop
  have hprev : prev ∈ l ++ [prev] := by simp
  have hallbusy : ∀ b, Listed r.vm.mem b → Block.isFree r.vm.mem b = 0#8 := by
    intro b hb
    have hmem := h.chain.listed_iff.mp hb
    rw [← isFree_congr (hbytes b hmem), hbusy b hmem]
  obtain ⟨hapart, hnext⟩ := hkeeps.place hlimit hallbusy prev (hlisted hprev)
    h.chain.next_last hend
  exact ⟨l, rfl, fun b hb => hapart b (hlisted hb), hnext vm hvm⟩

/-- **One `kmalloc` that keeps the list.** A block that was not there lies in the heap. -/
theorem kmalloc {r : HeapRun} {sz p : U64} {s' : Kheap}
    (h : BlockChain r.heap.vm.mem blocks r.live) (hkeeps : KeepsChain r.heap sz)
    (hcall : Kmallocs r.heap sz p s') : ∃ blocks', BlockChain s'.vm.mem blocks'
      (if p = 0#64 then r.live else (p, sz) :: r.live) ∧
      ∀ b ∈ blocks', b ∈ blocks ∨ InHeap b := by
  obtain ⟨vm, hvm, halloc⟩ := hcall.allocates
  have hvm' := h.mapPage hkeeps hvm
  have hold : ∀ b ∈ blocks, b ∈ blocks ∨ InHeap b := fun b hb => Or.inl hb
  cases halloc with
  | rejected => exact ⟨blocks, hvm', hold⟩
  | @reused fuel hole prev hlimit hloop hhole =>
      rcases firstFitLoop_spec hvm'.chain hloop with ⟨hz, -⟩ | ⟨-, before, after, rfl, -, -⟩
      · exact absurd hz hhole
      · have hmem : hole ∈ before ++ hole :: after := by simp
        exact ⟨_, (hvm'.setIsFree hmem 0#8).handOut hmem sz, hold⟩
  | @lost fuel prev hlimit hloop hend hnone =>
      obtain ⟨l, rfl, hapart, -⟩ := h.room hkeeps hvm hlimit hloop hend
      rw [Vm.next_appendBlock_prev (hapart prev (by simp))] at hnone
      exact absurd hnone (newHeader_ne_zero hlimit)
  | @appended fuel prev hole hlimit hloop hend hhole _ =>
      obtain ⟨l, rfl, hapart, hnext⟩ := h.room hkeeps hvm hlimit hloop hend
      rw [Vm.next_appendBlock_prev (hapart prev (by simp))] at hhole
      subst hhole
      refine ⟨_, (hvm'.append sz (newHeader_ne_zero hlimit) hapart hnext).handOut (by simp) sz,
        fun b hb => ?_⟩
      rcases List.mem_append.mp hb with hb | hb
      · exact Or.inl hb
      · rw [List.mem_singleton.mp hb]
        exact Or.inr (toNat_newHeader hlimit)

/-- **One step that keeps the list.** -/
theorem step {r r' : HeapRun} {op : HeapOp} (h : BlockChain r.heap.vm.mem blocks r.live)
    (hkeeps : op.KeepsChain r) (hstep : HeapStep r op r') :
    ∃ blocks', BlockChain r'.heap.vm.mem blocks' r'.live ∧
      ∀ b ∈ blocks', b ∈ blocks ∨ InHeap b := by
  cases hstep with
  | kmalloc hcall => exact h.kmalloc hkeeps hcall
  | @kfree p sz s' hlive hcall =>
      obtain ⟨b, hb, rfl⟩ := h.live_block p sz hlive
      obtain rfl := kfree_ok hcall
      rw [blk_dataStart]
      obtain ⟨hchain, hapart, hmagic, hblock⟩ := h.setIsFree hb 1#8
      exact ⟨blocks, ⟨hchain, hapart, hmagic, fun p' sz' hp =>
        hblock p' sz' (List.mem_of_mem_erase hp)⟩, fun b hb => Or.inl hb⟩

end BlockChain

theorem KheapInits.blockChain {s s' : Kheap} (h : KheapInits s s') :
    BlockChain s'.vm.mem [kheapStart] [] := by
  obtain ⟨vm, -, hfirst, -⟩ := h.maps
  refine ⟨.cons (by decide) ?_, List.pairwise_singleton _ _, ?_,
    fun p sz hp => absurd hp List.not_mem_nil⟩
  · rw [hfirst.next]
    exact .nil
  · intro b hb
    obtain rfl := List.mem_singleton.mp hb
    exact hfirst.magic

/-- **The block list stays a list where new blocks find room.** Over any initial memory,
in every run after `kheap_init` whose steps meet the condition, the list is finite in
every state reached; and the search of the next `kmalloc` that meets it returns. -/
theorem finiteBlockList_of_room {s s₀ : Kheap} {r : HeapRun} {ops : List HeapOp}
    (hinit : KheapInits s s₀)
    (hrun : Run (Guarded HeapOp.KeepsChain HeapStep) ⟨s₀, []⟩ ops r) :
    FiniteBlockList r.heap.vm.mem ∧ ∀ sz, KeepsChain r.heap sz →
      ∀ vm, MapsPage r.heap.vm (kheapStart + r.heap.memAllocated) kheapFlags vm →
        ∃ fuel out, firstFitLoop vm.mem fuel kheapStart 0#64 = some out := by
  obtain ⟨blocks, h⟩ := hrun.guarded_invariant
    (P := fun r => ∃ blocks, BlockChain r.heap.vm.mem blocks r.live)
    ⟨[kheapStart], hinit.blockChain⟩ fun r op r' ⟨blocks, h⟩ hkeeps hstep => by
      obtain ⟨blocks', h', -⟩ := h.step hkeeps hstep
      exact ⟨blocks', h'⟩
  refine ⟨h.finite, fun sz hkeeps vm hvm => ?_⟩
  exact firstFitLoop_returns (h.mapPage hkeeps hvm).chain 0#64

theorem lowPageHeap_keepsChain (sz : U64) : KeepsChain lowPageHeap sz := by
  refine ⟨fun vm hvm b _ x _ => ?_, fun _ hbusy => ?_⟩
  · rw [hvm.of_mapped (by decide +kernel)]
  · have hfirst := hbusy kheapStart (.head (by decide))
    exact absurd hfirst (by decide +kernel)

/-- Two requests of 16 and 45 bytes: the second block is put behind the first header, over
memory that is still zero. -/
theorem finiteBlockList_of_room_lowPageHeap : ∃ s₂ : Kheap,
    Run HeapStep ⟨lowPageHeap, []⟩ [.kmalloc 16#64, .kmalloc 45#64]
      ⟨s₂, [(0x55a#64, 45#64), (0x51d#64, 16#64)]⟩ ∧ FiniteBlockList s₂.vm.mem := by
  have hrun : (kmalloc 2 lowPageHeap 16#64).bind (fun r₁ =>
      (kmalloc 3 r₁.2 45#64).map fun r₂ => ((r₁.1, r₂.1, r₁.2.memAllocated),
        Block.next r₁.2.vm.mem kheapStart, Block.next r₁.2.vm.mem 0x53d#64,
        (r₁.2.vm.translate (pageOf (kheapStart + r₁.2.memAllocated))).isSome)) =
      some ((0x51d#64, 0x55a#64, 16#64), 0#64, 0#64, true) := by decide +kernel
  obtain ⟨⟨p, s₁⟩, hcall₁, hrun⟩ := Option.bind_eq_some_iff.mp hrun
  obtain ⟨⟨q, s₂⟩, hcall₂, heq⟩ := Option.map_eq_some_iff.mp hrun
  simp only [Prod.mk.injEq] at heq
  obtain ⟨⟨rfl, rfl, hm⟩, hnext, hplace, hmapped⟩ := heq
  have hkeeps₁ : HeapOp.KeepsChain ⟨lowPageHeap, []⟩ (.kmalloc 16#64) :=
    lowPageHeap_keepsChain 16#64
  have hchain₁ : BlockList s₁.vm.mem [kheapStart] := blockList_one hnext
  have hkeeps₂ : HeapOp.KeepsChain ⟨s₁, [(0x51d#64, 16#64)]⟩ (.kmalloc 45#64) := by
    refine ⟨fun vm hvm b _ x _ => ?_, fun _ _ last _ _ _ => ⟨fun b hb => ?_, fun vm hvm => ?_⟩⟩
    · rw [hvm.of_mapped hmapped]
    · rw [List.mem_singleton.mp (hchain₁.listed_iff.mp hb), hm]
      exact apart_of_le (by decide) (by decide)
    · rw [hvm.of_mapped hmapped, hm]
      exact hplace
  have hstep₁ : HeapStep ⟨lowPageHeap, []⟩ (.kmalloc 16#64) ⟨s₁, [(0x51d#64, 16#64)]⟩ :=
    .kmalloc_of_ne ⟨2, hcall₁⟩ (by decide)
  have hstep₂ : HeapStep ⟨s₁, [(0x51d#64, 16#64)]⟩ (.kmalloc 45#64)
      ⟨s₂, [(0x55a#64, 45#64), (0x51d#64, 16#64)]⟩ :=
    .kmalloc_of_ne ⟨3, hcall₂⟩ (by decide)
  have hguard₁ : Guarded HeapOp.KeepsChain HeapStep _ _ _ := ⟨hkeeps₁, hstep₁⟩
  have hguard₂ : Guarded HeapOp.KeepsChain HeapStep _ _ _ := ⟨hkeeps₂, hstep₂⟩
  exact ⟨s₂, (Run.start.snoc hstep₁).snoc hstep₂,
    (finiteBlockList_of_room lowPageHeap_inits
      ((Run.start.snoc hguard₁).snoc hguard₂)).1⟩

/-- Two requests of 0 bytes: the second block is the first one again, behind itself. -/
theorem lowPageHeap_circular :
    ¬ ∀ (s s₀ : Kheap) (r : HeapRun) (ops : List HeapOp), KheapInits s s₀ →
      Run (Guarded (fun r _ => HeapPrivate r.heap) HeapStep) ⟨s₀, []⟩ ops r →
      FiniteBlockList r.heap.vm.mem := by
  intro hclaim
  have hrun : (kmalloc 2 lowPageHeap 0#64).bind (fun r₁ =>
      (kmalloc 3 r₁.2 0#64).map fun r₂ =>
        (r₁.1, r₂.1, Block.next r₂.2.vm.mem kheapStart,
          (r₁.2.vm.translate (pageOf (kheapStart + r₁.2.memAllocated))).isSome)) =
      some (0x51d#64, 0x51d#64, kheapStart, true) := by decide +kernel
  obtain ⟨⟨p, s₁⟩, hcall₁, hrun⟩ := Option.bind_eq_some_iff.mp hrun
  obtain ⟨⟨q, s₂⟩, hcall₂, heq⟩ := Option.map_eq_some_iff.mp hrun
  simp only [Prod.mk.injEq] at heq
  obtain ⟨rfl, rfl, hnext, hmapped⟩ := heq
  have hstep₁ : HeapStep ⟨lowPageHeap, []⟩ (.kmalloc 0#64) ⟨s₁, [(0x51d#64, 0#64)]⟩ :=
    .kmalloc_of_ne ⟨2, hcall₁⟩ (by decide)
  have hstep₂ : HeapStep ⟨s₁, [(0x51d#64, 0#64)]⟩ (.kmalloc 0#64)
      ⟨s₂, [(0x51d#64, 0#64), (0x51d#64, 0#64)]⟩ :=
    .kmalloc_of_ne ⟨3, hcall₂⟩ (by decide)
  obtain ⟨blocks, hchain, hnodup, -⟩ := hclaim _ _ _ _ lowPageHeap_inits
    (lowPageHeap_privateRun hstep₁ hmapped hstep₂)
  -- the first block is its own successor, so it comes twice
  cases hchain with
  | cons _ hrest =>
      rw [hnext] at hrest
      cases hrest with
      | cons _ _ => exact absurd hnodup (by simp)

end FacelessOS
