import FacelessOS.Memory.HeapLog

/-!
# The heap limit

`first_fit` compares `mem_allocated + size` with the limit. That sum may wrap, it counts
no header, and it says nothing about the block that is returned: a reused one lies where
it was put, and a new one begins only behind the sum, `size` bytes too late. So a request
respects the limit exactly where that block happens to end in time
(`limitRespected_iff`).
-/

namespace FacelessOS

open ByteStore LinkedList Runs

/-- This call of `map_page` returns and the limit check passes. -/
def PassesCheck (s : Kheap) (sz : U64) : Prop :=
  (∃ vm, MapsHeap s vm) ∧ s.memAllocated + sz < kheapLimit

/-- What the limit is for. The sums of the two limit checks do not wrap, nor does the
address of a new block, which is computed where the first one passes; a call that returns
`NULL` leaves `mem_allocated` and the headers; and any other returns a block that begins
and ends in the heap. -/
structure LimitRespected (s : Kheap) (sz : U64) : Prop where
  check : s.memAllocated.toNat + sz.toNat < 2 ^ 64
  endCheck : ∀ b, Listed s.vm.mem b → b.toNat + (sizeofBlock * sizeofBlock).toNat < 2 ^ 64
  address : s.memAllocated + sz < kheapLimit →
    kheapStart.toNat + s.memAllocated.toNat + sz.toNat < 2 ^ 64
  null : ∀ s', Kmallocs s sz 0#64 s' → s'.memAllocated = s.memAllocated ∧
    ∀ b, Listed s.vm.mem b → ∀ x, Within b headerSize x → s'.vm.mem x = s.vm.mem x
  block : ∀ p s', Kmallocs s sz p s' → p ≠ 0#64 → kheapStart.toNat ≤ (blockOf p).toNat ∧
    (blockOf p).toNat + headerSize + sz.toNat ≤ kheapStart.toNat + kheapLimit.toNat

/-- The sum does not wrap; and if the check passes, the first free block has `sz` bytes up
to the limit, or the new one, which begins behind the sum, has. -/
structure WithinLimit (s : Kheap) (sz : U64) : Prop where
  sum : s.memAllocated.toNat + sz.toNat < 2 ^ 64
  reused : PassesCheck s sz → ∀ b, FindsFree s.vm.mem kheapStart b →
    b.toNat + headerSize + sz.toNat ≤ kheapStart.toNat + kheapLimit.toNat
  placed : PassesCheck s sz → (∀ b, ¬ FindsFree s.vm.mem kheapStart b) → LastIn s.vm.mem →
    s.memAllocated.toNat + 2 * sz.toNat + headerSize ≤ kheapLimit.toNat

/-! ## What a `kmalloc` that keeps the block list returns -/

/-- `NULL` and nothing changed, the first free block, or a new one. -/
inductive Returns (s : Kheap) (sz : U64) : U64 → Kheap → Prop where
  | null {s' : Kheap} : s'.memAllocated = s.memAllocated →
      (∀ b, Listed s.vm.mem b → ∀ x, Within b headerSize x → s'.vm.mem x = s.vm.mem x) →
      Returns s sz 0#64 s'
  | first {s' : Kheap} {b : U64} : PassesCheck s sz → FindsFree s.vm.mem kheapStart b →
      Returns s sz (Block.dataStart b) s'
  | new {s' : Kheap} : PassesCheck s sz → (∀ b, ¬ FindsFree s.vm.mem kheapStart b) →
      LastIn s.vm.mem → Returns s sz (Block.dataStart (kheapStart + s.memAllocated + sz)) s'

theorem KeepsChain.findsFree_iff {s : Kheap} {sz b : U64} {vm : Vm} (h : KeepsChain s sz)
    (hvm : MapsHeap s vm) :
    FindsFree vm.mem kheapStart b ↔ FindsFree s.vm.mem kheapStart b :=
  findsFree_iff_of_headers (h.headers vm hvm)

section Returns

variable {s s' : Kheap} {vm : Vm} {blocks : List U64} {live : List (U64 × U64)} {sz p : U64}

theorem BlockChain.lastIn {l : List U64} {prev : U64}
    (h : BlockChain s.vm.mem (l ++ [prev]) live)
    (hend : prev + sizeofBlock * sizeofBlock ≤ kheapEnd) : LastIn s.vm.mem :=
  ⟨prev, h.chain.listed_iff.mpr (by simp), h.chain.next_last, hend⟩

theorem BlockChain.returns (h : BlockChain s.vm.mem blocks live) (hkeeps : KeepsChain s sz)
    (hcall : Kmallocs s sz p s') : Returns s sz p s' := by
  obtain ⟨vm, hvm, halloc⟩ := hcall.allocates
  have hnone : ∀ {fuel prev}, firstFitLoop vm.mem fuel kheapStart 0#64 = some (0#64, prev) →
      ∀ b, ¬ FindsFree s.vm.mem kheapStart b := fun hloop b hb =>
    (firstFitLoop_findsFree hloop).2 rfl b ((hkeeps.findsFree_iff hvm).mpr hb)
  cases halloc with
  | rejected => exact .null rfl (hkeeps.headers vm hvm)
  | @reused fuel hole prev hlimit hloop hne =>
      exact .first ⟨⟨vm, hvm⟩, hlimit⟩
        ((hkeeps.findsFree_iff hvm).mp ((firstFitLoop_findsFree hloop).1 hne))
  | @lost fuel prev hlimit hloop hend hnull =>
      obtain ⟨l, rfl, hapart, -⟩ := h.room hkeeps hvm hlimit hloop hend
      rw [Vm.next_appendBlock_prev (hapart prev (by simp))] at hnull
      exact absurd hnull (newHeader_ne_zero hlimit)
  | @appended fuel prev hole hlimit hloop hend hhole _ =>
      obtain ⟨l, rfl, hapart, -⟩ := h.room hkeeps hvm hlimit hloop hend
      rw [Vm.next_appendBlock_prev (hapart prev (by simp))] at hhole
      subst hhole
      exact .new ⟨⟨vm, hvm⟩, hlimit⟩ (hnone hloop) (h.lastIn hend)

theorem KeepsChain.kmalloc_first_free {b : U64} (hkeeps : KeepsChain s sz)
    (hpass : PassesCheck s sz) (hfind : FindsFree s.vm.mem kheapStart b) :
    ∃ s', Kmallocs s sz (Block.dataStart b) s' := by
  obtain ⟨⟨vm, hvm⟩, hlimit⟩ := hpass
  exact ⟨_, kmalloc_reuses hvm hlimit ((hkeeps.findsFree_iff hvm).mpr hfind)⟩

theorem BlockChain.kmalloc_new (h : BlockChain s.vm.mem blocks live)
    (hkeeps : KeepsChain s sz) (hpass : PassesCheck s sz)
    (hnone : ∀ b, ¬ FindsFree s.vm.mem kheapStart b) (hlast : LastIn s.vm.mem) :
    ∃ s', Kmallocs s sz (Block.dataStart (kheapStart + s.memAllocated + sz)) s' := by
  obtain ⟨⟨vm, hvm⟩, hlimit⟩ := hpass
  have hvm' := h.mapPage hkeeps hvm
  obtain ⟨fuel, ⟨c, prev⟩, hloop⟩ := firstFitLoop_returns hvm'.chain 0#64
  obtain rfl : c = 0#64 := by
    by_contra hne
    exact hnone c ((hkeeps.findsFree_iff hvm).mp ((firstFitLoop_findsFree hloop).1 hne))
  have hend : prev + sizeofBlock * sizeofBlock ≤ kheapEnd := by
    obtain ⟨l, rfl, -⟩ := hvm'.chain.search_end hloop
    obtain ⟨last, hlisted, hnext, hend⟩ := hlast
    rwa [← h.chain.eq_last (h.chain.listed_iff.mp hlisted) hnext]
  obtain ⟨l, rfl, hapart, -⟩ := h.room hkeeps hvm hlimit hloop hend
  have hhole : Block.next
      (vm.appendBlock prev (kheapStart + s.memAllocated + sz) sz).mem prev = _ :=
    Vm.next_appendBlock_prev (hapart prev (by simp))
  exact ⟨_, kmalloc_appends hvm hlimit hloop hend hhole (newHeader_ne_zero hlimit)⟩

end Returns

/-! ## The limit -/

theorem InHeap.dataStart_ne_zero {b : U64} (h : InHeap b) : Block.dataStart b ≠ 0#64 := by
  intro hzero
  have hdata := toNat_dataStart h.2
  have hpos : 0 < headerSize := by decide
  rw [hzero, BitVec.toNat_ofNat, Nat.zero_mod] at hdata
  omega

/-- A sum that passes the check without wrapping is below the limit, and so is the place
for the new block. -/
theorem newHeader_of_sum {m sz : U64} (hsum : m.toNat + sz.toNat < 2 ^ 64)
    (hlimit : m + sz < kheapLimit) : m.toNat + sz.toNat < kheapLimit.toNat ∧
      (kheapStart + m + sz).toNat = kheapStart.toNat + m.toNat + sz.toNat := by
  have hlt : (m + sz).toNat < kheapLimit.toNat := hlimit
  have hsmall : kheapStart.toNat + kheapLimit.toNat < 2 ^ 64 := by decide
  have hadd : (m + sz).toNat = m.toNat + sz.toNat := by
    rw [BitVec.toNat_add, Nat.mod_eq_of_lt hsum]
  refine ⟨by omega, ?_⟩
  rw [BitVec.add_assoc, BitVec.toNat_add, hadd, Nat.mod_eq_of_lt (by omega), Nat.add_assoc]

section Limit

variable {s : Kheap} {blocks : List U64} {live : List (U64 × U64)} {sz : U64}

theorem BlockChain.limitRespected (h : BlockChain s.vm.mem blocks live)
    (hin : ∀ b ∈ blocks, InHeap b) (hkeeps : KeepsChain s sz) (hw : WithinLimit s sz) :
    LimitRespected s sz := by
  have hfirst : ∀ b, FindsFree s.vm.mem kheapStart b → InHeap b := fun b hb =>
    hin b (h.chain.listed_iff.mp hb.listed)
  refine ⟨hw.sum, fun b hb => ?_, fun hlimit => ?_, fun s' hcall => ?_,
    fun p s' hcall hp => ?_⟩
  · have htop := (hin b (h.chain.listed_iff.mp hb)).2
    have hsmall : heapTop + (sizeofBlock * sizeofBlock).toNat < 2 ^ 64 := by decide
    omega
  · have hlt := (newHeader_of_sum hw.sum hlimit).1
    have hsmall : kheapStart.toNat + kheapLimit.toNat < 2 ^ 64 := by decide
    omega
  · have hret := h.returns hkeeps hcall
    generalize hp : 0#64 = p at hret
    cases hret with
    | null hm hheaders => exact ⟨hm, hheaders⟩
    | @first _ b _ hfind => exact absurd hp.symm (hfirst b hfind).dataStart_ne_zero
    | new hpass _ _ =>
        have hnew : InHeap _ := toNat_newHeader hpass.2
        exact absurd hp.symm hnew.dataStart_ne_zero
  · cases h.returns hkeeps hcall with
    | null _ _ => exact absurd rfl hp
    | @first _ b hpass hfind =>
        rw [blockOf_dataStart]
        exact ⟨(hfirst b hfind).1, hw.reused hpass b hfind⟩
    | new hpass hnone hlast =>
        have hnew := (newHeader_of_sum hw.sum hpass.2).2
        have hroom := hw.placed hpass hnone hlast
        rw [blockOf_dataStart, hnew]
        exact ⟨by omega, by omega⟩

theorem BlockChain.withinLimit (h : BlockChain s.vm.mem blocks live)
    (hin : ∀ b ∈ blocks, InHeap b) (hkeeps : KeepsChain s sz) (hl : LimitRespected s sz) :
    WithinLimit s sz := by
  refine ⟨hl.check, fun hpass b hfind => ?_, fun hpass hnone hlast => ?_⟩
  · obtain ⟨s', hcall⟩ := hkeeps.kmalloc_first_free hpass hfind
    have hb := hin b (h.chain.listed_iff.mp hfind.listed)
    have hend := (hl.block _ _ hcall hb.dataStart_ne_zero).2
    rwa [blockOf_dataStart] at hend
  · obtain ⟨s', hcall⟩ := h.kmalloc_new hkeeps hpass hnone hlast
    have hb : InHeap _ := toNat_newHeader hpass.2
    have hend := (hl.block _ _ hcall hb.dataStart_ne_zero).2
    rw [blockOf_dataStart, (newHeader_of_sum hl.check hpass.2).2] at hend
    omega

end Limit

/-- **The limit is respected where the block happens to end in time.** In every run after
`kheap_init` whose steps keep the block list, the next `kmalloc` that keeps it does what
the limit is for if and only if its sum does not wrap and the block it gets, found or
made, ends before the limit. -/
theorem limitRespected_iff {s s₀ : Kheap} {r : HeapRun} {ops : List HeapOp} {sz : U64}
    (hinit : KheapInits s s₀)
    (hrun : Run (Guarded HeapOp.KeepsChain HeapStep) ⟨s₀, []⟩ ops r)
    (hkeeps : KeepsChain r.heap sz) : LimitRespected r.heap sz ↔ WithinLimit r.heap sz := by
  have hstart : InHeap kheapStart := ⟨Nat.le_refl _, by decide⟩
  obtain ⟨blocks, h, hin⟩ := hrun.guarded_invariant
    (P := fun r => ∃ blocks, BlockChain r.heap.vm.mem blocks r.live ∧ ∀ b ∈ blocks, InHeap b)
    ⟨[kheapStart], hinit.blockChain, by simpa using hstart⟩
    fun r op r' ⟨blocks, h, hin⟩ hkeeps hstep => by
      obtain ⟨blocks', h', hnew⟩ := h.step hkeeps hstep
      exact ⟨blocks', h', fun b hb => (hnew b hb).elim (hin b) id⟩
  exact ⟨h.withinLimit hin hkeeps, h.limitRespected hin hkeeps⟩

theorem limitRespected_iff_lowPageHeap : LimitRespected lowPageHeap 16#64 := by
  refine (limitRespected_iff lowPageHeap_inits .start (lowPageHeap_keepsChain 16#64)).mpr
    ⟨by decide, fun _ b hfind => ?_, fun _ hnone => ?_⟩
  · cases hfind with
    | here _ _ => decide
    | skip _ hbusy _ => exact absurd hbusy (by decide +kernel)
  · exact absurd (.here (by decide) (by decide +kernel)) (hnone kheapStart)

/-- After 16 bytes, 2^64 - 1 more: the sum is 15, and a block is put where the first one
is. -/
theorem busyHeap_unlimited :
    ¬ ∀ (s s₀ : Kheap) (r : HeapRun) (ops : List HeapOp) (sz : U64),
      (∀ x, HeapByte x → s.vm.mem x = 0#8) → s.memAllocated = 0#64 → KheapInits s s₀ →
      Run (Guarded (fun r _ => HeapPrivate r.heap) HeapStep) ⟨s₀, []⟩ ops r →
      LimitRespected r.heap sz := by
  intro hclaim
  have hstep : HeapStep ⟨lowPageHeap, []⟩ (.kmalloc 16#64) ⟨busyHeap, [(0x51d#64, 16#64)]⟩ :=
    .kmalloc_of_ne lowPageHeap_kmalloc (by decide)
  have hguard : Guarded (fun r _ => HeapPrivate r.heap) HeapStep _ _ _ :=
    ⟨lowPageHeap_private, hstep⟩
  have hlimit := hclaim _ _ _ _ 0xFFFFFFFFFFFFFFFF#64 lowPageVm_zero rfl lowPageHeap_inits
    (Run.start.snoc hguard)
  have hrun : (kmalloc 3 busyHeap 0xFFFFFFFFFFFFFFFF#64).map Prod.fst = some 0x52c#64 := by
    decide +kernel
  obtain ⟨⟨p, s'⟩, hcall, rfl⟩ := Option.map_eq_some_iff.mp hrun
  have hend := (hlimit.block _ _ ⟨3, hcall⟩ (by decide)).2
  exact absurd hend (by decide)

end FacelessOS
