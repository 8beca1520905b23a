import FacelessOS.Memory.KheapRuns

/-!
# The books of the heap

`kmalloc` adds the size asked for to `mem_allocated`, and `kfree` subtracts the size in
the block's header. That one was written by another call, the one that hung the next
block in, if any was. So the books stay right exactly as long as each block that is freed
has its own size in its header (`kfree_accounted_iff`) and the sum does not wrap
(`kmalloc_accounted_iff`).
-/

namespace FacelessOS

open ByteStore LinkedList Runs

/-- `mem_allocated` is the sum of the sizes that live allocations were asked for with. -/
def Accounted (r : HeapRun) : Prop :=
  r.heap.memAllocated.toNat = (r.live.map fun a => a.2.toNat).sum

/-- The block of a pointer, as `kfree` finds it. -/
def blockOf (p : U64) : U64 := p - sizeofBlock + 1#64

@[simp] theorem blockOf_dataStart (b : U64) : blockOf (Block.dataStart b) = b :=
  blk_dataStart b

/-- The condition on a step. The sum of a `kmalloc` that passes the limit check does not
wrap, and no block is where `data_start` would be `NULL`; a block that is freed has the
size that was asked for in its header. -/
def HeapOp.Accounts (r : HeapRun) : HeapOp → Prop
  | .kmalloc sz =>
      (r.heap.memAllocated + sz < kheapLimit →
        r.heap.memAllocated.toNat + sz.toNat < 2 ^ 64) ∧
      ∀ vm, MapsPage r.heap.vm (kheapStart + r.heap.memAllocated) kheapFlags vm →
        ∀ b, Listed vm.mem b → Block.dataStart b ≠ 0#64
  | .kfree p => ∀ sz, (p, sz) ∈ r.live → Block.size r.heap.vm.mem (blockOf p) = sz

/-! ## Where a new block is -/

theorem magicByte_ne {k : ℕ} (hk : k < 4) :
    BitVec.ofNat 8 (kheapMagic.toNat / 256 ^ k) ≠ 0xFF#8 := by
  have hcases : k = 0 ∨ k = 1 ∨ k = 2 ∨ k = 3 := by omega
  rcases hcases with rfl | rfl | rfl | rfl <;> decide

/-- The pointer to a new block is the one stored, but for bytes of the magic number that
may lie over it. So its data does not start at `NULL`. -/
theorem Vm.dataStart_appendBlock (s : Vm) {prev h : U64} (size : U64)
    (hh : h.toNat < 2 ^ 56) :
    Block.dataStart (Block.next (s.appendBlock prev h size).mem prev) ≠ 0#64 := by
  have htop : (s.appendBlock prev h size).mem (prev + 1#64 + BitVec.ofNat 64 7) ≠ 0xFF#8 := by
    have hoff : prev + 1#64 + BitVec.ofNat 64 7 - (prev + 1#64) = 7#64 := by bv_omega
    have hsize : ¬ Within (prev + 17#64) 8 (prev + 1#64 + BitVec.ofNat 64 7) := by
      unfold Within
      bv_omega
    rw [appendBlock, next_setNext]
    show write (((s.setNext prev h).setMagic h kheapMagic).mem) _ _ _ _ ≠ _
    rw [write_of_not_within hsize]
    show write (s.setNext prev h).mem _ _ _ _ ≠ _
    rw [write]
    split
    · rename_i hmagic
      exact magicByte_ne hmagic
    · show write _ _ _ _ _ ≠ _
      rw [write, if_pos (by rw [Within, hoff]; decide), hoff]
      have hzero : h.toNat / 256 ^ 7 = 0 := Nat.div_eq_of_lt hh
      rw [show (7#64).toNat = 7 from rfl, hzero]
      decide
  intro hnull
  have hnext : Block.next (s.appendBlock prev h size).mem prev = 0xFFFFFFFFFFFFFFE3#64 := by
    unfold Block.dataStart at hnull
    bv_omega
  have hread := congrArg BitVec.toNat hnext
  unfold Block.next load64 at hread
  have hlt := read_lt (s.appendBlock prev h size).mem (prev + 1#64) 7
  have hbyte := ((s.appendBlock prev h size).mem (prev + 1#64 + BitVec.ofNat 64 7)).isLt
  rw [read_succ, BitVec.toNat_ofNat] at hread
  apply htop
  apply BitVec.eq_of_toNat_eq
  norm_num at hread hlt ⊢
  omega

theorem newHeader_lt {m sz : U64} (h : m + sz < kheapLimit) :
    (kheapStart + m + sz).toNat < 2 ^ 56 := by
  have hend := (toNat_newHeader h).2
  rw [heapTop, headerSize] at hend
  omega

/-! ## One step -/

theorem sum_erase {live : List (U64 × U64)} {p sz : U64} (h : (p, sz) ∈ live) :
    (live.map fun a => a.2.toNat).sum =
      sz.toNat + ((live.erase (p, sz)).map fun a => a.2.toNat).sum :=
  ((List.perm_cons_erase h).map _).sum_nat

/-- **One `kfree`** keeps the books right if and only if the header has the size that was
asked for. -/
theorem kfree_accounted_iff {r : HeapRun} {p sz : U64} {s' : Kheap} (h : Accounted r)
    (hlive : (p, sz) ∈ r.live) (hcall : kfree r.heap p = .ok s') :
    Accounted ⟨s', r.live.erase (p, sz)⟩ ↔
      Block.size r.heap.vm.mem (blockOf p) = sz := by
  obtain rfl := kfree_ok hcall
  unfold Accounted at h ⊢
  rw [sum_erase hlive] at h
  simp only [blockOf] at h ⊢
  have hm := r.heap.memAllocated.isLt
  have hs := sz.isLt
  constructor
  · intro heq
    apply BitVec.eq_of_toNat_eq
    rw [BitVec.toNat_sub] at heq
    omega
  · intro heq
    rw [heq, BitVec.toNat_sub]
    omega

/-- **One `kmalloc`** keeps the books right if and only if the sum does not wrap. -/
theorem kmalloc_accounted_iff {r : HeapRun} {sz p : U64} {s' : Kheap} (h : Accounted r)
    (hcall : Kmallocs r.heap sz p s') (hp : p ≠ 0#64) :
    Accounted ⟨s', (p, sz) :: r.live⟩ ↔
      r.heap.memAllocated.toNat + sz.toNat < 2 ^ 64 := by
  obtain ⟨vm, -, halloc⟩ := hcall.allocates
  have hsum : s'.memAllocated = r.heap.memAllocated + sz := by
    cases halloc with
    | rejected => exact absurd rfl hp
    | reused _ _ _ => rfl
    | lost _ _ _ _ => exact absurd rfl hp
    | appended _ _ _ _ _ => rfl
  unfold Accounted at h ⊢
  rw [List.map_cons, List.sum_cons, ← h]
  simp only [hsum, BitVec.toNat_add]
  have hlt := (r.heap.memAllocated + sz).isLt
  rw [BitVec.toNat_add] at hlt
  omega

theorem kmalloc_null {s s' : Kheap} {sz : U64} (hcall : Kmallocs s sz 0#64 s')
    (htop : ∀ vm, MapsPage s.vm (kheapStart + s.memAllocated) kheapFlags vm →
      ∀ b, Listed vm.mem b → Block.dataStart b ≠ 0#64) :
    s'.memAllocated = s.memAllocated := by
  obtain ⟨vm, hvm, halloc⟩ := hcall.allocates
  generalize hp : 0#64 = p at halloc
  cases halloc with
  | rejected => rfl
  | lost _ _ _ _ => rfl
  | @reused fuel hole prev _ hloop hne =>
      exact absurd hp.symm (htop vm hvm hole ((search_listed hloop).1 hne))
  | appended hlimit _ _ hhole _ =>
      subst hhole
      exact absurd hp.symm (vm.dataStart_appendBlock sz (newHeader_lt hlimit))

/-- **One step that meets the condition** keeps the books right. -/
theorem HeapStep.accounted {r r' : HeapRun} {op : HeapOp} (hstep : HeapStep r op r')
    (hacc : op.Accounts r) (h : Accounted r) : Accounted r' := by
  cases hstep with
  | @kmalloc sz p s' hcall =>
      obtain ⟨hwrap, htop⟩ := hacc
      by_cases hp : p = 0#64
      · subst hp
        rw [if_pos rfl]
        unfold Accounted at h ⊢
        rw [kmalloc_null hcall htop]
        exact h
      · rw [if_neg hp, kmalloc_accounted_iff h hcall hp]
        obtain ⟨vm, -, halloc⟩ := hcall.allocates
        cases halloc with
        | rejected => exact absurd rfl hp
        | reused hlimit _ _ => exact hwrap hlimit
        | lost _ _ _ _ => exact absurd rfl hp
        | appended hlimit _ _ _ _ => exact hwrap hlimit
  | @kfree p sz s' hlive hcall => exact (kfree_accounted_iff h hlive hcall).mpr (hacc sz hlive)

theorem kfree_of_magic {s : Kheap} {p : U64}
    (h : Block.magic s.vm.mem (blockOf p) = kheapMagic) : ∃ s', kfree s p = .ok s' := by
  cases hcall : kfree s p with
  | ok s' => exact ⟨s', rfl⟩
  | error e =>
      rw [kfree] at hcall
      split at hcall
      · rename_i hbad
        exact absurd h hbad
      · exact absurd hcall (by simp)

/-! ## Runs -/

/-- **The books are right where every freed block knows its size.** In every run after
`kheap_init` whose steps meet the condition, `mem_allocated` is the sum of the sizes of the
live allocations in every state reached. So it is 0 when there are none, and the next
`kfree` that meets the condition subtracts no more than there is. -/
theorem accounted_of_sizes {s s₀ : Kheap} {r : HeapRun} {ops : List HeapOp}
    (hzero : s.memAllocated = 0#64) (hinit : KheapInits s s₀)
    (hrun : Run (Guarded HeapOp.Accounts HeapStep) ⟨s₀, []⟩ ops r) :
    Accounted r ∧ (r.live = [] → r.heap.memAllocated = 0#64) ∧
      ∀ p r', Guarded HeapOp.Accounts HeapStep r (.kfree p) r' →
        (Block.size r.heap.vm.mem (blockOf p)).toNat ≤ r.heap.memAllocated.toNat := by
  have hstart : Accounted ⟨s₀, []⟩ := by
    obtain ⟨vm, -, -, hm⟩ := hinit.maps
    unfold Accounted
    rw [hm, hzero]
    rfl
  have hinv := hrun.guarded_invariant (P := Accounted) hstart
    fun r op r' h hacc hstep => hstep.accounted hacc h
  refine ⟨hinv, fun hlive => ?_, fun p r' hstep => ?_⟩
  · unfold Accounted at hinv
    rw [hlive] at hinv
    exact BitVec.eq_of_toNat_eq hinv
  · obtain ⟨hacc, hstep⟩ := hstep
    cases hstep with
    | @kfree _ sz s' hlive _ =>
        have hsum := sum_erase hlive
        have hsize : Block.size r.heap.vm.mem (blockOf p) = sz := hacc sz hlive
        unfold Accounted at hinv
        rw [hsize]
        omega

/-- Two requests of 45 bytes and a `kfree` of the first one, whose header the second one
has filled in. -/
theorem accounted_of_sizes_lowPageHeap : ∃ s₃ : Kheap,
    Run HeapStep ⟨lowPageHeap, []⟩ [.kmalloc 45#64, .kmalloc 45#64, .kfree 0x51d#64]
      ⟨s₃, [(0x577#64, 45#64)]⟩ ∧ Accounted ⟨s₃, [(0x577#64, 45#64)]⟩ := by
  have hrun : (kmalloc 2 lowPageHeap 45#64).bind (fun r₁ =>
      (kmalloc 3 r₁.2 45#64).map fun r₂ => ((r₁.1, r₂.1, r₁.2.memAllocated),
        Block.next r₁.2.vm.mem kheapStart,
        (r₁.2.vm.translate (pageOf (kheapStart + r₁.2.memAllocated))).isSome,
        Block.size r₂.2.vm.mem kheapStart, Block.magic r₂.2.vm.mem kheapStart)) =
      some ((0x51d#64, 0x577#64, 45#64), 0#64, true, 45#64, kheapMagic) := by
    decide +kernel
  obtain ⟨⟨p, s₁⟩, hcall₁, hrun⟩ := Option.bind_eq_some_iff.mp hrun
  obtain ⟨⟨q, s₂⟩, hcall₂, heq⟩ := Option.map_eq_some_iff.mp hrun
  simp only [Prod.mk.injEq] at heq
  obtain ⟨⟨rfl, rfl, hm⟩, hnext, hmapped, hsize, hmagic⟩ := heq
  have hone : ∀ {m : Store 64}, BlockList m [kheapStart] → ∀ b, Listed m b →
      Block.dataStart b ≠ 0#64 := by
    intro m hchain b hb
    rw [List.mem_singleton.mp (hchain.listed_iff.mp hb)]
    decide
  have hacc₁ : HeapOp.Accounts ⟨lowPageHeap, []⟩ (.kmalloc 45#64) := by
    refine ⟨fun _ => by decide, fun vm hvm b hb => ?_⟩
    rw [hvm.of_mapped (by decide +kernel)] at hb
    exact hone (lowPageHeap_inits.layout lowPageVm_zero lowPageVm_private).chain b hb
  have hacc₂ : HeapOp.Accounts ⟨s₁, [(0x51d#64, 45#64)]⟩ (.kmalloc 45#64) := by
    refine ⟨fun _ => by rw [hm]; decide, fun vm hvm b hb => ?_⟩
    rw [hvm.of_mapped hmapped] at hb
    exact hone (blockList_one hnext) b hb
  have hlive : (0x51d#64, 45#64) ∈ [(0x577#64, 45#64), (0x51d#64, 45#64)] := by simp
  have hblock : blockOf 0x51d#64 = kheapStart := by decide
  obtain ⟨s₃, hcall₃⟩ := kfree_of_magic (s := s₂) (p := 0x51d#64) (by rw [hblock]; exact hmagic)
  have hacc₃ : HeapOp.Accounts ⟨s₂, [(0x577#64, 45#64), (0x51d#64, 45#64)]⟩
      (.kfree 0x51d#64) := by
    intro sz hsz
    have hsz' : sz = 45#64 := by simpa using hsz
    rw [hblock, hsz', hsize]
  have hstep₁ : HeapStep ⟨lowPageHeap, []⟩ (.kmalloc 45#64) ⟨s₁, [(0x51d#64, 45#64)]⟩ :=
    .kmalloc_of_ne ⟨2, hcall₁⟩ (by decide)
  have hstep₂ : HeapStep ⟨s₁, [(0x51d#64, 45#64)]⟩ (.kmalloc 45#64)
      ⟨s₂, [(0x577#64, 45#64), (0x51d#64, 45#64)]⟩ :=
    .kmalloc_of_ne ⟨3, hcall₂⟩ (by decide)
  have hstep₃ : HeapStep ⟨s₂, [(0x577#64, 45#64), (0x51d#64, 45#64)]⟩ (.kfree 0x51d#64)
      ⟨s₃, [(0x577#64, 45#64)]⟩ := .kfree_of_erase hlive hcall₃ (by decide)
  have hguard₁ : Guarded HeapOp.Accounts HeapStep _ _ _ := ⟨hacc₁, hstep₁⟩
  have hguard₂ : Guarded HeapOp.Accounts HeapStep _ _ _ := ⟨hacc₂, hstep₂⟩
  have hguard₃ : Guarded HeapOp.Accounts HeapStep _ _ _ := ⟨hacc₃, hstep₃⟩
  exact ⟨s₃, ((Run.start.snoc hstep₁).snoc hstep₂).snoc hstep₃,
    (accounted_of_sizes rfl lowPageHeap_inits
      (((Run.start.snoc hguard₁).snoc hguard₂).snoc hguard₃)).1⟩

/-- A request of 16 bytes and its `kfree`: the header still says 0. -/
theorem lowPageHeap_notAccounted :
    ¬ ∀ (s s₀ : Kheap) (r : HeapRun) (ops : List HeapOp),
      (∀ x, HeapByte x → s.vm.mem x = 0#8) → s.memAllocated = 0#64 → KheapInits s s₀ →
      Run (Guarded (fun r _ => HeapPrivate r.heap) HeapStep) ⟨s₀, []⟩ ops r →
      Accounted r := by
  intro hclaim
  have hrun : (kmalloc 2 lowPageHeap 16#64).map (fun r₁ => (r₁.1, r₁.2.memAllocated,
      Block.size r₁.2.vm.mem kheapStart, Block.magic r₁.2.vm.mem kheapStart,
      (r₁.2.vm.translate (pageOf (kheapStart + r₁.2.memAllocated))).isSome)) =
      some (0x51d#64, 16#64, 0#64, kheapMagic, true) := by decide +kernel
  obtain ⟨⟨p, s₁⟩, hcall₁, heq⟩ := Option.map_eq_some_iff.mp hrun
  simp only [Prod.mk.injEq] at heq
  obtain ⟨rfl, hm, hsize, hmagic, hmapped⟩ := heq
  have hlive : (0x51d#64, 16#64) ∈ [(0x51d#64, 16#64)] := List.mem_singleton_self _
  have hblock : blockOf 0x51d#64 = kheapStart := by decide
  obtain ⟨s₂, hcall₂⟩ := kfree_of_magic (s := s₁) (p := 0x51d#64) (by rw [hblock]; exact hmagic)
  have hstep₁ : HeapStep ⟨lowPageHeap, []⟩ (.kmalloc 16#64) ⟨s₁, [(0x51d#64, 16#64)]⟩ :=
    .kmalloc_of_ne ⟨2, hcall₁⟩ (by decide)
  have hstep₂ : HeapStep ⟨s₁, [(0x51d#64, 16#64)]⟩ (.kfree 0x51d#64) ⟨s₂, []⟩ :=
    .kfree_of_erase hlive hcall₂ (by decide)
  have hguard₁ : Guarded (fun r _ => HeapPrivate r.heap) HeapStep _ _ _ :=
    ⟨lowPageHeap_private, hstep₁⟩
  have hclaimed := fun r ops => hclaim _ _ r ops lowPageVm_zero rfl lowPageHeap_inits
  have hbefore : Accounted ⟨s₁, [(0x51d#64, 16#64)]⟩ := hclaimed _ _ (Run.start.snoc hguard₁)
  have hafter := hclaimed _ _ (lowPageHeap_privateRun hstep₁ hmapped hstep₂)
  have hsame := (kfree_accounted_iff hbefore hlive hcall₂).mp hafter
  rw [hblock, hsize] at hsame
  exact absurd hsame (by decide)

end FacelessOS
