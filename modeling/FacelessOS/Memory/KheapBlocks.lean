import FacelessOS.Memory.Kheap

/-!
# Block headers

How the stores of `kheap.c` act on the fields of a block, and what a call of
`kmalloc` can do. Above this file blocks are read through `Block.isFree`,
`Block.next` and `Block.magic`, and a store either concerns the header it is made
through or one that lies apart from it.
-/

namespace FacelessOS

open ByteStore LinkedList

/-! ## Fields -/

section Fields

variable {m m' : Store 64} {b : U64}

theorem within_header {i n : ℕ} {x : U64} (h : i + n ≤ headerSize)
    (hx : Within (b + BitVec.ofNat 64 i) n x) : Within b headerSize x := by
  rw [headerSize] at h ⊢
  rw [within_offset_iff (by omega)] at hx
  unfold Within
  omega

theorem isFree_congr (h : ∀ x, Within b headerSize x → m' x = m x) :
    Block.isFree m' b = Block.isFree m b :=
  h b (within_self (by decide))

theorem next_congr (h : ∀ x, Within b headerSize x → m' x = m x) :
    Block.next m' b = Block.next m b :=
  load64_congr fun x hx => h x (within_header (by decide) hx)

theorem magic_congr (h : ∀ x, Within b headerSize x → m' x = m x) :
    Block.magic m' b = Block.magic m b :=
  load32_congr fun x hx => h x (within_header (by decide) hx)

end Fields

namespace Vm

variable (s : Vm) (b v : U64) (c : U8) (g : U32)

theorem not_within_self {i n : ℕ} (hi : 0 < i) (h : i + n ≤ 2 ^ 64) :
    ¬ Within (b + BitVec.ofNat 64 i) n b := by
  rw [within_offset_iff h, BitVec.sub_self, BitVec.toNat_ofNat, Nat.zero_mod]
  omega

theorem apart_head {i n : ℕ} (hi : 0 < i) (h : i + n ≤ 2 ^ 64) :
    Apart b 1 (b + BitVec.ofNat 64 i) n := by
  intro x hx hy
  rw [within_offset_iff h] at hy
  unfold Within at hx
  omega

@[simp] theorem isFree_setIsFree : Block.isFree (s.setIsFree b c).mem b = c :=
  store8_same _ _ _

@[simp] theorem next_setIsFree :
    Block.next (s.setIsFree b c).mem b = Block.next s.mem b :=
  load64_write_apart (apart_head b (by decide) (by decide))

@[simp] theorem size_setIsFree :
    Block.size (s.setIsFree b c).mem b = Block.size s.mem b :=
  load64_write_apart (apart_head b (by decide) (by decide))

@[simp] theorem magic_setIsFree :
    Block.magic (s.setIsFree b c).mem b = Block.magic s.mem b :=
  load32_write_apart (apart_head b (by decide) (by decide))

@[simp] theorem isFree_setNext :
    Block.isFree (s.setNext b v).mem b = Block.isFree s.mem b :=
  write_of_not_within (not_within_self b (by decide) (by decide))

@[simp] theorem next_setNext : Block.next (s.setNext b v).mem b = v :=
  load64_store64 _ _ _ (by decide)

@[simp] theorem magic_setNext :
    Block.magic (s.setNext b v).mem b = Block.magic s.mem b :=
  load32_write_apart (apart_offset (by decide) (by decide) (by decide))

@[simp] theorem isFree_setSize :
    Block.isFree (s.setSize b v).mem b = Block.isFree s.mem b :=
  write_of_not_within (not_within_self b (by decide) (by decide))

@[simp] theorem next_setSize :
    Block.next (s.setSize b v).mem b = Block.next s.mem b :=
  load64_write_apart (apart_offset (by decide) (by decide) (by decide))

@[simp] theorem magic_setSize :
    Block.magic (s.setSize b v).mem b = Block.magic s.mem b :=
  load32_write_apart (apart_offset (by decide) (by decide) (by decide))

@[simp] theorem isFree_setMagic :
    Block.isFree (s.setMagic b g).mem b = Block.isFree s.mem b :=
  write_of_not_within (not_within_self b (by decide) (by decide))

@[simp] theorem next_setMagic :
    Block.next (s.setMagic b g).mem b = Block.next s.mem b :=
  load64_write_apart (apart_offset (by decide) (by decide) (by decide))

@[simp] theorem magic_setMagic : Block.magic (s.setMagic b g).mem b = g :=
  load32_store32 _ _ _ (by decide)

end Vm

/-! ## Bytes outside the header -/

namespace Vm

variable {s : Vm} {b v x : U64} {c : U8} {g : U32}

theorem mem_setIsFree (hx : ¬ Within b headerSize x) :
    (s.setIsFree b c).mem x = s.mem x := by
  refine write_of_not_within fun h => hx ?_
  unfold Within at h ⊢
  exact Nat.lt_of_lt_of_le h (by decide)

theorem mem_setNext (hx : ¬ Within b headerSize x) :
    (s.setNext b v).mem x = s.mem x :=
  write_of_not_within fun h => hx (within_header (by decide) h)

theorem mem_setSize (hx : ¬ Within b headerSize x) :
    (s.setSize b v).mem x = s.mem x :=
  write_of_not_within fun h => hx (within_header (by decide) h)

theorem mem_setMagic (hx : ¬ Within b headerSize x) :
    (s.setMagic b g).mem x = s.mem x :=
  write_of_not_within fun h => hx (within_header (by decide) h)

/-! ## Hanging in a block -/

section AppendBlock

variable {prev h size : U64}

theorem mem_appendBlock (hp : ¬ Within prev headerSize x) (hh : ¬ Within h headerSize x) :
    (s.appendBlock prev h size).mem x = s.mem x := by
  rw [appendBlock, mem_setSize hp, next_setNext, mem_setMagic hh, mem_setNext hp]

variable (hapart : Apart prev headerSize h headerSize)

include hapart

theorem next_appendBlock_prev :
    Block.next (s.appendBlock prev h size).mem prev = h := by
  rw [appendBlock, next_setSize, next_setNext]
  refine (next_congr fun x hx => ?_).trans (next_setNext s prev h)
  exact mem_setMagic (hapart x hx)

theorem isFree_appendBlock_prev :
    Block.isFree (s.appendBlock prev h size).mem prev = Block.isFree s.mem prev := by
  rw [appendBlock, isFree_setSize, next_setNext]
  refine (isFree_congr fun x hx => ?_).trans (isFree_setNext s prev h)
  exact mem_setMagic (hapart x hx)

theorem magic_appendBlock_prev :
    Block.magic (s.appendBlock prev h size).mem prev = Block.magic s.mem prev := by
  rw [appendBlock, magic_setSize, next_setNext]
  refine (magic_congr fun x hx => ?_).trans (magic_setNext s prev h)
  exact mem_setMagic (hapart x hx)

theorem next_appendBlock_new :
    Block.next (s.appendBlock prev h size).mem h = Block.next s.mem h := by
  rw [appendBlock, next_setNext]
  refine (next_congr fun x hx => mem_setSize fun hp => hapart x hp hx).trans ?_
  rw [next_setMagic]
  exact next_congr fun x hx => mem_setNext fun hp => hapart x hp hx

theorem magic_appendBlock_new :
    Block.magic (s.appendBlock prev h size).mem h = kheapMagic := by
  rw [appendBlock, next_setNext]
  refine (magic_congr fun x hx => mem_setSize fun hp => hapart x hp hx).trans ?_
  exact magic_setMagic _ _ _

end AppendBlock

theorem fields_setIsFree {s : Vm} {b c : U64} (hapart : c ≠ b → Apart c headerSize b headerSize)
    (v : U8) : Block.next (s.setIsFree b v).mem c = Block.next s.mem c ∧
      Block.magic (s.setIsFree b v).mem c = Block.magic s.mem c ∧
      Block.isFree (s.setIsFree b v).mem c = if c = b then v else Block.isFree s.mem c := by
  by_cases hcb : c = b
  · subst hcb
    exact ⟨next_setIsFree _ _ _, magic_setIsFree _ _ _, by rw [if_pos rfl, isFree_setIsFree]⟩
  · have hkeep : ∀ x, Within c headerSize x → (s.setIsFree b v).mem x = s.mem x :=
      fun x hx => mem_setIsFree (hapart hcb x hx)
    exact ⟨next_congr hkeep, magic_congr hkeep, by rw [if_neg hcb, isFree_congr hkeep]⟩

end Vm

/-- What hanging in block `n` behind `prev` and handing it out leaves in the headers,
whatever was where `n` is put. -/
structure HungIn (m m' : Store 64) (l : List U64) (prev n : U64) : Prop where
  next_old : ∀ b ∈ l, Block.next m' b = Block.next m b
  next_prev : Block.next m' prev = n
  next_new : Block.next m' n = Block.next m n
  magic_old : ∀ b ∈ l ++ [prev], Block.magic m' b = Block.magic m b
  magic_new : Block.magic m' n = kheapMagic
  isFree_old : ∀ b ∈ l ++ [prev], Block.isFree m' b = Block.isFree m b
  isFree_new : Block.isFree m' n = 0#8
  keep : ∀ x, ¬ Within prev headerSize x → ¬ Within n headerSize x → m' x = m x

theorem Vm.hungIn {s : Vm} {l : List U64} {prev n : U64} (size : U64)
    (hprev : ∀ b ∈ l, Apart b headerSize prev headerSize)
    (hnew : ∀ b ∈ l ++ [prev], Apart b headerSize n headerSize) :
    HungIn s.mem ((s.appendBlock prev n size).setIsFree n 0#8).mem l prev n := by
  have hpn := hnew prev (by simp)
  have hkeep : ∀ x, ¬ Within prev headerSize x → ¬ Within n headerSize x →
      ((s.appendBlock prev n size).setIsFree n 0#8).mem x = s.mem x :=
    fun x hxp hxn => by rw [mem_setIsFree hxn, mem_appendBlock hxp hxn]
  -- the blocks in front of `prev` keep their headers
  have hold : ∀ b ∈ l, ∀ x, Within b headerSize x →
      ((s.appendBlock prev n size).setIsFree n 0#8).mem x = s.mem x := fun b hb x hx =>
    hkeep x (hprev b hb x hx) (hnew b (List.mem_append_left _ hb) x hx)
  -- the last store does not reach `prev`
  have hprevkeep : ∀ x, Within prev headerSize x →
      ((s.appendBlock prev n size).setIsFree n 0#8).mem x =
        (s.appendBlock prev n size).mem x := fun x hx => mem_setIsFree (hpn x hx)
  refine ⟨fun b hb => next_congr (hold b hb), ?_, ?_, ?_, ?_, ?_, isFree_setIsFree _ _ _,
    hkeep⟩
  · rw [next_congr hprevkeep, next_appendBlock_prev hpn]
  · rw [next_setIsFree, next_appendBlock_new hpn]
  · intro b hb
    rcases List.mem_append.mp hb with hb | hb
    · rw [magic_congr (hold b hb)]
    · rw [List.mem_singleton.mp hb, magic_congr hprevkeep, magic_appendBlock_prev hpn]
  · rw [magic_setIsFree, magic_appendBlock_new hpn]
  · intro b hb
    rcases List.mem_append.mp hb with hb | hb
    · rw [isFree_congr (hold b hb)]
    · rw [List.mem_singleton.mp hb, isFree_congr hprevkeep, isFree_appendBlock_prev hpn]

/-! ## What `kheap_init` and `kfree` do -/

/-- What the stores of `kheap_init` leave: one free block at the start of the heap. -/
structure FirstBlock (vm vm' : Vm) : Prop where
  pml4 : vm'.pml4 = vm.pml4
  pmm : vm'.pmm = vm.pmm
  next : Block.next vm'.mem kheapStart = 0#64
  isFree : Block.isFree vm'.mem kheapStart = 1#8
  magic : Block.magic vm'.mem kheapStart = kheapMagic
  mem : ∀ x, ¬ Within kheapStart headerSize x → vm'.mem x = vm.mem x

theorem KheapInits.maps {s s' : Kheap} (h : KheapInits s s') :
    ∃ vm, MapsPage s.vm kheapStart kheapFlags vm ∧ FirstBlock vm s'.vm ∧
      s'.memAllocated = s.memAllocated := by
  obtain ⟨fuel, h⟩ := h
  obtain ⟨vm, hvm, h⟩ := Option.bind_eq_some_iff.mp h
  obtain rfl := Option.some.inj h
  refine ⟨vm, ⟨fuel, hvm⟩, ⟨rfl, rfl, by simp, by simp, by simp, fun x hx => ?_⟩, rfl⟩
  show Vm.mem _ x = _
  rw [Vm.mem_setMagic hx, Vm.mem_setSize hx, Vm.mem_setIsFree hx, Vm.mem_setNext hx]

theorem blk_dataStart (b : U64) : Block.dataStart b - sizeofBlock + 1#64 = b := by
  unfold Block.dataStart sizeofBlock
  bv_omega

theorem kfree_ok {s s' : Kheap} {p : U64} (h : kfree s p = .ok s') :
    s' = { vm := s.vm.setIsFree (p - sizeofBlock + 1#64) 1#8,
           memAllocated := s.memAllocated - Block.size s.vm.mem (p - sizeofBlock + 1#64) } := by
  rw [kfree] at h
  split at h
  · exact absurd h (by simp)
  · rw [← Except.ok.inj h, Vm.size_setIsFree]

/-! ## What `kmalloc` can do -/

/-- The search of a `kmalloc` and its outcome, over the memory that the call of
`map_page` left: no block, a free block, or a new block behind the last one. -/
inductive Allocates (vm : Vm) (memAllocated sz : U64) : U64 → Kheap → Prop where
  | rejected : Allocates vm memAllocated sz 0#64 ⟨vm, memAllocated⟩
  | reused {fuel : ℕ} {hole prev : U64} : memAllocated + sz < kheapLimit →
      firstFitLoop vm.mem fuel kheapStart 0#64 = some (hole, prev) → hole ≠ 0#64 →
      Allocates vm memAllocated sz (Block.dataStart hole)
        ⟨vm.setIsFree hole 0#8, memAllocated + sz⟩
  | lost {fuel : ℕ} {prev : U64} : memAllocated + sz < kheapLimit →
      firstFitLoop vm.mem fuel kheapStart 0#64 = some (0#64, prev) →
      prev + sizeofBlock * sizeofBlock ≤ kheapEnd →
      Block.next (vm.appendBlock prev (kheapStart + memAllocated + sz) sz).mem prev
        = 0#64 →
      Allocates vm memAllocated sz 0#64
        ⟨vm.appendBlock prev (kheapStart + memAllocated + sz) sz, memAllocated⟩
  | appended {fuel : ℕ} {prev hole : U64} : memAllocated + sz < kheapLimit →
      firstFitLoop vm.mem fuel kheapStart 0#64 = some (0#64, prev) →
      prev + sizeofBlock * sizeofBlock ≤ kheapEnd →
      Block.next (vm.appendBlock prev (kheapStart + memAllocated + sz) sz).mem prev
        = hole → hole ≠ 0#64 →
      Allocates vm memAllocated sz (Block.dataStart hole)
        ⟨(vm.appendBlock prev (kheapStart + memAllocated + sz) sz).setIsFree hole 0#8,
          memAllocated + sz⟩

theorem Listed.of_headers {m m' : Store 64} {b : U64} (h : Listed m' b)
    (heq : ∀ c, Listed m c → ∀ x, Within c headerSize x → m' x = m x) : Listed m b :=
  h.of_congr fun c hc => next_congr (heq c hc)

theorem search_listed {m : Store 64} {fuel : ℕ} {c q : U64}
    (hloop : firstFitLoop m fuel kheapStart 0#64 = some (c, q)) :
    (c ≠ 0#64 → Listed m c) ∧ (c = 0#64 → Listed m q ∧ Block.next m q = 0#64) :=
  firstFitLoop_listed (Or.inr (.head (by decide))) (fun hz => absurd hz (by decide)) hloop

/-- The last block of the list is not too close to the end of the heap for one more. -/
def LastIn (m : Store 64) : Prop := ∃ last, Listed m last ∧ Block.next m last = 0#64 ∧
  last + sizeofBlock * sizeofBlock ≤ kheapEnd

/-- The stores of the search and its outcome lie in listed headers and, if a block is made,
in its header, which shares no byte with the one before. -/
theorem Allocates.mem_eq {vm : Vm} {m sz p x : U64} {s' : Kheap} (h : Allocates vm m sz p s')
    (hlisted : ∀ b, Listed vm.mem b → ¬ Within b headerSize x)
    (hplace : ∀ fuel prev, m + sz < kheapLimit →
      firstFitLoop vm.mem fuel kheapStart 0#64 = some (0#64, prev) →
      prev + sizeofBlock * sizeofBlock ≤ kheapEnd →
      ¬ Within (kheapStart + m + sz) headerSize x ∧
        Apart prev headerSize (kheapStart + m + sz) headerSize) :
    s'.vm.mem x = vm.mem x := by
  cases h with
  | rejected => rfl
  | @reused fuel hole prev _ hloop hne =>
      exact Vm.mem_setIsFree (hlisted hole ((search_listed hloop).1 hne))
  | @lost fuel prev hlimit hloop hend _ =>
      obtain ⟨hnew, -⟩ := hplace fuel prev hlimit hloop hend
      exact Vm.mem_appendBlock (hlisted prev ((search_listed hloop).2 rfl).1) hnew
  | @appended fuel prev hole hlimit hloop hend hhole _ =>
      obtain ⟨hnew, hapart⟩ := hplace fuel prev hlimit hloop hend
      rw [Vm.next_appendBlock_prev hapart] at hhole
      subst hhole
      show ((vm.appendBlock prev _ sz).setIsFree _ 0#8).mem x = vm.mem x
      rw [Vm.mem_setIsFree hnew]
      exact Vm.mem_appendBlock (hlisted prev ((search_listed hloop).2 rfl).1) hnew

theorem Allocates.vm_eq {vm : Vm} {m sz p : U64} {s' : Kheap} (h : Allocates vm m sz p s') :
    s'.vm.pml4 = vm.pml4 ∧ s'.vm.pmm = vm.pmm := by
  cases h <;> exact ⟨rfl, rfl⟩

theorem Kmallocs.allocates {s s' : Kheap} {sz p : U64} (h : Kmallocs s sz p s') :
    ∃ vm, MapsPage s.vm (kheapStart + s.memAllocated) kheapFlags vm ∧
      Allocates vm s.memAllocated sz p s' := by
  obtain ⟨fuel, h⟩ := h
  unfold kmalloc at h
  obtain ⟨⟨hole, s₁⟩, hfit, h⟩ := Option.bind_eq_some_iff.mp h
  unfold firstFit at hfit
  obtain ⟨vm, hvm, hfit⟩ := Option.bind_eq_some_iff.mp hfit
  refine ⟨vm, ⟨fuel, hvm⟩, ?_⟩
  simp only at h hfit
  split at hfit
  · obtain ⟨rfl, rfl⟩ := Prod.mk.inj (Option.some.inj hfit)
    rw [if_pos rfl] at h
    obtain ⟨rfl, rfl⟩ := Prod.mk.inj (Option.some.inj h)
    exact .rejected
  · rename_i hlimit
    have hlimit' : s.memAllocated + sz < kheapLimit := BitVec.not_le.mp hlimit
    obtain ⟨⟨current, prev⟩, hloop, hfit⟩ := Option.bind_eq_some_iff.mp hfit
    simp only at hfit
    split at hfit
    · rename_i hcur
      obtain ⟨rfl, rfl⟩ := Prod.mk.inj (Option.some.inj hfit)
      rw [if_neg hcur] at h
      obtain ⟨rfl, rfl⟩ := Prod.mk.inj (Option.some.inj h)
      exact .reused hlimit' hloop hcur
    · rename_i hcur
      obtain rfl : current = 0#64 := not_not.mp hcur
      split at hfit
      · obtain ⟨rfl, rfl⟩ := Prod.mk.inj (Option.some.inj hfit)
        rw [if_pos rfl] at h
        obtain ⟨rfl, rfl⟩ := Prod.mk.inj (Option.some.inj h)
        exact .rejected
      · rename_i hend
        have hend' := BitVec.not_lt.mp hend
        obtain ⟨hhole, rfl⟩ := Prod.mk.inj (Option.some.inj hfit)
        split at h
        · rename_i hnull
          obtain ⟨rfl, rfl⟩ := Prod.mk.inj (Option.some.inj h)
          exact .lost hlimit' hloop hend' (hhole.trans hnull)
        · rename_i hnull
          obtain ⟨rfl, rfl⟩ := Prod.mk.inj (Option.some.inj h)
          exact .appended hlimit' hloop hend' hhole hnull

end FacelessOS
