import FacelessOS.Memory.BlockChain
import FacelessOS.Memory.HeapMapped

/-!
# What the heap does not remember

A block does not know how much it holds, and a header looks the same before and after its
block was freed. So `kmalloc` takes the first free block whatever it was made for
(`reusedFits_iff`), and `kfree` accepts every pointer that was ever handed out
(`kfreeExact_iff`). What the heap forgets is kept here beside it: the allocations that are
live, and all that there ever were.
-/

namespace FacelessOS

open ByteStore LinkedList Runs

/-- A state of a run: the heap, the allocations not yet freed, and all of them, latest
first. -/
structure HeapLog where
  heap : Kheap
  live : List (U64 × U64)
  log : List (U64 × U64)

def HeapLog.Live (r : HeapLog) (p : U64) : Prop := p ∈ r.live.map Prod.fst

def HeapLog.Logged (r : HeapLog) (p : U64) : Prop := p ∈ r.log.map Prod.fst

/-- This pointer was handed out, was freed, and was not handed out again. -/
def HeapLog.Freed (r : HeapLog) (p : U64) : Prop := r.Logged p ∧ ¬ r.Live p

/-- A call that returns. Any pointer that was handed out may be freed, also twice; a call
that panics is no step. -/
inductive LogStep : HeapLog → HeapOp → HeapLog → Prop where
  | kmalloc {r : HeapLog} {sz p : U64} {s' : Kheap} : Kmallocs r.heap sz p s' →
      LogStep r (.kmalloc sz) ⟨s', if p = 0#64 then r.live else (p, sz) :: r.live,
        if p = 0#64 then r.log else (p, sz) :: r.log⟩
  | kfree {r : HeapLog} {p : U64} {s' : Kheap} : r.Logged p → kfree r.heap p = .ok s' →
      LogStep r (.kfree p) ⟨s', r.live.filter fun a => a.1 ≠ p, r.log⟩

def FreesLive (r : HeapLog) : HeapOp → Prop
  | .kmalloc _ => True
  | .kfree p => r.Live p

def LogKeepsChain (r : HeapLog) : HeapOp → Prop
  | .kmalloc sz => KeepsChain r.heap sz
  | .kfree _ => True

theorem LogStep.kmalloc_of_ne {r : HeapLog} {sz p : U64} {s' : Kheap}
    (h : Kmallocs r.heap sz p s') (hp : p ≠ 0#64) :
    LogStep r (.kmalloc sz) ⟨s', (p, sz) :: r.live, (p, sz) :: r.log⟩ := by
  have hstep := LogStep.kmalloc h
  rwa [if_neg hp, if_neg hp] at hstep

theorem LogStep.log_ne_zero {r r' : HeapLog} {op : HeapOp} (hstep : LogStep r op r')
    (h : ∀ a ∈ r.log, a.1 ≠ 0#64) : ∀ a ∈ r'.log, a.1 ≠ 0#64 := by
  cases hstep with
  | @kmalloc sz p s' _ =>
      show ∀ a ∈ (if p = 0#64 then r.log else (p, sz) :: r.log), a.1 ≠ 0#64
      by_cases hp : p = 0#64
      · rwa [if_pos hp]
      · rw [if_neg hp]
        exact List.forall_mem_cons.mpr ⟨hp, h⟩
  | kfree _ _ => exact h

/-! ## One block

The first block of `lowPageHeap`, handed out for 16 bytes and freed again. -/

def busyHeap : Kheap where
  vm := lowPageHeap.vm.setIsFree kheapStart 0#8
  memAllocated := 16#64

/-- After a request of 16 bytes and its `kfree`. The header still says 0 bytes. -/
def freedHeap : Kheap where
  vm := busyHeap.vm.setIsFree kheapStart 1#8
  memAllocated := 16#64

theorem lowPageHeap_kmalloc : Kmallocs lowPageHeap 16#64 0x51d#64 busyHeap :=
  kmalloc_first (by decide +kernel) (by decide) (by decide +kernel)

theorem busyHeap_magic : Block.magic busyHeap.vm.mem kheapStart = kheapMagic := by
  rw [busyHeap, Vm.magic_setIsFree]
  exact (lowPageHeap_inits.layout lowPageVm_zero lowPageVm_private).magic _
    (List.mem_singleton_self _)

theorem busyHeap_kfree : kfree busyHeap 0x51d#64 = .ok freedHeap := by
  have hblock : 0x51d#64 - sizeofBlock + 1#64 = kheapStart := by decide
  have hsize : Block.size busyHeap.vm.mem kheapStart = 0#64 := by
    rw [busyHeap, Vm.size_setIsFree]
    decide +kernel
  unfold kfree
  simp only [hblock, busyHeap_magic, Vm.size_setIsFree, hsize, ne_eq, not_true, if_false]
  rfl

theorem busyHeap_private : HeapPrivate busyHeap := .of_mapped (by decide +kernel)

theorem busyHeap_run {guard : HeapLog → HeapOp → Prop}
    (hguard : guard ⟨lowPageHeap, [], []⟩ (.kmalloc 16#64)) :
    Run (Guarded guard LogStep) ⟨lowPageHeap, [], []⟩ [.kmalloc 16#64]
      ⟨busyHeap, [(0x51d#64, 16#64)], [(0x51d#64, 16#64)]⟩ := by
  have hstep : LogStep ⟨lowPageHeap, [], []⟩ (.kmalloc 16#64) _ :=
    .kmalloc_of_ne lowPageHeap_kmalloc (by decide)
  exact Run.start.snoc ⟨hguard, hstep⟩

theorem freedHeap_run {guard : HeapLog → HeapOp → Prop}
    (hguard : guard ⟨lowPageHeap, [], []⟩ (.kmalloc 16#64))
    (hguard' : guard ⟨busyHeap, [(0x51d#64, 16#64)], [(0x51d#64, 16#64)]⟩
      (.kfree 0x51d#64)) :
    Run (Guarded guard LogStep) ⟨lowPageHeap, [], []⟩ [.kmalloc 16#64, .kfree 0x51d#64]
      ⟨freedHeap, [], [(0x51d#64, 16#64)]⟩ := by
  have hstep : LogStep ⟨busyHeap, [(0x51d#64, 16#64)], [(0x51d#64, 16#64)]⟩
      (.kfree 0x51d#64) ⟨freedHeap, [], [(0x51d#64, 16#64)]⟩ :=
    .kfree List.mem_cons_self busyHeap_kfree
  exact (busyHeap_run hguard).snoc ⟨hguard', hstep⟩

theorem freedHeap_findsFree {b : U64} (h : FindsFree freedHeap.vm.mem kheapStart b) :
    b = kheapStart := by
  cases h with
  | here _ _ => rfl
  | skip _ hbusy _ => exact absurd hbusy (by decide +kernel)

/-! ## Reuse -/

/-- Block `b` has `sz` bytes for data: as many or more were asked for when it was last
handed out, or there are as many up to the next header. -/
def HeapLog.Room (r : HeapLog) (m : Store 64) (b sz : U64) : Prop :=
  (∃ last, r.log.lookup (Block.dataStart b) = some last ∧ sz.toNat ≤ last.toNat) ∨
  (Block.next m b ≠ 0#64 ∧ b.toNat + headerSize + sz.toNat ≤ (Block.next m b).toNat)

/-- Searching from here, `b` is the first free block that is `ok`. -/
inductive FindsFit (m : Store 64) (ok : U64 → Prop) : U64 → U64 → Prop where
  | here {b : U64} : b ≠ 0#64 → Block.isFree m b ≠ 0#8 → ok b → FindsFit m ok b b
  | skip {c b : U64} : c ≠ 0#64 → ¬ (Block.isFree m c ≠ 0#8 ∧ ok c) →
      FindsFit m ok (Block.next m c) b → FindsFit m ok c b

/-- What reuse is for: where `kmalloc` returns a free block of the list that was freed
earlier, it is the first of these that has room. -/
def ReusedFits (r : HeapLog) (sz : U64) : Prop :=
  ∀ vm p s', MapsHeap r.heap vm → Kmallocs r.heap sz p s' → r.Freed p →
    Listed vm.mem (blockOf p) → Block.isFree vm.mem (blockOf p) ≠ 0#8 →
    FindsFit vm.mem (fun b => r.Freed (Block.dataStart b) ∧ r.Room vm.mem b sz) kheapStart
      (blockOf p)

def FirstFreeFits (r : HeapLog) (sz : U64) : Prop :=
  r.heap.memAllocated + sz < kheapLimit → ∀ vm, MapsHeap r.heap vm →
    ∀ b, FindsFree vm.mem kheapStart b → r.Freed (Block.dataStart b) → r.Room vm.mem b sz

theorem FindsFit.ok {m : Store 64} {ok : U64 → Prop} {c b : U64} (h : FindsFit m ok c b) :
    ok b := by
  induction h with
  | here _ _ hok => exact hok
  | skip _ _ _ ih => exact ih

theorem FindsFree.findsFit {m : Store 64} {ok : U64 → Prop} {c b : U64}
    (h : FindsFree m c b) (hok : ok b) : FindsFit m ok c b := by
  induction h with
  | here hb hfree => exact .here hb hfree hok
  | skip hne hbusy _ ih => exact .skip hne (fun hfit => hfit.1 hbusy) (ih hok)

/-- **Reuse is first fit where the first free block fits.** In every run of `kmalloc` and
of `kfree` on live pointers, from any heap on, the next `kmalloc` reuses the first block
that has room if and only if the first free block has, whatever it was made for. -/
theorem reusedFits_iff {s₀ : Kheap} {r : HeapLog} {ops : List HeapOp} {sz : U64}
    (hrun : Run (Guarded FreesLive LogStep) ⟨s₀, [], []⟩ ops r) :
    ReusedFits r sz ↔ FirstFreeFits r sz := by
  have hlog : ∀ a ∈ r.log, a.1 ≠ 0#64 := hrun.guarded_invariant
    (P := fun r => ∀ a ∈ r.log, a.1 ≠ 0#64) (fun a ha => absurd ha List.not_mem_nil)
    fun r op r' h _ hstep => hstep.log_ne_zero h
  constructor
  · intro h hlimit vm hvm b hfind hfreed
    have hfit := h vm _ _ hvm (kmalloc_reuses hvm hlimit hfind) hfreed
      (by rw [blockOf_dataStart]; exact hfind.listed)
      (by rw [blockOf_dataStart]; exact hfind.isFree)
    rw [blockOf_dataStart] at hfit
    exact hfit.ok.2
  · intro h vm p s' hvm hcall hfreed hlisted hfree
    have hp : p ≠ 0#64 := by
      obtain ⟨a, hmem, rfl⟩ := List.mem_map.mp hfreed.1
      exact hlog a hmem
    obtain ⟨vm', hvm', halloc⟩ := hcall.allocates
    obtain rfl := hvm.unique hvm'
    -- no new block was made, since there is a free one
    have hfound : ∀ {fuel prev}, firstFitLoop vm.mem fuel kheapStart 0#64 ≠
        some (0#64, prev) := by
      intro fuel prev hloop
      obtain ⟨b, hb⟩ := hlisted.findsFree hfree
      exact (firstFitLoop_findsFree hloop).2 rfl b hb
    cases halloc with
    | rejected => exact absurd rfl hp
    | lost _ _ _ _ => exact absurd rfl hp
    | @reused fuel hole prev hlimit hloop hne =>
        have hfind := (firstFitLoop_findsFree hloop).1 hne
        rw [blockOf_dataStart]
        exact hfind.findsFit ⟨hfreed, h hlimit vm hvm hole hfind hfreed⟩
    | appended _ hloop _ _ _ => exact absurd hloop hfound

/-- A request of 12 bytes is given the block that was handed out for 16. -/
theorem reusedFits_iff_freedHeap :
    ReusedFits ⟨freedHeap, [], [(0x51d#64, 16#64)]⟩ 12#64 := by
  have hlive : FreesLive ⟨busyHeap, [(0x51d#64, 16#64)], [(0x51d#64, 16#64)]⟩
      (.kfree 0x51d#64) := List.mem_cons_self
  refine (reusedFits_iff (freedHeap_run trivial hlive)).mpr fun _ vm hvm b hfind _ => ?_
  rw [hvm.of_mapped (by decide +kernel)] at hfind ⊢
  obtain rfl := freedHeap_findsFree hfind
  exact Or.inl ⟨16#64, by decide, by decide⟩

/-- A request of 32 bytes is given the block that was handed out for 16. -/
theorem freedHeap_overfull :
    ¬ ∀ (s s₀ : Kheap) (r : HeapLog) (ops : List HeapOp) (sz : U64),
      (∀ x, HeapByte x → s.vm.mem x = 0#8) → s.memAllocated = 0#64 → KheapInits s s₀ →
      Run (Guarded (fun r op => HeapPrivate r.heap ∧ FreesLive r op) LogStep)
        ⟨s₀, [], []⟩ ops r →
      ReusedFits r sz := by
  intro hclaim
  have hlive : FreesLive ⟨busyHeap, [(0x51d#64, 16#64)], [(0x51d#64, 16#64)]⟩
      (.kfree 0x51d#64) := List.mem_cons_self
  have hfits := hclaim _ _ _ _ 32#64 lowPageVm_zero rfl lowPageHeap_inits
    (freedHeap_run ⟨lowPageHeap_private, trivial⟩ ⟨busyHeap_private, hlive⟩)
  have hmapped : (freedHeap.vm.translate
      (pageOf (kheapStart + freedHeap.memAllocated))).isSome := by decide +kernel
  have hblock : blockOf 0x51d#64 = kheapStart := by decide
  have hfree : Block.isFree freedHeap.vm.mem kheapStart ≠ 0#8 := by decide +kernel
  have hcall : Kmallocs freedHeap 32#64 0x51d#64 _ := kmalloc_first hmapped (by decide) hfree
  have hfit := hfits freedHeap.vm _ _ ⟨1, mapPage_of_mapped hmapped 0 kheapFlags⟩ hcall
    ⟨List.mem_cons_self, List.not_mem_nil⟩ (by rw [hblock]; exact .head (by decide))
    (by rw [hblock]; exact hfree)
  rw [hblock] at hfit
  rcases hfit.ok.2 with ⟨last, hlast, hle⟩ | ⟨hnext, -⟩
  · have hlookup : [(0x51d#64, 16#64)].lookup (Block.dataStart kheapStart) = some 16#64 := by
      decide
    obtain rfl : last = 16#64 := Option.some.inj (hlast.symm.trans hlookup)
    exact absurd hle (by decide)
  · exact hnext (by decide +kernel)

/-! ## `kfree` -/

/-- What `kfree` is for: it frees the block of a live pointer and no other, and panics at any
other pointer that was handed out. -/
structure KfreeExact (r : HeapLog) (p : U64) : Prop where
  live : r.Live p → ∃ s', kfree r.heap p = .ok s' ∧
    Block.isFree s'.vm.mem (blockOf p) = 1#8 ∧
    ∀ b, Listed r.heap.vm.mem b → b ≠ blockOf p →
      Block.isFree s'.vm.mem b = Block.isFree r.heap.vm.mem b
  freed : r.Freed p →
    kfree r.heap p = .error "Invalid free or kernel heap corruption detected..\n"

theorem LogStep.blockChain {r r' : HeapLog} {op : HeapOp} {blocks : List U64}
    (hstep : LogStep r op r') (hkeeps : LogKeepsChain r op)
    (h : BlockChain r.heap.vm.mem blocks r.log) :
    ∃ blocks', BlockChain r'.heap.vm.mem blocks' r'.log := by
  cases hstep with
  | kmalloc hcall =>
      obtain ⟨blocks', h', -⟩ := BlockChain.kmalloc (r := ⟨r.heap, r.log⟩) h hkeeps hcall
      exact ⟨blocks', h'⟩
  | @kfree p s' hlog hcall =>
      obtain ⟨⟨q, sz⟩, hmem, rfl⟩ := List.mem_map.mp hlog
      obtain ⟨b, hb, rfl⟩ := h.live_block q sz hmem
      obtain rfl := kfree_ok hcall
      rw [blk_dataStart]
      exact ⟨blocks, h.setIsFree hb 1#8⟩

theorem BlockChain.kfree {r : HeapLog} {blocks : List U64} {p : U64}
    (h : BlockChain r.heap.vm.mem blocks r.log) (hp : r.Logged p) :
    ∃ s', FacelessOS.kfree r.heap p = .ok s' ∧ Block.isFree s'.vm.mem (blockOf p) = 1#8 ∧
      ∀ b, Listed r.heap.vm.mem b → b ≠ blockOf p →
        Block.isFree s'.vm.mem b = Block.isFree r.heap.vm.mem b := by
  obtain ⟨⟨q, sz⟩, hmem, rfl⟩ := List.mem_map.mp hp
  obtain ⟨b, hb, rfl⟩ := h.live_block q sz hmem
  have hmagic : Block.magic r.heap.vm.mem (blockOf (Block.dataStart b)) = kheapMagic := by
    rw [blockOf_dataStart, h.magic b hb]
  obtain ⟨s', hcall⟩ := kfree_of_magic hmagic
  refine ⟨s', hcall, ?_⟩
  obtain rfl := kfree_ok hcall
  rw [blk_dataStart, blockOf_dataStart]
  refine ⟨Vm.isFree_setIsFree _ _ _, fun c hc hcb => ?_⟩
  have hfields := h.setIsFree_fields hb 1#8 c (h.chain.listed_iff.mp hc)
  rw [hfields.2.2, if_neg hcb]

/-- **`kfree` is exact on live pointers only.** In every run after `kheap_init` whose
`kmalloc`s keep the block list, whatever was freed in it, `kfree` does what it is for on a
pointer that was handed out if and only if the pointer is live. -/
theorem kfreeExact_iff {s s₀ : Kheap} {r : HeapLog} {ops : List HeapOp} {p : U64}
    (hinit : KheapInits s s₀)
    (hrun : Run (Guarded LogKeepsChain LogStep) ⟨s₀, [], []⟩ ops r) (hp : r.Logged p) :
    KfreeExact r p ↔ r.Live p := by
  obtain ⟨blocks, h⟩ := hrun.guarded_invariant
    (P := fun r => ∃ blocks, BlockChain r.heap.vm.mem blocks r.log)
    ⟨[kheapStart], hinit.blockChain⟩
    fun r op r' ⟨_, h⟩ hkeeps hstep => hstep.blockChain hkeeps h
  obtain ⟨s', hcall, hfree⟩ := h.kfree hp
  constructor
  · intro hexact
    by_contra hlive
    rw [hexact.freed ⟨hp, hlive⟩] at hcall
    exact absurd hcall (by simp)
  · intro hlive
    exact ⟨fun _ => ⟨s', hcall, hfree⟩, fun hfreed => absurd hlive hfreed.2⟩

theorem kfreeExact_iff_busyHeap :
    KfreeExact ⟨busyHeap, [(0x51d#64, 16#64)], [(0x51d#64, 16#64)]⟩ 0x51d#64 :=
  (kfreeExact_iff lowPageHeap_inits
    (busyHeap_run (lowPageHeap_keepsChain 16#64)) List.mem_cons_self).mpr List.mem_cons_self

/-- A second `kfree` of the same pointer is accepted. -/
theorem freedHeap_freedTwice :
    ¬ ∀ (s s₀ : Kheap) (r : HeapLog) (ops : List HeapOp) (p : U64),
      (∀ x, HeapByte x → s.vm.mem x = 0#8) → s.memAllocated = 0#64 → KheapInits s s₀ →
      Run (Guarded (fun r _ => HeapPrivate r.heap) LogStep) ⟨s₀, [], []⟩ ops r →
      r.Logged p → KfreeExact r p := by
  intro hclaim
  have hexact := hclaim _ _ _ _ 0x51d#64 lowPageVm_zero rfl lowPageHeap_inits
    (freedHeap_run lowPageHeap_private busyHeap_private) List.mem_cons_self
  have hpanic := hexact.freed ⟨List.mem_cons_self, List.not_mem_nil⟩
  have hmagic : Block.magic freedHeap.vm.mem (blockOf 0x51d#64) = kheapMagic := by
    rw [show blockOf 0x51d#64 = kheapStart by decide, freedHeap, Vm.magic_setIsFree,
      busyHeap_magic]
  obtain ⟨s', hcall⟩ := kfree_of_magic hmagic
  rw [hcall] at hpanic
  exact absurd hpanic (by simp)

end FacelessOS
