import FacelessOS.Memory.HeapAccount
import FacelessOS.Memory.NullPage
import FacelessOS.Memory.Permissions

/-!
# Mapped heap memory

`first_fit` maps one page for each request, that of `KHEAP_START + mem_allocated`, while
header and data of the block it returns lie elsewhere: a new header at
`KHEAP_START + mem_allocated + size`, the data behind it, and a reused block wherever it
is. So a block is mapped when it is handed out if its pages happen to be covered
(`KmallocCovers`) and the heap's own stores spare the tables (`heapBytes_mapped`).
-/

namespace FacelessOS

open ByteStore RadixTree LinkedList Runs

def MappedWritable (s : Vm) (v : Page) : Prop :=
  (s.translate v).isSome = true ∧ s.Allows pageBitRwWritable v

/-- The call of `map_page` that a `kmalloc` makes in this state. -/
def MapsHeap (s : Kheap) (vm : Vm) : Prop :=
  MapsPage s.vm (kheapStart + s.memAllocated) kheapFlags vm

def EnoughFrames (s : Kheap) : Prop := ∀ vm, MapsHeap s vm → vm.nulls = s.vm.nulls

/-- That call takes this frame for a table. -/
def TakesFrame (s : Kheap) (f : U64) : Prop := ∃ vm, MapsHeap s vm ∧ f ∈ s.vm.newFrames vm

/-- That call leaves this page writable: it was, or it is fresh, the one asked for or that
of a frame taken, and the entries found on its way allow it. -/
def Covered (s : Kheap) (v : Page) : Prop :=
  MappedWritable s.vm v ∨ ∃ x, (x = kheapStart + s.memAllocated ∨ TakesFrame s x) ∧
    pageOf x = v ∧ s.vm.translate v = none ∧ UpperAllows s.vm pageBitRwWritable x

/-- Searching from here, `b` is the first free block. -/
inductive FindsFree (m : Store 64) : U64 → U64 → Prop where
  | here {b : U64} : b ≠ 0#64 → Block.isFree m b ≠ 0#8 → FindsFree m b b
  | skip {c b : U64} : c ≠ 0#64 → Block.isFree m c = 0#8 →
      FindsFree m (Block.next m c) b → FindsFree m c b

def BlockCovered (s : Kheap) (b sz : U64) : Prop :=
  ∀ x, Within b (headerSize + sz.toNat) x → Covered s (pageOf x)

/-- The header at `b` lies outside the tables, also the ones that the call makes. -/
structure OffHeapTables (s : Kheap) (b : U64) : Prop where
  tables : s.vm.HeaderOff b
  frames : ∀ f, TakesFrame s f → Apart b headerSize f pageSize

/-- This call of `kmalloc` has enough frames, stores into no table, and covers the pages
of the block that it returns: the first free one, or the one it makes. -/
structure KmallocCovers (s : Kheap) (sz : U64) : Prop where
  frames : EnoughFrames s
  listed : ∀ b, Listed s.vm.mem b → OffHeapTables s b
  reused : s.memAllocated + sz < kheapLimit → ∀ b, FindsFree s.vm.mem kheapStart b →
    BlockCovered s b sz
  place : s.memAllocated + sz < kheapLimit → (∀ b, ¬ FindsFree s.vm.mem kheapStart b) →
    LastIn s.vm.mem →
    OffHeapTables s (kheapStart + s.memAllocated + sz) ∧
    (∀ b, Listed s.vm.mem b →
      Apart b headerSize (kheapStart + s.memAllocated + sz) headerSize) ∧
    BlockCovered s (kheapStart + s.memAllocated + sz) sz

def HeapOp.Covers (r : HeapRun) : HeapOp → Prop
  | .kmalloc sz => KmallocCovers r.heap sz
  | .kfree p => ∀ q t, q.length ≤ 3 → r.heap.vm.table q = some t →
      Apart (blockOf p) 1 t pageSize

/-! ## The search -/

theorem FindsFree.congr {m m' : Store 64} {c b : U64} (h : FindsFree m c b)
    (hc : c = 0#64 ∨ Listed m c)
    (heq : ∀ b, Listed m b → ∀ x, Within b headerSize x → m' x = m x) :
    FindsFree m' c b := by
  induction h with
  | @here b hb hfree =>
      refine .here hb ?_
      rwa [isFree_congr (heq b (hc.resolve_left hb))]
  | @skip c b hne hbusy _ ih =>
      have hlisted := hc.resolve_left hne
      have hnext := next_congr (heq c hlisted)
      refine .skip hne ?_ ?_
      · rwa [isFree_congr (heq c hlisted)]
      · rw [hnext]
        apply ih
        by_cases hz : Block.next m c = 0#64
        · exact Or.inl hz
        · exact Or.inr (hlisted.next hz)

theorem findsFree_iff_of_headers {m m' : Store 64} {b : U64}
    (heq : ∀ c, Listed m c → ∀ x, Within c headerSize x → m' x = m x) :
    FindsFree m' kheapStart b ↔ FindsFree m kheapStart b := by
  have hstart : ∀ m : Store 64, kheapStart = 0#64 ∨ Listed m kheapStart :=
    fun m => Or.inr (.head (by decide))
  constructor
  · intro h
    exact h.congr (hstart m') fun c hc x hx => (heq c (hc.of_headers heq) x hx).symm
  · intro h
    exact h.congr (hstart m) heq

theorem firstFitLoop_findsFree {m : Store 64} {fuel : ℕ} {c prev b p : U64}
    (hloop : firstFitLoop m fuel c prev = some (b, p)) :
    (b ≠ 0#64 → FindsFree m c b) ∧ (b = 0#64 → ∀ x, ¬ FindsFree m c x) := by
  have hstops := firstFitLoop_stopsAt hloop
  clear hloop
  induction hstops with
  | atEnd hz =>
      refine ⟨fun hne => absurd hz hne, fun _ x hx => ?_⟩
      cases hx with
      | here hne _ => exact hne hz
      | skip hne _ _ => exact hne hz
  | atFree hne hfree => exact ⟨fun _ => .here hne hfree, fun hz => absurd hz hne⟩
  | skip hne hbusy _ ih =>
      obtain ⟨hfound, hnone⟩ := ih
      refine ⟨fun hb => .skip hne hbusy (hfound hb), fun hb x hx => ?_⟩
      cases hx with
      | here _ hfree => exact hfree hbusy
      | skip _ _ hrest => exact hnone hb x hrest

theorem firstFitLoop_succ {m : Store 64} {fuel : ℕ} {c prev : U64} {out : U64 × U64}
    (h : firstFitLoop m fuel c prev = some out) :
    firstFitLoop m (fuel + 1) c prev = some out := by
  induction fuel generalizing c prev with
  | zero => exact absurd h (by simp [firstFitLoop])
  | succ fuel ih =>
      rw [firstFitLoop] at h ⊢
      split
      · rename_i hz
        rwa [if_pos hz] at h
      · rename_i hne
        rw [if_neg hne] at h
        split
        · rename_i hbusy
          rw [if_pos hbusy] at h
          exact ih h
        · rename_i hfree
          rwa [if_neg hfree] at h

theorem firstFitLoop_mono {m : Store 64} {fuel fuel' : ℕ} {c prev : U64} {out : U64 × U64}
    (h : firstFitLoop m fuel c prev = some out) (hle : fuel ≤ fuel') :
    firstFitLoop m fuel' c prev = some out := by
  induction hle with
  | refl => exact h
  | step _ ih => exact firstFitLoop_succ ih

namespace FindsFree

variable {m : Store 64} {c b : U64}

theorem ne_zero (h : FindsFree m c b) : b ≠ 0#64 := by
  induction h with
  | here hb _ => exact hb
  | skip _ _ _ ih => exact ih

theorem isFree (h : FindsFree m c b) : Block.isFree m b ≠ 0#8 := by
  induction h with
  | here _ hfree => exact hfree
  | skip _ _ _ ih => exact ih

theorem search (h : FindsFree m c b) (prev : U64) :
    ∃ fuel last, firstFitLoop m fuel c prev = some (b, last) := by
  induction h generalizing prev with
  | here hb hfree => exact ⟨1, prev, by rw [firstFitLoop, if_neg hb, if_neg hfree]⟩
  | @skip c b hne hbusy _ ih =>
      obtain ⟨fuel, last, hloop⟩ := ih c
      exact ⟨fuel + 1, last, by rw [firstFitLoop, if_neg hne, if_pos hbusy, hloop]⟩

theorem listed (h : FindsFree m kheapStart b) : Listed m b := by
  obtain ⟨fuel, last, hloop⟩ := h.search 0#64
  exact (search_listed hloop).1 h.ne_zero

end FindsFree

/-- In front of a listed block there is a free one, or the search comes by that block. -/
theorem Listed.reached {m : Store 64} {b : U64} (h : Listed m b) :
    (∃ c, FindsFree m kheapStart c) ∨
      b ≠ 0#64 ∧ ∀ c, FindsFree m b c → FindsFree m kheapStart c := by
  induction h with
  | head hne => exact Or.inr ⟨hne, fun c hc => hc⟩
  | @next a _ hz ih =>
      rcases ih with hfound | ⟨hne, hpass⟩
      · exact Or.inl hfound
      · by_cases hbusy : Block.isFree m a = 0#8
        · exact Or.inr ⟨hz, fun c hc => hpass c (.skip hne hbusy hc)⟩
        · exact Or.inl ⟨a, hpass a (.here hne hbusy)⟩

theorem Listed.findsFree {m : Store 64} {b : U64} (h : Listed m b)
    (hfree : Block.isFree m b ≠ 0#8) : ∃ c, FindsFree m kheapStart c := by
  rcases h.reached with hfound | ⟨hne, hpass⟩
  · exact hfound
  · exact ⟨b, hpass b (.here hne hfree)⟩

theorem kmalloc_reuses {s : Kheap} {vm : Vm} {sz b : U64} (hvm : MapsHeap s vm)
    (hlimit : s.memAllocated + sz < kheapLimit) (hfind : FindsFree vm.mem kheapStart b) :
    Kmallocs s sz (Block.dataStart b)
      { vm := vm.setIsFree b 0#8, memAllocated := s.memAllocated + sz } := by
  obtain ⟨fuel, hvm⟩ := hvm
  obtain ⟨steps, last, hloop⟩ := hfind.search 0#64
  have hmap := mapPage_mono hvm (Nat.le_add_right fuel steps)
  have hsearch := firstFitLoop_mono hloop (Nat.le_add_left steps fuel)
  have hfit : firstFit (fuel + steps) s sz = some (b, { s with vm := vm }) := by
    rw [firstFit, hmap]
    simp only [Option.bind_eq_bind, Option.bind_some]
    rw [if_neg (BitVec.not_le.mpr hlimit), hsearch]
    simp only [Option.bind_some, if_pos hfind.ne_zero]
  refine ⟨fuel + steps, ?_⟩
  rw [kmalloc, hfit]
  simp only [Option.bind_eq_bind, Option.bind_some, if_neg hfind.ne_zero]

theorem kmalloc_appends {s : Kheap} {vm : Vm} {sz prev hole : U64} {fuel : ℕ}
    (hvm : MapsHeap s vm) (hlimit : s.memAllocated + sz < kheapLimit)
    (hloop : firstFitLoop vm.mem fuel kheapStart 0#64 = some (0#64, prev))
    (hend : prev + sizeofBlock * sizeofBlock ≤ kheapEnd)
    (hhole : Block.next (vm.appendBlock prev (kheapStart + s.memAllocated + sz) sz).mem prev
      = hole) (hne : hole ≠ 0#64) :
    Kmallocs s sz (Block.dataStart hole)
      { vm := (vm.appendBlock prev (kheapStart + s.memAllocated + sz) sz).setIsFree hole 0#8,
        memAllocated := s.memAllocated + sz } := by
  obtain ⟨steps, hvm⟩ := hvm
  have hmap := mapPage_mono hvm (Nat.le_add_right steps fuel)
  have hsearch := firstFitLoop_mono hloop (Nat.le_add_left fuel steps)
  refine ⟨steps + fuel, ?_⟩
  rw [kmalloc, firstFit, hmap]
  simp only [Option.bind_eq_bind, Option.bind_some]
  rw [if_neg (BitVec.not_le.mpr hlimit), hsearch]
  simp only [Option.bind_some, ne_eq, not_true_eq_false, if_false]
  rw [if_neg (BitVec.not_lt.mpr hend)]
  simp only [Option.bind_some]
  rw [hhole, if_neg hne]

/-! ## The tables under the heap -/

def HeapTables (s : Vm) : Prop := (∃ pool, PageTree s pool) ∧ ∀ x, ClearPath s x

theorem HeapTables.of_mem {s s' : Vm} (h : HeapTables s) (hpml4 : s'.pml4 = s.pml4)
    (hpmm : s'.pmm = s.pmm) (hmem : ∀ q t, q.length ≤ 3 → s.table q = some t →
      ∀ x, Within t pageSize x → s'.mem x = s.mem x) :
    HeapTables s' ∧ ∀ v, MappedWritable s v → MappedWritable s' v := by
  obtain ⟨⟨pool, htree⟩, hclear⟩ := h
  obtain ⟨htree', htable, htrans⟩ := htree.of_mem hpml4 (by rw [hpmm]; exact htree.handsOut)
    (List.Sublist.refl _) hmem
  constructor
  · refine ⟨⟨pool, htree'⟩, fun a q i hpre t ht hp => ?_⟩
    have hlen := hpre.length_le
    rw [List.length_append, List.length_singleton, Page.length_upper] at hlen
    rw [htable q (by omega)] at ht
    rw [htree.entry_of_mem hmem (by omega) ht] at hp ⊢
    exact hclear a q i hpre t ht hp
  · rintro v ⟨hsome, hallows⟩
    obtain ⟨e, he⟩ := Option.isSome_iff_exists.mp hsome
    exact ⟨by rwa [htrans], (htree.allows_of_mem htable hmem he).mpr hallows⟩

theorem HeapTables.mapPage {s s' : Vm} {a : U64} (h : HeapTables s)
    (hcall : MapsPage s a kheapFlags s') (hnull : s'.nulls = s.nulls) :
    ∃ used pool pool', PageTree s pool ∧ pool = used ++ pool' ∧ HeapTables s' ∧
      Grown (kheapFlags ||| pageBitPPresent) used (a :: used) s s' := by
  obtain ⟨⟨pool, htree⟩, hclear⟩ := h
  obtain ⟨fuel, hcall⟩ := hcall
  have hfl : VmmFlags kheapFlags := by decide
  obtain ⟨used, pool', hpool, htree', hgrown⟩ := mapPage_grown htree hfl (hclear a) hcall
    hnull fun f _ => hclear f
  exact ⟨used, pool, pool', htree, hpool,
    ⟨⟨pool', htree'⟩, fun x => hgrown.clearPath hfl.or_present (hclear x)⟩, hgrown⟩

/-- What is covered is what can be written to after the call of `map_page`. -/
theorem covered_iff {s : Kheap} {vm : Vm} {used : List U64} (hvm : MapsHeap s vm)
    (hgrown : Grown (kheapFlags ||| pageBitPPresent) used
      ((kheapStart + s.memAllocated) :: used) s.vm vm) {v : Page} :
    Covered s v ↔ MappedWritable vm v := by
  have htakes : ∀ x, TakesFrame s x ↔ x ∈ used := by
    intro x
    rw [← hgrown.newFrames]
    constructor
    · rintro ⟨vm', hvm', hx⟩
      rwa [hvm'.unique hvm] at hx
    · exact fun hx => ⟨vm, hvm, hx⟩
  unfold Covered MappedWritable
  rw [hgrown.permitted_iff List.mem_cons_self v]
  simp only [htakes, List.mem_cons]
  refine or_congr_right (exists_congr fun x => and_congr_right fun _ => and_congr_right ?_)
  rintro rfl
  exact (and_iff_right (by decide)).symm

theorem OffHeapTables.grown {s : Kheap} {vm : Vm} {fl : U32} {used pages : List U64} {b : U64}
    (h : OffHeapTables s b) (hvm : MapsHeap s vm) (hgrown : Grown fl used pages s.vm vm) :
    vm.HeaderOff b ∧ ∀ x, Within b headerSize x → vm.mem x = s.vm.mem x :=
  hgrown.header h.tables fun f hf => h.frames f ⟨vm, hvm, by rwa [hgrown.newFrames]⟩

/-! ## One step -/

/-- **One `kmalloc` that covers its block.** The tables stay tables, and the pages of the
block returned can be written to, from before the first store on. -/
theorem HeapTables.kmalloc {s s' : Kheap} {sz p : U64} (h : HeapTables s.vm)
    (hcovers : KmallocCovers s sz) (hcall : Kmallocs s sz p s') :
    HeapTables s'.vm ∧ (p ≠ 0#64 →
      ∃ vm, MapsHeap s vm ∧ ∀ x, Within (blockOf p) (headerSize + sz.toNat) x →
        MappedWritable vm (pageOf x) ∧ MappedWritable s'.vm (pageOf x)) := by
  obtain ⟨vm, hvm, halloc⟩ := hcall.allocates
  obtain ⟨used, -, -, -, -, htables, hgrown⟩ := h.mapPage hvm (hcovers.frames vm hvm)
  -- the list, and where its search ends, is the same after the call of `map_page`
  have hgrow : ∀ b, Listed s.vm.mem b → vm.HeaderOff b ∧
      ∀ x, Within b headerSize x → vm.mem x = s.vm.mem x := fun b hb =>
    (hcovers.listed b hb).grown hvm hgrown
  have hlisted : ∀ b, Listed vm.mem b → Listed s.vm.mem b := fun b hb =>
    hb.of_headers fun c hc => (hgrow c hc).2
  have hfinds : ∀ b, FindsFree vm.mem kheapStart b ↔ FindsFree s.vm.mem kheapStart b :=
    fun b => findsFree_iff_of_headers fun c hc => (hgrow c hc).2
  have hplace : ∀ fuel prev, s.memAllocated + sz < kheapLimit →
      firstFitLoop vm.mem fuel kheapStart 0#64 = some (0#64, prev) →
      prev + sizeofBlock * sizeofBlock ≤ kheapEnd →
      (vm.HeaderOff (kheapStart + s.memAllocated + sz) ∧
        Apart prev headerSize (kheapStart + s.memAllocated + sz) headerSize) ∧
        BlockCovered s (kheapStart + s.memAllocated + sz) sz := by
    intro fuel prev hlimit hloop hend
    have hnone : ∀ b, ¬ FindsFree s.vm.mem kheapStart b := fun b hb =>
      (firstFitLoop_findsFree hloop).2 rfl b ((hfinds b).mpr hb)
    obtain ⟨hlast, hnext⟩ := (search_listed hloop).2 rfl
    have hprev := hlisted prev hlast
    obtain ⟨hoff, hapart, hcover⟩ := hcovers.place hlimit hnone
      ⟨prev, hprev, by rw [← next_congr (hgrow prev hprev).2, hnext], hend⟩
    exact ⟨⟨(hoff.grown hvm hgrown).1, hapart prev hprev⟩, hcover⟩
  obtain ⟨hpml4, hpmm⟩ := halloc.vm_eq
  obtain ⟨htables', hkeep⟩ := htables.of_mem hpml4 hpmm (halloc.tables_mem
    (fun b hb => (hgrow b (hlisted b hb)).1)
    fun fuel prev hlimit hloop hend => (hplace fuel prev hlimit hloop hend).1)
  refine ⟨htables', fun hp => ⟨vm, hvm, ?_⟩⟩
  have hcovered : ∀ b, p = Block.dataStart b → BlockCovered s b sz → ∀ x,
      Within (blockOf p) (headerSize + sz.toNat) x →
      MappedWritable vm (pageOf x) ∧ MappedWritable s'.vm (pageOf x) := by
    rintro b rfl hcover x hx
    rw [blockOf_dataStart] at hx
    have hmapped := (covered_iff hvm hgrown).mp (hcover x hx)
    exact ⟨hmapped, hkeep _ hmapped⟩
  cases halloc with
  | rejected => exact absurd rfl hp
  | lost _ _ _ _ => exact absurd rfl hp
  | @reused fuel hole prev hlimit hloop hne =>
      exact hcovered hole rfl
        (hcovers.reused hlimit hole ((hfinds hole).mp ((firstFitLoop_findsFree hloop).1 hne)))
  | @appended fuel prev hole hlimit hloop hend hhole _ =>
      obtain ⟨⟨-, hapart⟩, hcover⟩ := hplace fuel prev hlimit hloop hend
      rw [Vm.next_appendBlock_prev hapart] at hhole
      exact hcovered hole rfl (by rw [← hhole]; exact hcover)

theorem HeapTables.step {r r' : HeapRun} {op : HeapOp} (h : HeapTables r.heap.vm)
    (hcovers : op.Covers r) (hstep : HeapStep r op r') : HeapTables r'.heap.vm := by
  cases hstep with
  | kmalloc hcall => exact (h.kmalloc hcovers hcall).1
  | @kfree p sz s' _ hcall =>
      obtain rfl := kfree_ok hcall
      refine And.left (h.of_mem rfl rfl fun q t hq ht x hx => ?_)
      exact write_of_not_within fun hb => hcovers q t hq ht x hb hx

/-! ## The first header -/

/-- The first header lies in page 0, which is no frame to hand out. -/
theorem offTables_kheapStart {s : Vm} {pool : List U64} (h : WellFormed s pool)
    (hzero : ∀ q t, q.length ≤ 3 → s.table q = some t → t ≠ 0#64) :
    OffTables s kheapStart := by
  have hframe : ∀ t : U64, PageAligned t → t ≠ 0#64 →
      Apart kheapStart headerSize t pageSize := by
    intro t ht hne x hx hy
    rw [within_frame ht] at hy
    rw [within_iff (by decide)] at hx
    have hpos : t.toNat ≠ 0 := fun hz => hne (BitVec.eq_of_toNat_eq hz)
    have hstart : kheapStart.toNat + headerSize ≤ pageSize := by decide
    unfold PageAligned at ht
    have hpage : pageSize ≤ t.toNat := Nat.le_of_dvd (by omega) (Nat.dvd_of_mod_eq_zero ht)
    omega
  refine ⟨fun q t hq ht => hframe t (Vm.table_aligned h.root_aligned ht) (hzero q t hq ht),
    fun pool' hout f hf => ?_⟩
  rw [hout.unique h.handsOut] at hf
  exact hframe f (h.pool_aligned f hf) (h.pool_ne_zero f hf)

theorem KheapInits.tables {s s' : Kheap} (hinit : KheapInits s s') (h : HeapTables s.vm)
    (hoff : OffTables s.vm kheapStart)
    (hframes : ∀ vm, MapsPage s.vm kheapStart kheapFlags vm → vm.nulls = s.vm.nulls) :
    HeapTables s'.vm := by
  obtain ⟨vm, hvm, hfirst, -⟩ := hinit.maps
  obtain ⟨used, pool, pool', htree, hpool, htables, hgrown⟩ := h.mapPage hvm (hframes vm hvm)
  refine And.left (htables.of_mem hfirst.pml4 hfirst.pmm fun q t hq ht x hx =>
    hfirst.mem x fun hb => ?_)
  exact (hoff.grown htree hgrown hpool).1 q t hq ht x hb hx

theorem PageTree.of_header {s s' : Vm} {pool : List U64} {b : U64} (h : PageTree s pool)
    (hpml4 : s'.pml4 = s.pml4) (hpmm : s'.pmm = s.pmm)
    (hoff : s.HeaderOff b)
    (hmem : ∀ x, ¬ Within b headerSize x → s'.mem x = s.mem x) :
    PageTree s' pool ∧ (∀ q : List (Fin 512), q.length ≤ 3 → s'.table q = s.table q) ∧
      s'.translate = s.translate :=
  h.of_mem hpml4 (by rw [hpmm]; exact h.handsOut) (List.Sublist.refl _)
    fun q t hq ht x hx => hmem x fun hb => hoff q t hq ht x hb hx

theorem PageTree.translate_setIsFree {s : Vm} {pool : List U64} {b : U64} (h : PageTree s pool)
    (v : U8) (hoff : s.HeaderOff b) :
    (s.setIsFree b v).translate = s.translate := by
  have hpml4 : (s.setIsFree b v).pml4 = s.pml4 := rfl
  have hpmm : (s.setIsFree b v).pmm = s.pmm := rfl
  exact (h.of_header hpml4 hpmm hoff fun x hx => Vm.mem_setIsFree hx).2.2

theorem pageOf_low {x : U64} (h : x.toNat < pageSize) : pageOf x = pageOf 0 := by
  have hidx : ∀ shift, 12 ≤ shift → tableIdx x shift = tableIdx 0 shift := by
    intro shift hshift
    apply Fin.ext
    have hpow : (2 : ℕ) ^ 12 ≤ 2 ^ shift := Nat.pow_le_pow_right (by decide) hshift
    unfold pageSize at h
    rw [tableIdx_val, tableIdx_val, Nat.div_eq_of_lt (by omega), Nat.div_eq_of_lt (by simp)]
  unfold pageOf pml4Idx pdptIdx pdIdx ptIdx
  rw [hidx 39 (by decide), hidx 30 (by decide), hidx 21 (by decide), hidx 12 (by decide)]

theorem lowPageVm_wellFormed : WellFormed lowPageVm [0x2000, 0x3000, 0x4000] := by
  refine WellFormed.of_pageTree lowPageVm_pageTree (fun q t i _ ht _ => ?_) (by simp)
  rw [lowPageVm_entry (Vm.table_aligned lowPageVm_pageTree.root_aligned ht)]
  split_ifs <;> decide

theorem lowPageVm_table_ne {q : List (Fin 512)} {t : U64} (hq : q.length ≤ 3)
    (ht : lowPageVm.table q = some t) : t ≠ 0#64 := by
  rcases lowPageVm_table hq ht with ⟨-, rfl⟩ | ⟨-, rfl⟩ | ⟨-, rfl⟩ | ⟨-, rfl⟩ <;> decide

theorem lowPageVm_writable : MappedWritable lowPageVm (pageOf 0) := by
  have hmapped := lowPageVm_mapped
  rw [pageOf_low (by decide)] at hmapped
  refine ⟨hmapped, ?_⟩
  obtain ⟨e, he⟩ := Option.isSome_iff_exists.mp hmapped
  obtain ⟨pt, hpt, -⟩ := Vm.translate_eq_some.mp he
  rw [Vm.allows_iff hpt]
  intro q i hpre t ht
  obtain ⟨u, hq, hu, -⟩ := Vm.present_of_translate he hpre
  have hentry := lowPageVm_entry (Vm.table_aligned lowPageVm_pageTree.root_aligned ht) i
  rw [show (pageOf 0).indices = [0, 0, 0, 0] by decide] at hpre
  rw [hentry]
  rcases lowPageVm_table hq ht with ⟨rfl, rfl⟩ | ⟨rfl, rfl⟩ | ⟨rfl, rfl⟩ | ⟨rfl, rfl⟩ <;>
    simp only [List.nil_append, List.cons_append, List.cons_prefix_cons] at hpre <;>
    obtain rfl : i = 0 := by tauto
  all_goals decide

theorem lowPageHeap_tables : lowPageHeap.vm.HeaderOff kheapStart ∧
    MappedWritable lowPageHeap.vm (pageOf 0) := by
  obtain ⟨vm, hvm, hfirst, -⟩ := lowPageHeap_inits.maps
  rw [hvm.of_mapped lowPageVm_mapped] at hfirst
  have hoff := (offTables_kheapStart lowPageVm_wellFormed fun q t => lowPageVm_table_ne).tables
  obtain ⟨-, htable, -⟩ := lowPageVm_pageTree.of_header hfirst.pml4 hfirst.pmm hoff hfirst.mem
  have htables : HeapTables lowPageVm :=
    ⟨⟨_, lowPageVm_pageTree⟩, lowPageVm_wellFormed.clearPath⟩
  obtain ⟨-, hkeep⟩ := htables.of_mem hfirst.pml4 hfirst.pmm fun q t hq ht x hx =>
    hfirst.mem x fun hb => hoff q t hq ht x hb hx
  refine ⟨fun q t hq ht => hoff q t hq ?_, hkeep _ lowPageVm_writable⟩
  rwa [htable q hq] at ht

theorem lowPageHeap_covers : KmallocCovers lowPageHeap 16#64 := by
  obtain ⟨htables, hlow⟩ := lowPageHeap_tables
  have hfree : FindsFree lowPageHeap.vm.mem kheapStart kheapStart :=
    .here (by decide) (by decide +kernel)
  have hmaps : ∀ vm, MapsHeap lowPageHeap vm → vm = lowPageHeap.vm := fun vm hvm =>
    MapsPage.of_mapped hvm (by decide +kernel)
  refine ⟨fun vm hvm => ?_, fun b hb => ?_, fun _ b hb => ?_, fun _ hnone _ => ?_⟩
  · rw [hmaps vm hvm]
  · have hchain := (lowPageHeap_inits.layout lowPageVm_zero lowPageVm_private).chain
    obtain rfl := List.mem_singleton.mp (hchain.listed_iff.mp hb)
    refine ⟨htables, ?_⟩
    rintro f ⟨vm, hvm, hf⟩
    rw [hmaps vm hvm, Vm.newFrames_of_append (l := []) rfl] at hf
    exact absurd hf (by simp)
  · cases hb with
    | here _ _ =>
        intro x hx
        have hbound : x.toNat < pageSize := by
          rw [within_iff (by decide)] at hx
          exact hx.2.trans (by decide)
        rw [pageOf_low hbound]
        exact Or.inl hlow
    | skip _ hbusy _ => exact absurd hbusy (by decide +kernel)
  · exact absurd hfree (hnone kheapStart)

theorem emptyVm_heapPages {vm : Vm} (hvm : MapsPage emptyVm kheapStart kheapFlags vm)
    (hnull : vm.nulls = 0) :
    (∃ pool, PageTree vm pool) ∧ (vm.translate (pageOf kheapStart)).isSome ∧
      vm.translate (pageOf 0x1000) = none ∧ vm.HeaderOff kheapStart := by
  have hoff := offTables_kheapStart emptyVm_wellFormed fun q t _ ht => by
    rw [(emptyVm_table ht).2]
    decide
  obtain ⟨used, pool', hgrown, htree, hused, hmapped⟩ := emptyVm_grown (by decide) hvm hnull
  refine ⟨⟨pool', htree⟩, hgrown.mapped _ List.mem_cons_self, ?_, ?_⟩
  · by_contra hne
    rcases hmapped _ hne with hpage | hpage | hpage | hpage <;> revert hpage <;> decide
  · exact (hgrown.header hoff.tables fun f hf =>
      hoff.frames _ emptyVm_wellFormed.handsOut f (hused f hf)).1

theorem kmalloc_first {s : Kheap} {sz : U64}
    (hmapped : (s.vm.translate (pageOf (kheapStart + s.memAllocated))).isSome)
    (hlimit : s.memAllocated + sz < kheapLimit)
    (hfree : Block.isFree s.vm.mem kheapStart ≠ 0#8) :
    Kmallocs s sz 0x51d#64
      { vm := s.vm.setIsFree kheapStart 0#8, memAllocated := s.memAllocated + sz } := by
  have hvm : MapsHeap s s.vm := ⟨1, mapPage_of_mapped hmapped 0 kheapFlags⟩
  exact kmalloc_reuses hvm hlimit (.here (by decide) hfree)

/-! ## Runs -/

/-- **A block is mapped when it is handed out where its pages are covered.** From
well-formed tables that do not use frame 0, in every run after `kheap_init` whose steps
meet the condition, each `kmalloc` that meets it and returns a block returns one whose
header and data can be written to, after its call of `map_page` already. -/
theorem heapBytes_mapped {s s₀ : Kheap} {pool : List U64} {r : HeapRun} {ops : List HeapOp}
    {sz p : U64} {s' : Kheap} (h : WellFormed s.vm pool)
    (hpool : ∀ f ∈ pool, f.toNat < 2 ^ 52)
    (hzero : ∀ q t, q.length ≤ 3 → s.vm.table q = some t → t ≠ 0#64)
    (hframes : ∀ vm, MapsPage s.vm kheapStart kheapFlags vm → vm.nulls = s.vm.nulls)
    (hinit : KheapInits s s₀) (hrun : Run (Guarded HeapOp.Covers HeapStep) ⟨s₀, []⟩ ops r)
    (hcovers : KmallocCovers r.heap sz) (hcall : Kmallocs r.heap sz p s')
    (hp : p ≠ 0#64) :
    ∃ vm, MapsHeap r.heap vm ∧ ∀ x, Within (blockOf p) (headerSize + sz.toNat) x →
      MappedWritable vm (pageOf x) ∧ MappedWritable s'.vm (pageOf x) := by
  have hstart : HeapTables s₀.vm := hinit.tables ⟨⟨pool, h.pageTree hpool⟩, h.clearPath⟩
    (offTables_kheapStart h hzero) hframes
  have hinv := hrun.guarded_invariant (P := fun r => HeapTables r.heap.vm) hstart
    fun r op r' h hcovers hstep => h.step hcovers hstep
  exact (hinv.kmalloc hcovers hcall).2 hp

theorem heapBytes_mapped_lowPageHeap : ∃ s' : Kheap,
    Kmallocs lowPageHeap 16#64 0x51d#64 s' ∧
    ∀ x, Within kheapStart (headerSize + 16) x → MappedWritable s'.vm (pageOf x) := by
  have hrun : (kmalloc 2 lowPageHeap 16#64).map Prod.fst = some 0x51d#64 := by decide +kernel
  obtain ⟨⟨p, s'⟩, hcall, rfl⟩ := Option.map_eq_some_iff.mp hrun
  have hcall' : Kmallocs lowPageHeap 16#64 0x51d#64 s' := ⟨2, hcall⟩
  obtain ⟨vm, -, hmapped⟩ := heapBytes_mapped (s := ⟨lowPageVm, 0#64⟩) lowPageVm_wellFormed
    (by simp) (fun q t => lowPageVm_table_ne)
    (fun vm hvm => by rw [hvm.of_mapped lowPageVm_mapped]) lowPageHeap_inits .start
    lowPageHeap_covers hcall' (by decide)
  exact ⟨s', hcall', fun x hx => (hmapped x hx).2⟩

/-- The data of a first block of two pages runs into the second page, which no call has
mapped. -/
theorem emptyVm_heapNotMapped :
    ¬ ∀ (s s₀ s' : Kheap) (pool : List U64) (r : HeapRun) (ops : List HeapOp) (sz p : U64),
      WellFormed s.vm pool → (∀ f ∈ pool, f.toNat < 2 ^ 52) →
      (∀ v e, (v.i4 : ℕ) < 256 → s.vm.translate v = some e →
        ∃ q t, q.length ≤ 3 ∧ s.vm.table q = some t ∧ v = pageOf t) →
      (∀ q t, q.length ≤ 3 → s.vm.table q = some t → t ≠ 0#64) → s.memAllocated = 0#64 →
      (∀ vm, MapsPage s.vm kheapStart kheapFlags vm → vm.nulls = s.vm.nulls) →
      KheapInits s s₀ →
      Run (Guarded (fun r _ => EnoughFrames r.heap) HeapStep) ⟨s₀, []⟩ ops r →
      EnoughFrames r.heap → Kmallocs r.heap sz p s' → p ≠ 0#64 →
      ∀ x, Within (blockOf p) (headerSize + sz.toNat) x →
        MappedWritable s'.vm (pageOf x) := by
  intro hclaim
  have hcall : (mapPage 6 emptyVm kheapStart kheapFlags).map Vm.nulls = some 0 := by
    decide +kernel
  obtain ⟨vm, hvm, hnull⟩ := Option.map_eq_some_iff.mp hcall
  have hmaps : ∀ vm', MapsPage emptyVm kheapStart kheapFlags vm' → vm' = vm :=
    fun vm' hvm' => hvm'.unique ⟨6, hvm⟩
  obtain ⟨s₀, hinit⟩ : ∃ s₀, KheapInits ⟨emptyVm, 0#64⟩ s₀ :=
    ⟨_, 6, by rw [kheapInit, hvm]; rfl⟩
  obtain ⟨vm', hvm', hheader, hm⟩ := hinit.maps
  obtain rfl := hmaps vm' hvm'
  obtain ⟨⟨pool, htree⟩, hfirst, hsecond, hoff⟩ := emptyVm_heapPages hvm' hnull
  obtain ⟨htree₀, htable₀, htrans₀⟩ := htree.of_header hheader.pml4 hheader.pmm hoff hheader.mem
  have hmapped : (s₀.vm.translate (pageOf (kheapStart + s₀.memAllocated))).isSome := by
    rw [htrans₀, hm]
    exact hfirst
  have hframes : EnoughFrames s₀ := fun vm'' hvm'' => by rw [hvm''.of_mapped hmapped]
  have hkmalloc : Kmallocs s₀ 0x2000#64 0x51d#64 _ :=
    kmalloc_first hmapped (by rw [hm]; decide) (by rw [hheader.isFree]; decide)
  have htrans := htree₀.translate_setIsFree (b := kheapStart) 0#8 fun q t hq ht =>
    hoff q t hq (by rwa [htable₀ q hq] at ht)
  obtain ⟨hpage, -⟩ := hclaim ⟨emptyVm, 0#64⟩ s₀ _ _ ⟨s₀, []⟩ [] 0x2000#64 0x51d#64
    emptyVm_wellFormed (by simp)
    (fun v e _ he => by rw [emptyVm_translate] at he; exact absurd he (by simp))
    (fun q t _ ht => by rw [(emptyVm_table ht).2]; decide) rfl
    (fun vm'' hvm'' => by rw [hmaps vm'' hvm'']; exact hnull) hinit .start hframes hkmalloc
    (by decide) 0x1000 (by decide)
  rw [htrans, htrans₀, hsecond] at hpage
  exact absurd hpage (by simp)

end FacelessOS
