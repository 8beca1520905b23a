import FacelessOS.Memory.FrameOwners

/-!
# The NULL page

`vmm_init` unmaps page 0, but `kheap_init` maps the page of `KHEAP_START`, which
is page 0, and so does every `kmalloc` while fewer than `0xb00` bytes are
allocated. What keeps page 0 unmapped is stated as a condition on each step
(`SparesNull`); every run that meets it leaves the page alone.
-/

namespace FacelessOS

open ByteStore RadixTree LinkedList Runs

/-- The walk for page 0 reaches no present leaf. -/
def NullUnmapped (s : Vm) : Prop := s.translate (pageOf 0) = none

/-! ## Conditions on a step -/

/-- This call of `map_page` stays away from page 0: it is asked for another page,
it is refused no frame and takes none of page 0, and no large page stands in the
way of its walks. -/
structure MapSparesNull (s : Vm) (a : U64) (fl : U32) : Prop where
  flags : VmmFlags fl
  page : pageOf a ≠ pageOf 0
  clear : ClearPath s a
  frames : ∀ s', MapsPage s a fl s' → s'.nulls = s.nulls ∧
    ∀ f ∈ s.newFrames s', pageOf f ≠ pageOf 0 ∧ ClearPath s f

/-- The header at `b` lies outside the tables and the frames still to be handed
out. -/
structure OffTables (s : Vm) (b : U64) : Prop where
  tables : ∀ q t, q.length ≤ 3 → s.table q = some t → Apart b headerSize t pageSize
  frames : ∀ pool, HandsOut s.pmm.gmmap pool → ∀ f ∈ pool,
    Apart b headerSize f pageSize

/-- This call of `kmalloc` stays away from page 0 and from the tables. -/
structure KmallocSparesNull (s : Kheap) (sz : U64) : Prop where
  maps : MapSparesNull s.vm (kheapStart + s.memAllocated) kheapFlags
  listed : ∀ b, Listed s.vm.mem b → OffTables s.vm b ∧
    Apart b headerSize (kheapStart + s.memAllocated + sz) headerSize
  place : OffTables s.vm (kheapStart + s.memAllocated + sz)

/-- The condition on a step. `kheap_init` never meets it. -/
def SparesNull (r : HeapRun) : KernelOp → Prop
  | .pmmAlloc => True
  | .pmmAllocz => takeFrame r.heap.vm.pmm.gmmap ≠ none
  | .mapPage a fl => MapSparesNull r.heap.vm a fl
  | .kheapInit => False
  | .kmalloc sz => KmallocSparesNull r.heap sz
  | .kfree p => ∀ q t, q.length ≤ 3 → r.heap.vm.table q = some t →
      Apart (p - sizeofBlock + 1#64) 1 t pageSize

theorem MapSparesNull.of_table {s : Vm} {a pt : U64} {fl : U32} (hfl : VmmFlags fl)
    (ha : pageOf a ≠ pageOf 0) (hpt : s.table (pageOf a).upper = some pt) :
    MapSparesNull s a fl := by
  refine ⟨hfl, ha, .of_table hpt, fun s' hcall => ?_⟩
  obtain ⟨hnull, hframes⟩ := hcall.frames_of_table hpt
  have hnew : s'.frames = [] ++ s.frames := hframes
  rw [Vm.newFrames_of_append hnew]
  exact ⟨hnull, fun f hf => absurd hf (by simp)⟩

/-! ## One step -/

/-- The tables form a tree, and page 0 is unmapped in it. -/
def NullTree (s : Vm) : Prop := (∃ pool, PageTree s pool) ∧ NullUnmapped s

theorem NullTree.of_mem {s s' : Vm} (h : NullTree s) (hpml4 : s'.pml4 = s.pml4)
    (hpmm : s'.pmm = s.pmm)
    (hmem : ∀ q t, q.length ≤ 3 → s.table q = some t →
      ∀ x, Within t pageSize x → s'.mem x = s.mem x) : NullTree s' := by
  obtain ⟨⟨pool, htree⟩, hnull⟩ := h
  obtain ⟨htree', -, htrans⟩ := htree.of_mem hpml4 (by rw [hpmm]; exact htree.handsOut)
    (List.Sublist.refl _) hmem
  exact ⟨⟨pool, htree'⟩, by rw [NullUnmapped, htrans]; exact hnull⟩

theorem NullTree.pmmAlloc {s : Vm} (h : NullTree s) : NullTree s.pmmAlloc.2 := by
  obtain ⟨⟨pool, htree⟩, hnull⟩ := h
  obtain ⟨used, rest, rfl, hrest, -⟩ := TakesInOrder.pmmAlloc s pool htree.handsOut
  have hpml4 : s.pmmAlloc.2.pml4 = s.pml4 := rfl
  obtain ⟨htree', -, htrans⟩ := htree.of_mem hpml4 hrest (List.sublist_append_right _ _)
    fun _ _ _ _ _ _ => rfl
  exact ⟨⟨rest, htree'⟩, by rw [NullUnmapped, htrans]; exact hnull⟩

theorem PageTree.mem_pmmAllocz {s : Vm} {gmmap : List MmapEntry} {pool : List U64} {f : U64}
    (h : PageTree s (f :: pool)) (hsome : takeFrame s.pmm.gmmap = some (f, gmmap)) :
    ∀ q t, q.length ≤ 3 → s.table q = some t →
      ∀ x, Within t pageSize x → s.pmmAllocz.2.mem x = s.mem x := by
  intro q t hq ht x hx
  have halloc : s.pmmAllocz.2 = s.pmmAlloc.2.memzero f pageSize := by
    rw [Vm.pmmAllocz, Vm.pmmAlloc_of_some hsome]
    rfl
  rw [halloc]
  refine fill_of_not_within fun hxf => ?_
  have htf : t ≠ f := by
    rintro rfl
    exact h.pool_fresh t List.mem_cons_self ⟨q, hq, ht⟩
  exact frames_apart (Vm.table_aligned h.root_aligned ht)
    (h.pool_frame f List.mem_cons_self).aligned htf x hx hxf

theorem PageTree.pmmAllocz_of_some {s : Vm} {gmmap : List MmapEntry} {pool : List U64} {f : U64}
    (h : PageTree s (f :: pool)) (hsome : takeFrame s.pmm.gmmap = some (f, gmmap))
    (hrest : HandsOut gmmap pool) : PageTree s.pmmAllocz.2 pool ∧
      (∀ q : List (Fin 512), q.length ≤ 3 → s.pmmAllocz.2.table q = s.table q) ∧
      s.pmmAllocz.2.translate = s.translate := by
  refine h.of_mem rfl ?_ (List.sublist_cons_self _ _) (h.mem_pmmAllocz hsome)
  have hgmmap : s.pmmAllocz.2.pmm.gmmap = gmmap := by
    rw [Vm.pmmAllocz, Vm.pmmAlloc_of_some hsome]
    rfl
  rwa [hgmmap]

theorem PageTree.pmmAllocz {s : Vm} {pool : List U64} (h : PageTree s pool)
    (hframe : takeFrame s.pmm.gmmap ≠ none) :
    ∃ pool', PageTree s.pmmAllocz.2 pool' ∧
      (∀ q : List (Fin 512), q.length ≤ 3 → s.pmmAllocz.2.table q = s.table q) ∧
      s.pmmAllocz.2.translate = s.translate := by
  cases hout : h.handsOut with
  | done hnone => exact absurd hnone hframe
  | page hsome hrest => exact ⟨_, h.pmmAllocz_of_some hsome hrest⟩

theorem NullTree.mapPage {s s' : Vm} {a : U64} {fl : U32} (h : NullTree s)
    (hspare : MapSparesNull s a fl) (hcall : MapsPage s a fl s') : NullTree s' := by
  obtain ⟨⟨pool, htree⟩, hnull⟩ := h
  obtain ⟨hnulls, hframes⟩ := hspare.frames s' hcall
  obtain ⟨fuel, hcall⟩ := hcall
  obtain ⟨used, pool', -, htree', hgrown⟩ := mapPage_grown htree hspare.flags
    hspare.clear hcall hnulls fun f hf => (hframes f hf).2
  rw [hgrown.newFrames] at hframes
  refine ⟨⟨pool', htree'⟩, ?_⟩
  unfold NullUnmapped
  by_contra hne
  obtain ⟨e, he⟩ := Option.ne_none_iff_exists'.mp hne
  rcases hgrown.translate_new he with hold | ⟨x, hx, hxv, -⟩
  · rw [hnull] at hold
    exact absurd hold (by simp)
  · rcases List.mem_cons.mp hx with rfl | hx
    · exact hspare.page hxv
    · exact (hframes x hx).1 hxv

def Vm.HeaderOff (s : Vm) (b : U64) : Prop :=
  ∀ q t, q.length ≤ 3 → s.table q = some t → Apart b headerSize t pageSize

theorem Grown.header {fl : U32} {used pages : List U64} {s s' : Vm} {b : U64}
    (hgrown : Grown fl used pages s s') (htables : s.HeaderOff b)
    (hframes : ∀ f ∈ used, Apart b headerSize f pageSize) :
    s'.HeaderOff b ∧ ∀ x, Within b headerSize x → s'.mem x = s.mem x := by
  have htables' : s'.HeaderOff b := by
    intro q t hq ht
    rcases hgrown.tables q t hq ht with hold | hused
    · exact htables q t hq hold
    · exact hframes t hused
  exact ⟨htables', fun x hx => hgrown.mem x fun q t hq ht => htables' q t hq ht x hx⟩

theorem OffTables.grown {fl : U32} {used pages pool pool' : List U64} {s s' : Vm} {b : U64}
    (h : OffTables s b) (htree : PageTree s pool) (hgrown : Grown fl used pages s s')
    (hpool : pool = used ++ pool') :
    s'.HeaderOff b ∧ ∀ x, Within b headerSize x → s'.mem x = s.mem x :=
  hgrown.header h.tables fun f hf =>
    h.frames pool htree.handsOut f (by rw [hpool]; exact List.mem_append_left _ hf)

theorem Allocates.tables_mem {vm : Vm} {m sz p : U64} {s' : Kheap}
    (h : Allocates vm m sz p s') (hlisted : ∀ b, Listed vm.mem b → vm.HeaderOff b)
    (hplace : ∀ fuel prev, m + sz < kheapLimit →
      firstFitLoop vm.mem fuel kheapStart 0#64 = some (0#64, prev) →
      prev + sizeofBlock * sizeofBlock ≤ kheapEnd →
      vm.HeaderOff (kheapStart + m + sz) ∧
        Apart prev headerSize (kheapStart + m + sz) headerSize) :
    ∀ q t, q.length ≤ 3 → vm.table q = some t →
      ∀ x, Within t pageSize x → s'.vm.mem x = vm.mem x := by
  intro q t hq ht x hx
  apply h.mem_eq
  · exact fun b hb hbx => hlisted b hb q t hq ht x hbx hx
  · intro fuel prev hlimit hloop hend
    obtain ⟨hoff, hapart⟩ := hplace fuel prev hlimit hloop hend
    exact ⟨fun hb => hoff q t hq ht x hb hx, hapart⟩

theorem NullTree.kmalloc {s s' : Kheap} {sz p : U64} (h : NullTree s.vm)
    (hspare : KmallocSparesNull s sz) (hcall : Kmallocs s sz p s') : NullTree s'.vm := by
  obtain ⟨vm, hvm, halloc⟩ := hcall.allocates
  have hnull := h.mapPage hspare.maps hvm
  obtain ⟨⟨pool, htree⟩, -⟩ := h
  obtain ⟨hnulls, hframes⟩ := hspare.maps.frames vm hvm
  obtain ⟨fuel, hfuel⟩ := hvm
  obtain ⟨used, pool', hpool, -, hgrown⟩ := mapPage_grown htree hspare.maps.flags
    hspare.maps.clear hfuel hnulls fun f hf => (hframes f hf).2
  have hgrow : ∀ b, Listed s.vm.mem b → vm.HeaderOff b ∧
      ∀ x, Within b headerSize x → vm.mem x = s.vm.mem x := fun b hb =>
    (hspare.listed b hb).1.grown htree hgrown hpool
  have hlisted : ∀ b, Listed vm.mem b → Listed s.vm.mem b := fun b hb =>
    hb.of_headers fun c hc => (hgrow c hc).2
  obtain ⟨hpml4, hpmm⟩ := halloc.vm_eq
  refine hnull.of_mem hpml4 hpmm (halloc.tables_mem ?_ ?_)
  · exact fun b hb => (hgrow b (hlisted b hb)).1
  · intro fuel prev _ hloop _
    have hprev := hlisted prev ((search_listed hloop).2 rfl).1
    exact ⟨(hspare.place.grown htree hgrown hpool).1, (hspare.listed prev hprev).2⟩

/-- **One step that stays away from page 0** leaves it unmapped. -/
theorem NullTree.step {r r' : HeapRun} {op : KernelOp} (h : NullTree r.heap.vm)
    (hspare : SparesNull r op) (hstep : KernelStep r op r') : NullTree r'.heap.vm := by
  cases hstep with
  | pmmAlloc => exact h.pmmAlloc
  | pmmAllocz =>
      obtain ⟨⟨pool, htree⟩, hnull⟩ := h
      obtain ⟨pool', htree', -, htrans⟩ := htree.pmmAllocz hspare
      exact ⟨⟨pool', htree'⟩, by rw [NullUnmapped, htrans]; exact hnull⟩
  | mapPage hcall => exact h.mapPage hspare hcall
  | kheapInit hcall => exact hspare.elim
  | kmalloc hcall => exact h.kmalloc hspare hcall
  | kfree hcall =>
      obtain rfl := kfree_ok hcall
      refine h.of_mem rfl rfl fun q t hq ht x hx => write_of_not_within fun hb => ?_
      exact hspare q t hq ht x hb hx

/-! ## Runs after `vmm_init` -/

theorem vmmInit_nullTree {s : Vm} {pool : List U64}
    (h : PageTree { s with pml4 := s.cr3 } pool) (hframe : takeFrame s.pmm.gmmap ≠ none)
    (hupper : (Vm.table { s with pml4 := s.cr3 } (pageOf 0).upper).isSome) :
    NullTree (vmmInit s) := by
  obtain ⟨pool', htree, htable, -⟩ := h.pmmAllocz hframe
  obtain ⟨pt, hpt⟩ := Option.isSome_iff_exists.mp hupper
  have hpt' := (htable (pageOf 0).upper (by simp)).trans hpt
  have hunmap := unmapPage_pageTree htree (a := 0) (by decide) hpt'
  have htrans := unmapPage_translate htree (a := 0) (by decide) hpt'
  have hnull : NullTree (unmapPage (Vm.pmmAllocz { s with pml4 := s.cr3 }).2 0).2 :=
    ⟨⟨pool', hunmap⟩, by rw [NullUnmapped, htrans, AddrSpace.unmap_self]⟩
  unfold vmmInit
  exact hnull.of_mem rfl rfl fun _ _ _ _ _ _ => rfl

/-- **The NULL page stays unmapped where no step goes near it.** In every run
after `vmm_init` whose steps meet `SparesNull`, page 0 is unmapped in every state
reached. -/
theorem nullUnmapped_of_spares {s : Vm} {pool : List U64} {m : U64} {r : HeapRun}
    {ops : List KernelOp} (h : PageTree { s with pml4 := s.cr3 } pool)
    (hframe : takeFrame s.pmm.gmmap ≠ none)
    (hupper : (Vm.table { s with pml4 := s.cr3 } (pageOf 0).upper).isSome)
    (hrun : Run (Guarded SparesNull KernelStep) ⟨⟨vmmInit s, m⟩, []⟩ ops r) :
    NullUnmapped r.heap.vm := by
  have hinv := hrun.guarded_invariant (P := fun r => NullTree r.heap.vm)
    (vmmInit_nullTree h hframe hupper) fun r op r' h hspare hstep => h.step hspare hstep
  exact hinv.2

/-! The tables of `lowPageVm`, found in `CR3` at boot. -/

def bootVm : Vm := { lowPageVm with pml4 := 0#64 }

theorem lowPageVm_entry {t : U64} (ht : PageAligned t) (i : Fin 512) :
    lowPageVm.entry t i = if t = 0x80003000#64 ∧ i = 0 then 0x3#64 else
      if t = 0x80002000#64 ∧ i = 0 then 0x80003003#64 else
      if t = 0x80001000#64 ∧ i = 0 then 0x80002003#64 else
      if t = 0x80000000#64 ∧ i = 0 then 0x80001003#64 else 0#64 := by
  rw [lowPageVm, Vm.entry_setEntry _ (by decide) ht, Vm.entry_setEntry _ (by decide) ht,
    Vm.entry_setEntry _ (by decide) ht, Vm.entry_setEntry _ (by decide) ht]
  rw [show (Vm.entry { emptyVm with pml4 := 0x80000000#64, cr3 := 0x80000000#64 } t i) =
    emptyVm.entry t i from rfl, emptyVm_entry]

theorem lowPageVm_child (i : Fin 512) :
    lowPageVm.child 0x80000000#64 i = (if i = 0 then some 0x80001000#64 else none) ∧
    lowPageVm.child 0x80001000#64 i = (if i = 0 then some 0x80002000#64 else none) ∧
    lowPageVm.child 0x80002000#64 i = (if i = 0 then some 0x80003000#64 else none) := by
  simp only [Vm.child]
  rw [lowPageVm_entry (by decide), lowPageVm_entry (by decide),
    lowPageVm_entry (by decide)]
  by_cases hi : i = 0 <;> simp only [hi, and_true, and_false, if_true, if_false] <;> decide

theorem lowPageVm_table {q : List (Fin 512)} {t : U64} (hq : q.length ≤ 3)
    (h : lowPageVm.table q = some t) : (q = [] ∧ t = 0x80000000#64) ∨
      (q = [0] ∧ t = 0x80001000#64) ∨ (q = [0, 0] ∧ t = 0x80002000#64) ∨
      (q = [0, 0, 0] ∧ t = 0x80003000#64) := by
  rw [Vm.table, show lowPageVm.pml4 = 0x80000000#64 from rfl] at h
  rcases q with _ | ⟨i, _ | ⟨j, _ | ⟨k, _ | ⟨l, q⟩⟩⟩⟩
  · exact Or.inl ⟨rfl, (Option.some.inj h).symm⟩
  · simp only [follow, (lowPageVm_child i).1] at h
    split at h <;> simp_all
  · simp only [follow, (lowPageVm_child i).1] at h
    split at h
    · simp only [Option.bind_some, (lowPageVm_child j).2.1] at h
      split at h <;> simp_all
    · simp at h
  · simp only [follow, (lowPageVm_child i).1] at h
    split at h
    · simp only [Option.bind_some, (lowPageVm_child j).2.1] at h
      split at h
      · simp only [Option.bind_some, (lowPageVm_child k).2.2] at h
        split at h <;> simp_all
      · simp at h
    · simp at h
  · -- no path is longer than three
    exact absurd hq (by simp)

theorem lowPageVm_pageTree : PageTree lowPageVm [0x2000, 0x3000, 0x4000] where
  root_aligned := by decide
  tree := by
    intro p q hp hq n hpn hqn
    rcases lowPageVm_table hp hpn with ⟨rfl, rfl⟩ | ⟨rfl, rfl⟩ | ⟨rfl, rfl⟩ | ⟨rfl, rfl⟩ <;>
      rcases lowPageVm_table hq hqn with ⟨rfl, hn⟩ | ⟨rfl, hn⟩ | ⟨rfl, hn⟩ | ⟨rfl, hn⟩ <;>
      simp_all
  handsOut := emptyVm_wellFormed.handsOut
  pool_nodup := emptyVm_wellFormed.pool_nodup
  pool_frame := (emptyVm_wellFormed.pageTree (by simp)).pool_frame
  pool_fresh := by
    rintro f hf ⟨q, hq, hqf⟩
    rcases lowPageVm_table hq hqf with ⟨-, rfl⟩ | ⟨-, rfl⟩ | ⟨-, rfl⟩ | ⟨-, rfl⟩ <;>
      simp at hf

theorem bootVm_upper :
    (Vm.table { bootVm with pml4 := bootVm.cr3 } (pageOf 0).upper).isSome := by
  decide +kernel

theorem nullUnmapped_of_spares_bootVm : ∃ r,
    Run KernelStep ⟨⟨vmmInit bootVm, 0#64⟩, []⟩ [.mapPage 0x5000 pageBitRwWritable] r ∧
    NullUnmapped r.heap.vm := by
  have hupper : ((vmmInit bootVm).table (pageOf 0x5000).upper).isSome := by
    decide +kernel
  obtain ⟨pt, hpt⟩ := Option.isSome_iff_exists.mp hupper
  have hstep : KernelStep ⟨⟨vmmInit bootVm, 0#64⟩, []⟩ (.mapPage 0x5000 pageBitRwWritable)
      _ := .mapPage ⟨1, mapPage_of_table hpt 0 _⟩
  have hspare : SparesNull ⟨⟨vmmInit bootVm, 0#64⟩, []⟩ (.mapPage 0x5000 pageBitRwWritable) :=
    MapSparesNull.of_table (by decide) (by decide) hpt
  exact ⟨_, Run.start.snoc hstep, nullUnmapped_of_spares (s := bootVm) lowPageVm_pageTree
    (by decide) bootVm_upper (Run.start.snoc ⟨hspare, hstep⟩)⟩

/-- The operations of a run after `vmm_init`; `map_page` is not asked for page 0. -/
def AfterInit : KernelOp → Prop
  | .mapPage a _ => 0x1000 ≤ a.toNat
  | .kheapInit | .kmalloc _ | .kfree _ => True
  | .pmmAlloc | .pmmAllocz => False

/-- `kheap_init` maps the NULL page that `vmm_init` had unmapped. -/
theorem kheapInit_maps_nullPage :
    ¬ ∀ (s : Vm) (pool : List U64) (r : HeapRun) (ops : List KernelOp),
      PageTree { s with pml4 := s.cr3 } pool →
      (Vm.table { s with pml4 := s.cr3 } (pageOf 0).upper).isSome →
      Run (Guarded (fun _ => AfterInit) KernelStep) ⟨⟨vmmInit s, 0#64⟩, []⟩ ops r →
      NullUnmapped r.heap.vm := by
  intro hclaim
  have hrun : (kheapInit 1 ⟨vmmInit bootVm, 0#64⟩).map
      (fun s => (s.vm.translate (pageOf 0)).isSome) = some true := by decide +kernel
  obtain ⟨s', hcall, hmapped⟩ := Option.map_eq_some_iff.mp hrun
  have hstep : KernelStep ⟨⟨vmmInit bootVm, 0#64⟩, []⟩ .kheapInit ⟨s', []⟩ :=
    .kheapInit ⟨1, hcall⟩
  have hguard : Guarded (fun _ => AfterInit) KernelStep
      ⟨⟨vmmInit bootVm, 0#64⟩, []⟩ .kheapInit ⟨s', []⟩ := ⟨trivial, hstep⟩
  have hnull := hclaim bootVm _ _ _ lowPageVm_pageTree bootVm_upper (Run.start.snoc hguard)
  rw [show (s'.vm.translate (pageOf 0)) = none from hnull] at hmapped
  exact absurd hmapped (by decide)

end FacelessOS
