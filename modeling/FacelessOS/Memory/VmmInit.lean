import FacelessOS.Memory.NullPage
import FacelessOS.Memory.SelfMapped

/-!
# Memory from boot on (`kernel.c`, `pmm.c`, `vmm.c`)

`vmm_init` takes a frame for `pml4` and then overwrites the pointer with `CR3`, so this frame
is lost; what it goes on with are the tables of the bootloader, where it unmaps page 0. All
of it is a call of `unmap_page` on tables that lost one free frame (`vmmInit_step`), and what
is known of runs of the memory functions holds from boot on: the lost frame is the only one
(`frames_accounted`), and no store is ever refused by the tables (`boot_stores_land`).
-/

namespace FacelessOS

open ByteStore RadixTree Runs

def Vm.loaded (s : Vm) : Vm := { s with pml4 := s.cr3 }

/-- What the bootloader leaves: its memory map, and in `CR3` a tree without large pages that
has tables for page 0 and lies outside of the usable memory. -/
structure BootTables (s : Vm) (mmap : List MmapEntry) : Prop where
  map : BootloaderMap mmap
  room : usablePages mmap ≠ []
  low : ∀ f ∈ usablePages mmap, f.toNat < 2 ^ 52
  root_aligned : PageAligned s.cr3
  tree : TreeShaped s.loaded.child s.cr3 3
  no_large : ∀ (q : List (Fin 512)) (t : U64) (i : Fin 512), q.length < 3 →
    s.loaded.table q = some t → present (s.loaded.entry t i) →
    largePage (s.loaded.entry t i) = false
  unusable : ∀ f ∈ usablePages mmap, ¬ IsTable s.loaded f
  null : (s.loaded.table (pageOf 0).upper).isSome

variable {s s' s'' : Vm} {mmap gmmap : List MmapEntry} {pool : List U64} {f : U64} {p : Pmm}
  {ss : List Stivale2Tag} {out : List LogCall} {ops : List VmOp} {op : VmOp}

theorem BootTables.wellFormed (h : BootTables s mmap) (hgmmap : s.pmm.gmmap = mmap) :
    WellFormed s.loaded (usablePages mmap) := by
  have htree : PageTree s.loaded (usablePages mmap) :=
    { root_aligned := h.root_aligned
      tree := h.tree
      handsOut := by
        show HandsOut s.pmm.gmmap _
        rw [hgmmap]
        exact handsOut_usablePages h.map.length_pages
      pool_nodup := h.map.pages_nodup
      pool_frame := fun f hf => isFrame_of_aligned (h.map.pages_aligned hf) (h.low f hf)
      pool_fresh := h.unusable }
  exact .of_pageTree htree h.no_large fun f hf => h.map.pages_ne_zero hf

/-! ## The frame that `vmm_init` takes -/

theorem WellFormed.pmmAllocz (h : WellFormed s (f :: pool))
    (hlow : ∀ g ∈ f :: pool, g.toNat < 2 ^ 52) :
    WellFormed s.pmmAllocz.2 pool ∧
      ∀ q : List (Fin 512), q.length ≤ 3 → s.pmmAllocz.2.table q = s.table q := by
  have htree := h.pageTree hlow
  cases hout : h.handsOut with
  | page hsome hrest =>
      have hmem := htree.mem_pmmAllocz hsome
      obtain ⟨htree', htable, -⟩ := htree.pmmAllocz_of_some hsome hrest
      refine ⟨.of_pageTree htree' ?_ fun g hg => h.pool_ne_zero g (List.mem_cons_of_mem _ hg),
        htable⟩
      intro q t i hq ht hp
      rw [htable q (by omega)] at ht
      rw [htree.entry_of_mem hmem (by omega) ht] at hp ⊢
      exact h.no_large q t i hq ht hp

theorem unmapPage_registers (s : Vm) (a : U64) :
    (unmapPage s a).2.pml4 = s.pml4 ∧ (unmapPage s a).2.cr3 = s.cr3 := by
  rw [unmapPage]
  split
  · exact ⟨rfl, rfl⟩
  · simp only
    split <;> exact ⟨rfl, rfl⟩

/-- `vmm_init` unmaps page 0 from the tables in use, when it has taken a frame. -/
theorem vmmInit_eq (s : Vm) : vmmInit s = (unmapPage s.loaded.pmmAllocz.2 0).2 := by
  obtain ⟨hpml4, hcr3⟩ := unmapPage_registers s.loaded.pmmAllocz.2 0
  have hsame : (unmapPage s.loaded.pmmAllocz.2 0).2.pml4 =
      (unmapPage s.loaded.pmmAllocz.2 0).2.cr3 := by
    rw [hpml4, hcr3]
    rfl
  have hinit : vmmInit s = { (unmapPage s.loaded.pmmAllocz.2 0).2 with
      cr3 := (unmapPage s.loaded.pmmAllocz.2 0).2.pml4 } := rfl
  rw [hinit, hsame]

theorem vmmInit_step (h : (s.loaded.pmmAllocz.2.table (pageOf 0).upper).isSome) :
    VmStep s.loaded.pmmAllocz.2 (.unmapPage 0) (vmmInit s) := by
  rw [vmmInit_eq]
  exact .unmapPage (by decide) h

theorem BootTables.adopted (h : BootTables s mmap) (hgmmap : s.pmm.gmmap = mmap) :
    ∃ lost pool, usablePages mmap = lost :: pool ∧
      WellFormed s.loaded.pmmAllocz.2 pool ∧
      (∀ q : List (Fin 512), q.length ≤ 3 →
        s.loaded.pmmAllocz.2.table q = s.loaded.table q) ∧
      VmStep s.loaded.pmmAllocz.2 (.unmapPage 0) (vmmInit s) := by
  obtain ⟨lost, pool, hpages⟩ := List.exists_cons_of_ne_nil h.room
  have hwf := h.wellFormed hgmmap
  have hlow := h.low
  rw [hpages] at hwf hlow
  obtain ⟨hwf', htable⟩ := hwf.pmmAllocz hlow
  refine ⟨lost, pool, hpages, hwf', htable, vmmInit_step ?_⟩
  rw [htable _ (by simp)]
  exact h.null

theorem gmmap_of_pmmInit (hmmap : getTag ss stivale2StructTagMemmapId = some (.memmap mmap))
    (hinit : pmmInit p ss = some (s.pmm, out)) : s.pmm.gmmap = mmap := by
  obtain ⟨p', out', hinit', hgmmap⟩ := pmmInit_gmmap p hmmap
  obtain ⟨rfl, -⟩ := Prod.mk.inj (Option.some.inj (hinit'.symm.trans hinit))
  exact hgmmap

theorem BootTables.maps_further (h : BootTables s mmap) (hgmmap : s.pmm.gmmap = mmap)
    {a : U64} (ha : a.toNat < 2 ^ 47) (hupper : (s.loaded.table (pageOf a).upper).isSome) :
    ∃ s', VmStep (vmmInit s) (.mapPage a pageBitRwWritable) s' := by
  obtain ⟨pt, hpt⟩ := Option.isSome_iff_exists.mp hupper
  obtain ⟨lost, pool, hpages, hwf, htable, hstep⟩ := h.adopted hgmmap
  have hgain := hstep.tablesGain hwf fun f hf => h.low f (by
    rw [hpages]
    exact List.mem_cons_of_mem _ hf)
  have hpt' := hgain.keep (pageOf a).upper pt (by simp) ((htable _ (by simp)).trans hpt)
  have hcall : MapsPage (vmmInit s) a pageBitRwWritable _ := ⟨1, mapPage_of_table hpt' 0 _⟩
  exact ⟨_, .mapPage ha (by decide) hcall (hcall.frames_of_table hpt').1⟩

/-- **Boot loses one frame and nothing else.** In every state of a run of the memory
functions after `pmm_init` and `vmm_init`, the usable frames are the one that `vmm_init` had
taken for `pml4`, which is no table and is never handed out again, those that became tables,
and those still to be handed out, none of them twice; and every table is the table of
exactly one path. -/
theorem frames_accounted
    (hmmap : getTag ss stivale2StructTagMemmapId = some (.memmap mmap))
    (hinit : pmmInit p ss = some (s.pmm, out)) (hboot : BootTables s mmap)
    (hrun : Run VmStep (vmmInit s) ops s') :
    ∃ lost tables free, usablePages mmap = lost :: (tables ++ free) ∧
      (lost :: (tables ++ free)).Nodup ∧
      HandsOut s'.pmm.gmmap free ∧
      (∀ f, IsTable s' f ↔ IsTable s.loaded f ∨ f ∈ tables) ∧
      (∀ f ∈ lost :: free, ¬ IsTable s' f) ∧
      ∀ f, IsTable s' f → ∃! q, q.length ≤ 3 ∧ s'.table q = some f := by
  obtain ⟨lost, pool, hpages, hwf, htable, hstep⟩ := hboot.adopted (gmmap_of_pmmInit hmmap hinit)
  have hlow : ∀ f ∈ pool, f.toNat < 2 ^ 52 := fun f hf => hboot.low f (by
    rw [hpages]
    exact List.mem_cons_of_mem _ hf)
  have hall : Run VmStep s.loaded.pmmAllocz.2 (.unmapPage 0 :: ops) s' :=
    (Run.start.snoc hstep).trans hrun
  obtain ⟨free, rfl, hwf', hgain⟩ := tablesGain_run hall hwf hlow
  have hnodup := hboot.map.pages_nodup
  rw [hpages] at hnodup
  have htables : ∀ f, IsTable s' f ↔
      IsTable s.loaded f ∨ f ∈ s.loaded.pmmAllocz.2.newFrames s' := by
    intro f
    rw [hgain.gain]
    apply or_congr_left
    exact exists_congr fun q => and_congr_right fun hq => Eq.congr_left (htable q hq)
  refine ⟨lost, _, free, hpages, hnodup, hwf'.handsOut, htables, fun f hf => ?_,
    fun f hf => hf.existsUnique (hwf'.pageTree fun f hf => hlow f (List.mem_append_right _ hf))⟩
  obtain ⟨hlost, hpool⟩ := List.nodup_cons.mp hnodup
  rw [htables, not_or]
  rcases List.mem_cons.mp hf with rfl | hf
  · refine ⟨hboot.unusable f ?_, fun hmem => hlost (List.mem_append_left _ hmem)⟩
    rw [hpages]
    exact List.mem_cons_self
  · refine ⟨hboot.unusable f ?_, fun hmem => ?_⟩
    · rw [hpages]
      exact List.mem_cons_of_mem _ (List.mem_append_right _ hf)
    · exact (List.nodup_append.mp hpool).2.2 f hmem f hf rfl

/-- The tables of `emptyVm_selfMapped` in `CR3` at boot, and one usable frame. -/
def bootMap : List MmapEntry := [⟨0x5000, 0x1000, stivale2MmapUsable⟩]

theorem bootMap_bootloaderMap : BootloaderMap bootMap where
  base_ne_zero := by decide
  base_aligned := by decide
  length_pages := by unfold PageMultiple; decide
  no_wrap := by decide
  disjoint := List.pairwise_singleton _ _

theorem bootMap_usablePages : usablePages bootMap = [0x5000] := by decide

theorem selfMapped_boot : ∃ s out,
    pmmInit ⟨[], 0, 0, 0⟩ [.memmap bootMap] = some (s.pmm, out) ∧ BootTables s bootMap ∧
    TablesLand s.loaded ∧ SparesFrames s.loaded (.unmapPage 0) ∧
    (s.loaded.table (pageOf 0x6000).upper).isSome := by
  obtain ⟨s, pt, hrun, hpt, hland, hlands⟩ := emptyVm_selfMapped
  have hlow : ∀ f ∈ ([0x2000, 0x3000, 0x4000] : List U64), f.toNat < 2 ^ 52 := by simp
  obtain ⟨rest, hpool, hwf, hgain⟩ := tablesGain_run hrun emptyVm_wellFormed hlow
  obtain ⟨p, out, hinit, hp⟩ := pmmInit_gmmap ⟨[], 0, 0, 0⟩
    (show getTag [.memmap bootMap] stivale2StructTagMemmapId = _ from rfl)
  have htables : ∀ f, IsTable s f → f ∈ ([0x1000, 0x2000, 0x3000, 0x4000] : List U64) := by
    intro f hf
    rcases (hgain.gain f).mp hf with ⟨q, -, hq⟩ | hf
    · rw [(emptyVm_table hq).2]
      exact List.mem_cons_self
    · refine List.mem_cons_of_mem _ ?_
      rw [hpool]
      exact List.mem_append_left _ hf
  have hframes : ∀ f, TableOrFree { s with cr3 := s.pml4, pmm := p } f →
      IsTable s f ∨ f = 0x5000 := by
    rintro f (hf | ⟨pool, hout, hf⟩)
    · exact Or.inl hf
    · have hpages := hout.unique (handsOut_usablePages (hp ▸ bootMap_bootloaderMap.length_pages))
      rw [hpages, hp, bootMap_usablePages] at hf
      exact Or.inr (List.mem_singleton.mp hf)
  have htree := hwf.pageTree fun f hf => hlow f (by
    rw [hpool]
    exact List.mem_append_right _ hf)
  refine ⟨{ s with pml4 := 0, cr3 := s.pml4, pmm := p }, out, hinit, ?_, fun f hf => ?_,
    fun f hf => ?_, ?_⟩
  · exact
      { map := bootMap_bootloaderMap
        room := by decide
        low := by
          rw [bootMap_usablePages]
          simp
        root_aligned := htree.root_aligned
        tree := htree.tree
        no_large := hwf.no_large
        unusable := by
          intro f hf htable
          rw [bootMap_usablePages] at hf
          rw [List.mem_singleton.mp hf] at htable
          have hmem := htables _ htable
          revert hmem
          decide
        null := Option.isSome_iff_exists.mpr ⟨pt, hpt⟩ }
  · rcases hframes f hf with hf | rfl
    · exact hland f (Or.inl hf)
    · exact hlands
  · show pageOf 0 ≠ pageOf f
    rcases hframes f hf with hf | rfl
    · have hmem := htables f hf
      simp only [List.mem_cons, List.not_mem_nil, or_false] at hmem
      rcases hmem with rfl | rfl | rfl | rfl <;> decide
    · decide
  · exact Option.isSome_iff_exists.mpr ⟨pt, hpt⟩

/-- A run of one call: the one usable frame is lost, and the call is not in need of another.
-/
theorem frames_accounted_bootMap : ∃ s s',
    VmStep (vmmInit s) (.mapPage 0x6000 pageBitRwWritable) s' ∧
    HandsOut s'.pmm.gmmap [] ∧ ¬ IsTable s' 0x5000 := by
  obtain ⟨s, out, hinit, hboot, -, -, hupper⟩ := selfMapped_boot
  obtain ⟨s', hstep⟩ := hboot.maps_further (gmmap_of_pmmInit rfl hinit) (by decide) hupper
  obtain ⟨lost, tables, free, hpages, -, hout, -, hnot, -⟩ :=
    frames_accounted rfl hinit hboot (Run.start.snoc hstep)
  rw [bootMap_usablePages] at hpages
  obtain ⟨rfl, hnil⟩ := List.cons.inj hpages
  rw [(List.append_eq_nil_iff.mp hnil.symm).2] at hout
  exact ⟨s, s', hstep, hout, hnot _ List.mem_cons_self⟩

/-! ## Where the stores are -/

theorem newStores_pmmAllocz {addr : U64} {n : ℕ} (hframe : takeFrame s.pmm.gmmap = some (f, gmmap))
    (htrace : s.pmmAllocz.2.trace <:+ s'.trace) (hmem : .stored addr n ∈ s.newEvents s') :
    addr = f ∧ n = pageSize ∨ .stored addr n ∈ s.pmmAllocz.2.newEvents s' := by
  obtain ⟨l, hl⟩ := htrace
  have halloc : s.pmmAllocz.2.trace = [.stored f pageSize, .pmmAlloc (some f)] ++ s.trace := by
    rw [Vm.pmmAllocz, Vm.pmmAlloc_of_some hframe]
    rfl
  rw [Vm.newEvents_of_append hl.symm]
  rw [halloc, ← List.append_assoc] at hl
  rw [Vm.newEvents_of_append hl.symm, List.mem_append] at hmem
  rcases hmem with hmem | hmem
  · exact Or.inr hmem
  · exact Or.inl (by simpa using hmem)

theorem WellFormed.pmmAllocz_lands (h : WellFormed s (f :: pool))
    (hlow : ∀ g ∈ f :: pool, g.toNat < 2 ^ 52) :
    (∀ g, TableOrFree s.pmmAllocz.2 g → TableOrFree s g) ∧
      ∀ x, Lands s.pmmAllocz.2 x ↔ Lands s x := by
  have htree := h.pageTree hlow
  cases hout : h.handsOut with
  | page hsome hrest =>
      have hmem := htree.mem_pmmAllocz hsome
      obtain ⟨htree', htable, htranslate⟩ := htree.pmmAllocz_of_some hsome hrest
      constructor
      · rintro g (⟨q, hq, hqg⟩ | ⟨pool', hout', hg⟩)
        · exact Or.inl ⟨q, hq, (htable q hq).symm.trans hqg⟩
        · rw [hout'.unique htree'.handsOut] at hg
          exact Or.inr ⟨_, h.handsOut, List.mem_cons_of_mem _ hg⟩
      · intro x
        unfold Lands
        rw [htranslate]
        apply exists_congr
        intro e
        apply and_congr_right
        intro he
        rw [htree.allows_of_mem htable hmem he]

theorem VmStep.in_use (hstep : VmStep s op s') (h : WellFormed s pool)
    (hpool : ∀ f ∈ pool, f.toNat < 2 ^ 52) (huse : s.cr3 = s.pml4) : s'.cr3 = s'.pml4 := by
  cases hstep with
  | mapPage _ hfl hcall hnull =>
      obtain ⟨used, pool', -, -, -, hgrown⟩ := h.mapPage_grown hpool hfl hcall hnull
      rw [hgrown.cr3, hgrown.pml4, huse]
  | unmapPage ha hup =>
      obtain ⟨hpml4, hcr3⟩ := unmapPage_registers s _
      rw [hcr3, hpml4, huse]

theorem in_use_run (hrun : Run VmStep s ops s') (h : WellFormed s pool)
    (hpool : ∀ f ∈ pool, f.toNat < 2 ^ 52) (huse : s.cr3 = s.pml4) : s'.cr3 = s'.pml4 := by
  obtain ⟨-, huse'⟩ := hrun.invariant
    (P := fun s => (∃ pool, WellFormed s pool ∧ ∀ f ∈ pool, f.toNat < 2 ^ 52) ∧ s.cr3 = s.pml4)
    ⟨⟨pool, h, hpool⟩, huse⟩
    fun s op s' ⟨⟨pool₁, hwf, hlow⟩, huse⟩ hstep => by
      obtain ⟨pool₂, hsuf, hwf'⟩ := hstep.wellFormed hwf hlow
      exact ⟨⟨pool₂, hwf', fun f hf => hlow f (hsuf.mem hf)⟩, hstep.in_use hwf hlow huse⟩
  exact huse'

/-- **No store of the memory functions faults, from boot on.** If the bootloader has mapped
its tables and the usable frames to themselves, and none of them as page 0, every byte that
`vmm_init` stores is mapped to itself for writing; so is every byte of every later call in
a run that unmaps none of them, and the tables that say so are the ones in use. -/
theorem boot_stores_land
    (hmmap : getTag ss stivale2StructTagMemmapId = some (.memmap mmap))
    (hinit : pmmInit p ss = some (s.pmm, out)) (hboot : BootTables s mmap)
    (hland : TablesLand s.loaded) (hspare : SparesFrames s.loaded (.unmapPage 0))
    (hrun : Run (Guarded SparesFrames VmStep) (vmmInit s) ops s') (hstep : VmStep s' op s'') :
    (∀ addr n, .stored addr n ∈ s.newEvents (vmmInit s) →
      ∀ x, Within addr n x → Lands s.loaded x) ∧
    s'.cr3 = s'.pml4 ∧
    ∀ addr n, .stored addr n ∈ s'.newEvents s'' → ∀ x, Within addr n x → Lands s' x := by
  have hgmmap := gmmap_of_pmmInit hmmap hinit
  obtain ⟨lost, pool, hpages, hwf, -, hfirst⟩ := hboot.adopted hgmmap
  have hloaded := hboot.wellFormed hgmmap
  have hlow := hboot.low
  rw [hpages] at hloaded hlow
  have hlow' : ∀ f ∈ pool, f.toNat < 2 ^ 52 := fun f hf => hlow f (List.mem_cons_of_mem _ hf)
  obtain ⟨hfree, hlands⟩ := hloaded.pmmAllocz_lands hlow
  have hland' : TablesLand s.loaded.pmmAllocz.2 := fun f hf =>
    (hlands f).mpr (hland f (hfree f hf))
  have hspare' : SparesFrames s.loaded.pmmAllocz.2 (.unmapPage 0) := fun f hf =>
    hspare f (hfree f hf)
  have hall : Run (Guarded SparesFrames VmStep) s.loaded.pmmAllocz.2 (.unmapPage 0 :: ops) s' :=
    (Run.start.snoc ⟨hspare', hfirst⟩).trans hrun
  refine ⟨fun addr n hmem x hx => ?_, ?_, fun addr n hmem x hx => ?_⟩
  · cases hout : hloaded.handsOut with
    | page hframe _ =>
        obtain ⟨l, hl, -⟩ := hfirst.storesIn hwf hlow'
        rcases newStores_pmmAllocz hframe ⟨l, hl.symm⟩ hmem with ⟨rfl, rfl⟩ | hmem
        · have hold : TableOrFree s.loaded addr :=
            Or.inr ⟨_, hloaded.handsOut, List.mem_cons_self⟩
          exact (hland addr hold).of_within (hloaded.pool_aligned addr List.mem_cons_self) hx
        · exact (hlands x).mp (hfirst.newStores_land hwf hlow' hland' hmem hx)
  · exact in_use_run (hall.mono fun _ _ _ h => h.2) hwf hlow' rfl
  · obtain ⟨rest, hwf', hlow'', hland''⟩ := tablesLand_run hall hwf hlow' hland'
    exact hstep.newStores_land hwf' hlow'' hland'' hmem hx

theorem boot_stores_land_bootMap : ∃ s s',
    VmStep (vmmInit s) (.mapPage 0x6000 pageBitRwWritable) s' ∧
    (∀ addr n, .stored addr n ∈ s.newEvents (vmmInit s) →
      ∀ x, Within addr n x → Lands s.loaded x) ∧
    ∀ addr n, .stored addr n ∈ (vmmInit s).newEvents s' →
      ∀ x, Within addr n x → Lands (vmmInit s) x := by
  obtain ⟨s, out, hinit, hboot, hland, hspare, hupper⟩ := selfMapped_boot
  obtain ⟨s', hstep⟩ := hboot.maps_further (gmmap_of_pmmInit rfl hinit) (by decide) hupper
  obtain ⟨hinits, -, hcall⟩ := boot_stores_land rfl hinit hboot hland hspare .start hstep
  exact ⟨s, s', hstep, hinits, hcall⟩

end FacelessOS
