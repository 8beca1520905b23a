import FacelessOS.Memory.MapPageOrder

/-!
# The frames of the tables

Nothing gives a table back: `unmap_page` empties a leaf entry and leaves the tables above
it. So the frames that the allocator has handed out for tables are accounted for at any
time, each of them a table at one place of the tree, and no two calls ever took the same
one (`tables_conserved`).
-/

namespace FacelessOS

open RadixTree Runs

def IsTable (s : Vm) (f : U64) : Prop := Reached s.child s.pml4 3 f

/-- Between the two states the frames handed out became tables, and nothing else did; every
table stayed where it was. -/
structure TablesGain (s s' : Vm) : Prop where
  trace : s.trace <:+ s'.trace
  keep : ∀ q t, q.length ≤ 3 → s.table q = some t → s'.table q = some t
  gain : ∀ f, IsTable s' f ↔ IsTable s f ∨ f ∈ s.newFrames s'

theorem newFrames_of_same {s s' : Vm} (h : s'.frames = s.frames) : s.newFrames s' = [] :=
  Vm.newFrames_of_append (l := []) h

namespace TablesGain

variable {s s' s'' : Vm}

theorem refl (s : Vm) : TablesGain s s := by
  refine ⟨List.suffix_refl _, fun _ _ _ ht => ht, fun f => ?_⟩
  rw [newFrames_of_same rfl]
  exact (or_iff_left List.not_mem_nil).symm

theorem trans (h : TablesGain s s') (h' : TablesGain s' s'') : TablesGain s s'' := by
  refine ⟨h.trace.trans h'.trace, fun q t hq ht => h'.keep q t hq (h.keep q t hq ht),
    fun f => ?_⟩
  rw [h'.gain, h.gain, Vm.newFrames_trans h.trace h'.trace, List.mem_append, or_assoc]

theorem mapPage {pool : List U64} {a : U64} {fl : U32} (h : PageTree s pool)
    (hclear : ∀ x, ClearPath s x) (hfl : VmmFlags fl) (hcall : MapsPage s a fl s')
    (hnull : s'.nulls = s.nulls) : TablesGain s s' := by
  obtain ⟨fuel, hcall⟩ := hcall
  have hserve := mapPage_serves fuel hfl.or_present (hasPresent_or fl) s pool a s' h hclear
    (by rw [mapPage_or_present]; exact hcall)
  obtain ⟨used, rest, pages, paths, -, hs⟩ := hserve.served hnull
  refine ⟨mapPage_trace hcall, fun q t hq ht => (hs.grown.keep q t hq ht).1, fun f => ?_⟩
  rw [hs.grown.newFrames]
  constructor
  · rintro ⟨q, hq, hf⟩
    exact (hs.grown.tables q f hq hf).imp_left fun hold => ⟨q, hq, hold⟩
  · rintro (⟨q, hq, hf⟩ | hf)
    · exact ⟨q, hq, (hs.grown.keep q f hq hf).1⟩
    · -- each frame taken is the table at one of the paths served
      have hmem : some f ∈ paths.map s'.table := by
        rw [hs.tables]
        exact List.mem_map_of_mem hf
      obtain ⟨q, hq, hqf⟩ := List.mem_map.mp hmem
      exact ⟨q, hs.made.path_length hq, hqf⟩

theorem setLeaf {pool : List U64} {q₀ : List (Fin 512)} {t : U64} (h : PageTree s pool)
    (hq₀ : q₀.length = 3) (ht : s.table q₀ = some t) (i : Fin 512) (e : U64) :
    TablesGain s (s.setEntry t i e) := by
  have htable := table_setLeaf h hq₀ ht i e
  have hframes : s.newFrames (s.setEntry t i e) = [] := newFrames_of_same rfl
  refine ⟨List.suffix_cons _ _, fun q t hq ht => (htable q hq).trans ht, fun f => ?_⟩
  rw [hframes, or_iff_left List.not_mem_nil]
  refine exists_congr fun q => and_congr_right fun hq => ?_
  exact Eq.congr_left (htable q hq)

theorem unmapPage {pool : List U64} {a pt : U64} (h : PageTree s pool) (ha : PageAligned a)
    (hpt : s.table (pageOf a).upper = some pt) :
    TablesGain s (FacelessOS.unmapPage s a).2 := by
  rw [unmapPage_of_table ha hpt]
  split
  · exact setLeaf h (Page.length_upper _) hpt _ _
  · exact refl s

end TablesGain

/-- **One step** turns the frames it takes into tables. -/
theorem VmStep.tablesGain {s s' : Vm} {op : VmOp} {pool : List U64}
    (hstep : VmStep s op s') (h : WellFormed s pool) (hpool : ∀ f ∈ pool, f.toNat < 2 ^ 52) :
    TablesGain s s' := by
  have htree := h.pageTree hpool
  cases hstep with
  | mapPage _ hfl hcall hnull => exact .mapPage htree h.clearPath hfl hcall hnull
  | @unmapPage a ha hup =>
      obtain ⟨pt, hpt⟩ := Option.isSome_iff_exists.mp hup
      exact .unmapPage htree ha hpt

theorem VmStep.takesInOrder {s s' : Vm} {op : VmOp} (hstep : VmStep s op s') :
    TakesInOrder s s' := by
  cases hstep with
  | mapPage _ _ hcall _ => exact .mapPage hcall
  | @unmapPage a ha hup =>
      obtain ⟨pt, hpt⟩ := Option.isSome_iff_exists.mp hup
      rw [unmapPage_of_table ha hpt]
      split
      · exact .of_same rfl rfl
      · exact .of_same rfl rfl

/-- **A run** turns the frames it takes into tables; they come off the front of the free list.
-/
theorem tablesGain_run {s₀ s : Vm} {pool : List U64} {ops : List VmOp}
    (hrun : Run VmStep s₀ ops s) (h : WellFormed s₀ pool)
    (hpool : ∀ f ∈ pool, f.toNat < 2 ^ 52) :
    ∃ rest, pool = s₀.newFrames s ++ rest ∧ WellFormed s rest ∧ TablesGain s₀ s := by
  obtain ⟨⟨pool₁, -, hwf⟩, htakes, hgain⟩ := hrun.invariant
    (P := fun s => (∃ pool', pool' <:+ pool ∧ WellFormed s pool') ∧ TakesInOrder s₀ s ∧
      TablesGain s₀ s)
    ⟨⟨pool, List.suffix_refl _, h⟩, .of_same rfl rfl, .refl s₀⟩
    fun s op s' ⟨⟨pool₁, hsuf, hwf⟩, htakes, hgain⟩ hstep => by
      have hlow : ∀ f ∈ pool₁, f.toNat < 2 ^ 52 := fun f hf => hpool f (hsuf.mem hf)
      obtain ⟨pool₂, hsuf', hwf'⟩ := hstep.wellFormed hwf hlow
      exact ⟨⟨pool₂, hsuf'.trans hsuf, hwf'⟩, htakes.trans hstep.takesInOrder,
        hgain.trans (hstep.tablesGain hwf hlow)⟩
  obtain ⟨used, rest, rfl, hrest, hframes⟩ := htakes pool h.handsOut
  refine ⟨rest, ?_, ?_, hgain⟩
  · rw [Vm.newFrames_of_append hframes, List.reverse_reverse]
  · rwa [hrest.unique hwf.handsOut]

theorem IsTable.existsUnique {s : Vm} {pool : List U64} {f : U64} (hf : IsTable s f)
    (h : PageTree s pool) : ∃! q, q.length ≤ 3 ∧ s.table q = some f := by
  obtain ⟨q, hq, hqf⟩ := hf
  exact ⟨q, ⟨hq, hqf⟩, fun q' ⟨hq', hqf'⟩ => h.tree.eq_path hq' hq hqf' hqf⟩

/-- **No frame is lost, shared or given back.** In every state of a run the tables are those
there were and the frames handed out since then: these come off the front of the free
list, differ from each other and from every table there was, and each is the table of
exactly one path, and stays it. -/
theorem tables_conserved {s₀ s : Vm} {pool : List U64} {ops : List VmOp}
    (h : WellFormed s₀ pool) (hpool : ∀ f ∈ pool, f.toNat < 2 ^ 52)
    (hrun : Run VmStep s₀ ops s) :
    (∃ rest, pool = s₀.newFrames s ++ rest ∧ HandsOut s.pmm.gmmap rest) ∧
    (∀ q t, q.length ≤ 3 → s₀.table q = some t → s.table q = some t) ∧
    (∀ f, IsTable s f ↔ IsTable s₀ f ∨ f ∈ s₀.newFrames s) ∧
    ∀ f ∈ s₀.newFrames s, ¬ IsTable s₀ f ∧ (s₀.newFrames s).count f = 1 ∧
      ∃! q, q.length ≤ 3 ∧ s.table q = some f := by
  obtain ⟨rest, hrest, hwf, hgain⟩ := tablesGain_run hrun h hpool
  have htree : PageTree s rest := hwf.pageTree fun f hf => hpool f (by
    rw [hrest]
    exact List.mem_append_right _ hf)
  refine ⟨⟨rest, hrest, hwf.handsOut⟩, hgain.keep, hgain.gain, fun f hf => ⟨?_, ?_, ?_⟩⟩
  · apply (h.pageTree hpool).pool_fresh
    rw [hrest]
    exact List.mem_append_left _ hf
  · have hnodup := h.pool_nodup
    rw [hrest, List.nodup_append] at hnodup
    exact List.count_eq_one_of_mem hnodup.1 hf
  · exact IsTable.existsUnique ((hgain.gain f).mpr (Or.inr hf)) htree

theorem tables_conserved_emptyVm : ∃ s, VmStep emptyVm (.mapPage 0x5000 pageBitRwWritable) s ∧
    ∀ f, IsTable s f ↔ f = 0x1000 ∨ f ∈ ([0x2000, 0x3000, 0x4000] : List U64) := by
  have hrun : (mapPage 6 emptyVm 0x5000 pageBitRwWritable).map
      (fun s => (s.nulls, emptyVm.newFrames s)) = some (0, [0x2000, 0x3000, 0x4000]) := by
    decide +kernel
  obtain ⟨s, hcall, heq⟩ := Option.map_eq_some_iff.mp hrun
  obtain ⟨hnull, hframes⟩ := Prod.mk.inj heq
  have hstep : VmStep emptyVm (.mapPage 0x5000 pageBitRwWritable) s :=
    .mapPage (by decide) (by decide) ⟨6, hcall⟩ hnull
  obtain ⟨-, -, htables, -⟩ := tables_conserved emptyVm_wellFormed (by simp)
    (Run.start.snoc hstep)
  refine ⟨s, hstep, fun f => ?_⟩
  rw [htables f, hframes]
  apply or_congr_left
  constructor
  · rintro ⟨q, -, hqf⟩
    exact (emptyVm_table hqf).2
  · rintro rfl
    exact ⟨[], Nat.zero_le _, rfl⟩

end FacelessOS
