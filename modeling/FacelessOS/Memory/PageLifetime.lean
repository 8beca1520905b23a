import FacelessOS.Memory.Permissions

/-!
# From mapping to unmapping

A page that is mapped keeps all four entries of its walk, and with them its frame and its
permissions, until `unmap_page` is called for that very page (`walk_kept`). In particular
`map_page` never changes the flags of a page: they are changed by taking the page out and
mapping it again, which needs no frame and concerns no other page (`remap_page`).
-/

namespace FacelessOS

open ByteStore RadixTree Runs

theorem Page.eq_of_upper {v w : Page} (hup : v.upper = w.upper) (hi : v.i1 = w.i1) :
    v = w := by
  simp only [Page.upper, List.cons.injEq, and_true] at hup
  obtain ⟨h4, h3, h2⟩ := hup
  cases v
  simp_all

theorem Vm.walk_congr {s s' : Vm} {v : Page} {e : U64} (he : s.translate v = some e)
    (hlevel : ∀ q i, q ++ [i] <+: v.indices → ∀ t, s.table q = some t →
      present (s.entry t i) → s'.table q = some t ∧ s'.entry t i = s.entry t i) :
    s'.walk v = s.walk v := by
  have hkeep : ∀ q i, q ++ [i] <+: v.indices → ∀ t, s.table q = some t →
      s'.table q = some t ∧ s'.entry t i = s.entry t i := by
    intro q i hpre t ht
    obtain ⟨u, -, hu, hp⟩ := Vm.present_of_translate he hpre
    obtain rfl := Option.some.inj (ht.symm.trans hu)
    exact hlevel q i hpre t ht hp
  obtain ⟨pt, hpt, -⟩ := Vm.translate_eq_some.mp he
  obtain ⟨pdpt, pdt, hpdpt, hpdt, hwalk⟩ := Vm.walk_of_table hpt
  have h4 := hkeep [] v.i4 ⟨[v.i3, v.i2, v.i1], rfl⟩ s.pml4 rfl
  have h3 := hkeep [v.i4] v.i3 ⟨[v.i2, v.i1], rfl⟩ pdpt hpdpt
  have h2 := hkeep [v.i4, v.i3] v.i2 ⟨[v.i1], rfl⟩ pdt hpdt
  have h1 := hkeep v.upper v.i1 ⟨[], rfl⟩ pt hpt
  obtain ⟨pdpt', pdt', hpdpt', hpdt', hwalk'⟩ := Vm.walk_of_table h1.1
  obtain rfl := Option.some.inj (h3.1.symm.trans hpdpt')
  obtain rfl := Option.some.inj (h2.1.symm.trans hpdt')
  have hroot : s'.pml4 = s.pml4 := Option.some.inj h4.1
  rw [hwalk, hwalk', hroot, h4.2, h3.2, h2.2, h1.2]

theorem Grown.walk_old {fl : U32} {used pages : List U64} {s s' : Vm}
    (h : Grown fl used pages s s') {v : Page} {e : U64} (he : s.translate v = some e) :
    s'.walk v = s.walk v := by
  refine Vm.walk_congr he fun q i hpre t ht hp => ?_
  obtain ⟨u, hlen, hu, -⟩ := Vm.present_of_translate he hpre
  obtain rfl := Option.some.inj (ht.symm.trans hu)
  obtain ⟨ht', hkeep⟩ := h.keep q t hlen ht
  exact ⟨ht', hkeep i hp⟩

section Leaf

variable {s : Vm} {pool : List U64} {a pt e : U64}

theorem setLeaf_walk (h : PageTree s pool) (hpt : s.table (pageOf a).upper = some pt)
    {v : Page} {e' : U64} (he : s.translate v = some e') (hv : v ≠ pageOf a) :
    (s.setEntry pt (ptIdx a) e).walk v = s.walk v := by
  have hta := Vm.table_aligned h.root_aligned hpt
  refine Vm.walk_congr he fun q i hpre t ht _ => ?_
  obtain ⟨-, hlen, -⟩ := Vm.present_of_translate he hpre
  refine ⟨(table_setLeaf h (Page.length_upper _) hpt (ptIdx a) e q hlen).trans ht, ?_⟩
  rw [Vm.entry_setEntry _ hta (Vm.table_aligned h.root_aligned ht), if_neg]
  rintro ⟨rfl, rfl⟩
  have hq := h.tree.eq_path hlen (by simp) ht hpt
  rcases prefix_indices hpre with ⟨rfl, -⟩ | ⟨rfl, -⟩ | ⟨rfl, -⟩ | ⟨rfl, hi⟩
  · exact absurd hq (by simp [Page.upper])
  · exact absurd hq (by simp [Page.upper])
  · exact absurd hq (by simp [Page.upper])
  · exact hv (Page.eq_of_upper hq hi.symm)

theorem unmapPage_walk (h : PageTree s pool) (ha : PageAligned a)
    (hpt : s.table (pageOf a).upper = some pt) {v : Page} {e' : U64}
    (he : s.translate v = some e') (hv : v ≠ pageOf a) :
    (unmapPage s a).2.walk v = s.walk v := by
  rw [unmapPage_of_table ha hpt]
  split
  · exact setLeaf_walk h hpt he hv
  · rfl

theorem setLeaf_upperAllows (h : PageTree s pool) (hpt : s.table (pageOf a).upper = some pt)
    {bit : U32} {b : U64} :
    UpperAllows (s.setEntry pt (ptIdx a) e) bit b ↔ UpperAllows s bit b := by
  have hta := Vm.table_aligned h.root_aligned hpt
  unfold UpperAllows
  refine forall_congr' fun q => forall_congr' fun i => forall_congr' fun hpre => ?_
  have hlen := hpre.length_le
  rw [List.length_append, List.length_singleton, Page.length_upper] at hlen
  rw [table_setLeaf h (Page.length_upper _) hpt (ptIdx a) e q (by omega)]
  refine forall_congr' fun t => forall_congr' fun ht => ?_
  rw [Vm.entry_setEntry _ hta (Vm.table_aligned h.root_aligned ht), if_neg]
  rintro ⟨rfl, -⟩
  have hq := h.tree.eq_path (by omega) (by simp) ht hpt
  rw [hq, Page.length_upper] at hlen
  omega

end Leaf

def VmOp.Unmaps (v : Page) : VmOp → Prop
  | .mapPage _ _ => False
  | .unmapPage a => pageOf a = v

/-- **One step** leaves a page that it does not take out. -/
theorem VmStep.keeps_walk {s s' : Vm} {op : VmOp} {pool : List U64} (hstep : VmStep s op s')
    (h : WellFormed s pool) (hpool : ∀ f ∈ pool, f.toNat < 2 ^ 52) {v : Page} {e : U64}
    (he : s.translate v = some e) (hspare : ¬ op.Unmaps v) :
    s'.translate v = some e ∧ s'.walk v = s.walk v := by
  cases hstep with
  | mapPage _ hfl hcall hnull =>
      obtain ⟨used, pool', -, -, -, hgrown⟩ := h.mapPage_grown hpool hfl hcall hnull
      exact ⟨hgrown.translate_keep he, hgrown.walk_old he⟩
  | @unmapPage a ha hup =>
      obtain ⟨pt, hpt⟩ := Option.isSome_iff_exists.mp hup
      have htree := h.pageTree hpool
      have hv : v ≠ pageOf a := fun heq => hspare heq.symm
      refine ⟨?_, unmapPage_walk htree ha hpt he hv⟩
      rw [unmapPage_translate htree ha hpt, AddrSpace.unmap_ne _ hv, he]

/-- **A mapped page stays as it is until it is taken out.** In every run of calls none of
which takes out the page, its entry and the three above it are the same in every state; so
are its frame, and what it may be used for. -/
theorem walk_kept {s₀ s : Vm} {pool : List U64} {ops : List VmOp} {v : Page} {e : U64}
    (h : WellFormed s₀ pool) (hpool : ∀ f ∈ pool, f.toNat < 2 ^ 52)
    (he : s₀.translate v = some e)
    (hrun : Run (Guarded (fun _ op => ¬ op.Unmaps v) VmStep) s₀ ops s) :
    s.translate v = some e ∧ s.walk v = s₀.walk v ∧
      ∀ bit, s.Allows bit v ↔ s₀.Allows bit v := by
  obtain ⟨-, htranslate, hwalk⟩ := hrun.guarded_invariant
    (P := fun s => (∃ pool, WellFormed s pool ∧ ∀ f ∈ pool, f.toNat < 2 ^ 52) ∧
      s.translate v = some e ∧ s.walk v = s₀.walk v)
    ⟨⟨pool, h, hpool⟩, he, rfl⟩
    fun s op s' ⟨⟨pool₁, hwf, hlow⟩, he, hwalk⟩ hspare hstep => by
      obtain ⟨pool₂, hsuf, hwf'⟩ := hstep.wellFormed hwf hlow
      obtain ⟨he', hwalk'⟩ := hstep.keeps_walk hwf hlow he hspare
      exact ⟨⟨pool₂, hwf', fun f hf => hlow f (hsuf.mem hf)⟩, he', hwalk'.trans hwalk⟩
  refine ⟨htranslate, hwalk, fun bit => ?_⟩
  unfold Vm.Allows
  rw [hwalk]

theorem walk_kept_emptyVm : ∃ (s₁ s₂ : Vm) (e : U64),
    Run VmStep emptyVm [.mapPage 0x5000 pageBitRwWritable, .unmapPage 0x6000] s₂ ∧
    s₁.translate (pageOf 0x5000) = some e ∧ s₂.walk (pageOf 0x5000) = s₁.walk (pageOf 0x5000) := by
  obtain ⟨s₁, hcall, hnull⟩ := emptyVm_mapsPage
  have hstep₁ : VmStep emptyVm (.mapPage 0x5000 pageBitRwWritable) s₁ :=
    .mapPage (by decide) (by decide) hcall hnull
  have hlow : ∀ f ∈ ([0x2000, 0x3000, 0x4000] : List U64), f.toNat < 2 ^ 52 := by simp
  obtain ⟨pool, hsuf, hwf⟩ := hstep₁.wellFormed emptyVm_wellFormed hlow
  obtain ⟨used, pool', -, -, -, hgrown⟩ :=
    emptyVm_wellFormed.mapPage_grown hlow (by decide) hcall hnull
  obtain ⟨e, he⟩ := Option.isSome_iff_exists.mp (hgrown.mapped 0x5000 List.mem_cons_self)
  obtain ⟨-, ⟨pt, hpt⟩, -⟩ := emptyVm_first hstep₁
  have hstep₂ : VmStep s₁ (.unmapPage 0x6000) (unmapPage s₁ 0x6000).2 :=
    .unmapPage (by decide) (by rw [hpt]; rfl)
  have hspare : ¬ VmOp.Unmaps (pageOf 0x5000) (.unmapPage 0x6000) := by
    show pageOf 0x6000 ≠ pageOf 0x5000
    decide
  have hguard : Guarded (fun _ op => ¬ VmOp.Unmaps (pageOf 0x5000) op) VmStep s₁
      (.unmapPage 0x6000) (unmapPage s₁ 0x6000).2 := ⟨hspare, hstep₂⟩
  exact ⟨s₁, _, e, (Run.start.snoc hstep₁).snoc hstep₂, he,
    (walk_kept hwf (fun f hf => hlow f (hsuf.mem hf)) he (Run.start.snoc hguard)).2.1⟩

/-! ## Other flags for a mapped page -/

/-- What it takes to give a mapped page other flags: `map_page` alone does nothing, and
behind an `unmap_page` it puts the flags into the leaf, from no frame of the allocator, and
leaves every other page as it was. -/
structure Remapped (s : Vm) (a : U64) (fl : U32) (s' : Vm) : Prop where
  alone : ∀ s'', MapsPage s a fl s'' → s'' = s
  frames : s.newFrames s' = []
  leaf : s'.translate (pageOf a) = some (mkEntry a (fl ||| pageBitPPresent))
  permissions : ∀ bit ∈ permissionBits,
    s'.Allows bit (pageOf a) ↔ fl &&& bit ≠ 0#32 ∧ UpperAllows s bit a
  others : ∀ v, v ≠ pageOf a → s'.translate v = s.translate v ∧
    ∀ e, s.translate v = some e → s'.walk v = s.walk v

/-- **A mapped page gets other flags** by `unmap_page` and then `map_page`, in any state of
a run. -/
theorem remap_page {s₀ s : Vm} {pool : List U64} {ops : List VmOp} {a e : U64} {fl : U32}
    (h : WellFormed s₀ pool) (hpool : ∀ f ∈ pool, f.toNat < 2 ^ 52)
    (hrun : Run VmStep s₀ ops s) (ha : PageAligned a) (hlow : a.toNat < 2 ^ 47)
    (hfl : VmmFlags fl) (he : s.translate (pageOf a) = some e) :
    ∃ s', Run VmStep s [.unmapPage a, .mapPage a fl] s' ∧ Remapped s a fl s' := by
  obtain ⟨pool₁, hsuf, hwf⟩ := wellFormed_run hrun h hpool
  have htree := hwf.pageTree fun f hf => hpool f (hsuf.mem hf)
  obtain ⟨pt, hpt, hleaf, hp⟩ := Vm.translate_eq_some.mp he
  have hta := Vm.table_aligned htree.root_aligned hpt
  -- the page is taken out
  have hunmap : (unmapPage s a).2 = s.setEntry pt (ptIdx a)
      ((a &&& pageAddrMask) &&& ~~~ (pageBitPPresent.setWidth 64)) := by
    rw [unmapPage_of_table ha hpt, if_pos (by rw [← hleaf] at hp; exact hp)]
  have hstep₁ : VmStep s (.unmapPage a) (unmapPage s a).2 := .unmapPage ha (by rw [hpt]; rfl)
  have htree₁ := unmapPage_pageTree htree ha hpt
  have htranslate₁ := unmapPage_translate htree ha hpt
  have hpt₁ : (unmapPage s a).2.table (pageOf a).upper = some pt := by
    rw [hunmap, table_setLeaf htree (Page.length_upper _) hpt _ _ _ (by simp), hpt]
  have habs : present ((unmapPage s a).2.entry pt (ptIdx a)) = false := by
    rw [hunmap, Vm.entry_setEntry _ hta hta, if_pos ⟨rfl, rfl⟩]
    exact present_unmapped a
  -- and put in again
  have hcall : MapsPage (unmapPage s a).2 a fl ((unmapPage s a).2.setEntry pt (ptIdx a)
      (mkEntry a (fl ||| pageBitPPresent))) :=
    ⟨1, by rw [mapPage_of_table hpt₁, if_neg (by rw [habs]; decide)]⟩
  have hstep₂ : VmStep (unmapPage s a).2 (.mapPage a fl) _ :=
    .mapPage hlow hfl hcall (hcall.frames_of_table hpt₁).1
  have hgrown := setLeaf_grown htree₁ hpt₁ habs (hasPresent_or fl)
  have hgone : (unmapPage s a).2.translate (pageOf a) = none := by
    rw [htranslate₁, AddrSpace.unmap_self]
  refine ⟨_, (Run.start.snoc hstep₁).snoc hstep₂, fun s'' hcall => ?_, ?_, ?_,
    fun bit hbit => ?_, fun v hv => ?_⟩
  · exact hcall.of_mapped (by rw [he]; rfl)
  · rw [hunmap]
    exact Vm.newFrames_of_append (l := []) rfl
  · refine Vm.translate_eq_some.mpr ⟨pt, ?_, ?_, present_mkEntry (hasPresent_or fl)⟩
    · rw [table_setLeaf htree₁ (Page.length_upper _) hpt₁ _ _ _ (by simp), hpt₁]
    · exact (Vm.entry_setEntry _ hta hta _ _ _).trans (if_pos ⟨rfl, rfl⟩)
  · rw [hgrown.allows_new List.mem_cons_self hgone hbit, hunmap,
      setLeaf_upperAllows htree hpt]
  · have hsame : (unmapPage s a).2.translate v = s.translate v := by
      rw [htranslate₁, AddrSpace.unmap_ne _ hv]
    constructor
    · cases hold : s.translate v with
      | some e' => exact hgrown.translate_keep (hsame.trans hold)
      | none =>
          by_contra hne
          obtain ⟨e', he'⟩ := Option.ne_none_iff_exists'.mp hne
          rcases hgrown.translate_new he' with h' | ⟨x, hx, rfl, -⟩
          · rw [hsame, hold] at h'
            exact absurd h' (by simp)
          · rw [List.mem_singleton.mp hx] at hv
            exact hv rfl
    · intro e' he'
      exact (hgrown.walk_old (hsame.trans he')).trans (unmapPage_walk htree ha hpt he' hv)

/-- A writable page is made read-only. -/
theorem remap_page_emptyVm : ∃ s s', VmStep emptyVm (.mapPage 0x5000 pageBitRwWritable) s ∧
    Run VmStep s [.unmapPage 0x5000, .mapPage 0x5000 pageBitPPresent] s' ∧
    Remapped s 0x5000 pageBitPPresent s' := by
  obtain ⟨s, hcall, hnull⟩ := emptyVm_mapsPage
  have hstep : VmStep emptyVm (.mapPage 0x5000 pageBitRwWritable) s :=
    .mapPage (by decide) (by decide) hcall hnull
  obtain ⟨used, pool', -, -, -, hgrown⟩ :=
    emptyVm_wellFormed.mapPage_grown (by simp) (by decide) hcall hnull
  obtain ⟨e, he⟩ := Option.isSome_iff_exists.mp (hgrown.mapped 0x5000 List.mem_cons_self)
  have hfl : VmmFlags pageBitPPresent := by decide
  obtain ⟨s', hrun, hremapped⟩ := remap_page (a := 0x5000) emptyVm_wellFormed (by simp)
    (Run.start.snoc hstep) (by decide) (by decide) hfl he
  exact ⟨s, s', hstep, hrun, hremapped⟩

end FacelessOS
