import FacelessOS.Lib.Runs
import FacelessOS.Memory.MapPageReturns

/-!
# Refinement of the page tables to a partial map

The abstract state is what the page tables are for: a partial map from pages to
leaf entries. `map_page` is an identity mapping of the page asked for and of the
pages of the table frames it took; `unmap_page` removes one page. Every run of
the two over a well-formed state is a run of these abstract operations.
-/

namespace FacelessOS

open ByteStore RadixTree Runs

/-- An address space: the leaf entry of every mapped page. -/
abbrev AddrSpace : Type := Page → Option U64

namespace AddrSpace

/-- Map the pages of these addresses to themselves, where they are not mapped. -/
def identityMap (m : AddrSpace) (addrs : List U64) (flags : U32) : AddrSpace := fun v =>
  match m v with
  | some e => some e
  | none => (addrs.find? fun x => pageOf x = v).map fun x => mkEntry x flags

/-- A page in the list keeps its entry or gets the identity entry. Two addresses of one
page are told apart by nothing that an entry holds. -/
theorem identityMap_of_mem (m : AddrSpace) {addrs : List U64} {x : U64} (flags : U32)
    (hx : x ∈ addrs) (hlow : ∀ y ∈ addrs, y.toNat < 2 ^ 47) :
    identityMap m addrs flags (pageOf x) = some ((m (pageOf x)).getD (mkEntry x flags)) := by
  unfold identityMap
  cases m (pageOf x) with
  | some e => rfl
  | none =>
      cases hfind : addrs.find? fun y => decide (pageOf y = pageOf x) with
      | none =>
          have hne := List.find?_eq_none.mp hfind x hx
          exact absurd (decide_eq_true (rfl : pageOf x = pageOf x)) hne
      | some y =>
          have hyx : pageOf y = pageOf x := by simpa using List.find?_some hfind
          rw [Option.map_some, Option.getD_none, mkEntry_eq_of_pageOf_eq
            (hlow y (List.mem_of_find?_eq_some hfind)) (hlow x hx) hyx]

theorem identityMap_of_not_mem (m : AddrSpace) {addrs : List U64} {v : Page} (flags : U32)
    (hv : ∀ x ∈ addrs, pageOf x ≠ v) : identityMap m addrs flags v = m v := by
  have hfind : (addrs.find? fun x => decide (pageOf x = v)) = none :=
    List.find?_eq_none.mpr fun x hx => by simpa using hv x hx
  rw [identityMap, hfind]
  cases m v <;> rfl

def unmap (m : AddrSpace) (v : Page) : AddrSpace := fun u => if u = v then none else m u

@[simp] theorem unmap_self (m : AddrSpace) (v : Page) : m.unmap v v = none := by
  rw [unmap, if_pos rfl]

theorem unmap_ne (m : AddrSpace) {u v : Page} (h : u ≠ v) : m.unmap v u = m u := by
  rw [unmap, if_neg h]

end AddrSpace

/-- A page-table state with its frame allocator, as the kernel relies on it:
the tables form a tree of page-aligned frames without large pages, and the
pages still to be handed out are usable as tables. -/
structure WellFormed (s : Vm) (pool : List U64) : Prop where
  root_aligned : PageAligned s.pml4
  root_unreferenced : ∀ (q : List (Fin 512)) (i : Fin 512), q.length < 3 →
    s.table (q ++ [i]) ≠ some s.pml4
  one_parent : ∀ (p q : List (Fin 512)) (i j : Fin 512) (t u n : U64),
    p.length < 3 → q.length < 3 → s.table p = some t → s.table q = some u →
    s.child t i = some n → s.child u j = some n → t = u ∧ i = j
  no_large : ∀ (q : List (Fin 512)) (t : U64) (i : Fin 512), q.length < 3 →
    s.table q = some t → present (s.entry t i) → largePage (s.entry t i) = false
  handsOut : HandsOut s.pmm.gmmap pool
  pool_nodup : pool.Nodup
  pool_aligned : ∀ f ∈ pool, PageAligned f
  pool_ne_zero : ∀ f ∈ pool, f ≠ 0
  pool_fresh : ∀ f ∈ pool, ∀ q : List (Fin 512), q.length ≤ 3 → s.table q ≠ some f

theorem frames_of_low {pool : List U64} (h : ∀ f ∈ pool, f.toNat < 2 ^ 47) :
    ∀ f ∈ pool, f.toNat < 2 ^ 52 :=
  fun f hf => (h f hf).trans (by decide)

namespace WellFormed

variable {s s' : Vm} {pool : List U64}

theorem pageTree (h : WellFormed s pool) (hpool : ∀ f ∈ pool, f.toNat < 2 ^ 52) :
    PageTree s pool where
  root_aligned := h.root_aligned
  tree := treeShaped_of_parents h.root_unreferenced h.one_parent
  handsOut := h.handsOut
  pool_nodup := h.pool_nodup
  pool_frame := fun f hf => isFrame_of_aligned (h.pool_aligned f hf) (hpool f hf)
  pool_fresh := fun f hf ⟨q, hq, hqf⟩ => h.pool_fresh f hf q hq hqf

theorem clearPath (h : WellFormed s pool) (a : U64) : ClearPath s a := by
  intro q i hpre t ht hp
  have hlen := hpre.length_le
  rw [List.length_append, List.length_singleton, Page.length_upper] at hlen
  exact h.no_large q t i (by omega) ht hp

theorem of_pageTree (h : PageTree s pool)
    (hlarge : ∀ (q : List (Fin 512)) (t : U64) (i : Fin 512), q.length < 3 →
      s.table q = some t → present (s.entry t i) → largePage (s.entry t i) = false)
    (hpool : ∀ f ∈ pool, f ≠ 0) : WellFormed s pool where
  root_aligned := h.root_aligned
  root_unreferenced := by
    intro q i hq hroot
    have := h.tree.eq_path (p := q ++ [i]) (q := []) (by simp; omega) (by simp) hroot rfl
    simp at this
  one_parent := by
    intro p q i j t u n hp hq ht hu hti huj
    have hpq : p ++ [i] = q ++ [j] :=
      h.tree.eq_path (by simp; omega) (by simp; omega)
        (follow_snoc_some.mpr ⟨t, ht, hti⟩) (follow_snoc_some.mpr ⟨u, hu, huj⟩)
    obtain ⟨rfl, hij⟩ := List.append_inj' hpq rfl
    exact ⟨Option.some.inj (ht.symm.trans hu), List.singleton_inj.mp hij⟩
  no_large := hlarge
  handsOut := h.handsOut
  pool_nodup := h.pool_nodup
  pool_aligned := fun f hf => (h.pool_frame f hf).aligned
  pool_ne_zero := hpool
  pool_fresh := fun f hf q hq hqf => h.pool_fresh f hf ⟨q, hq, hqf⟩

end WellFormed

/-! ## The two operations -/

theorem Grown.translate {fl : U32} {used pages : List U64} {s s' : Vm}
    (h : Grown fl used pages s s') (hpages : ∀ x ∈ pages, x.toNat < 2 ^ 47) :
    s'.translate = AddrSpace.identityMap s.translate pages fl := by
  funext v
  by_cases hv : ∃ x ∈ pages, pageOf x = v
  · obtain ⟨x, hx, rfl⟩ := hv
    rw [AddrSpace.identityMap_of_mem _ _ hx hpages]
    cases hold : s.translate (pageOf x) with
    | some e => exact h.translate_keep hold
    | none =>
        obtain ⟨e, he⟩ := Option.isSome_iff_exists.mp (h.mapped x hx)
        rcases h.translate_new he with h' | ⟨y, hy, hyx, rfl⟩
        · exact absurd (hold.symm.trans h') (by simp)
        · rw [he, Option.getD_none, mkEntry_eq_of_pageOf_eq (hpages y hy) (hpages x hx) hyx]
  · rw [AddrSpace.identityMap_of_not_mem _ _ fun x hx hxv => hv ⟨x, hx, hxv⟩]
    cases hold : s.translate v with
    | some e => exact h.translate_keep hold
    | none =>
        by_contra hne
        obtain ⟨e, he⟩ := Option.ne_none_iff_exists'.mp hne
        rcases h.translate_new he with h' | ⟨x, hx, hxv, -⟩
        · exact absurd (hold.symm.trans h') (by simp)
        · exact hv ⟨x, hx, hxv⟩

theorem unmapPage_of_table {s : Vm} {a pt : U64} (ha : PageAligned a)
    (hpt : s.table (pageOf a).upper = some pt) :
    unmapPage s a = (1, if present (s.entry pt (ptIdx a)) then
      s.setEntry pt (ptIdx a) ((a &&& pageAddrMask) &&& ~~~ (pageBitPPresent.setWidth 64))
      else s) := by
  obtain ⟨pdpt, pdt, h4, h3, h2⟩ := Vm.table_upper hpt
  rw [unmapPage, if_neg (by simpa [PageAligned, pageSize] using ha)]
  simp only [(tableOf_eq_some.mp h4).2.2, (tableOf_eq_some.mp h3).2.2,
    (tableOf_eq_some.mp h2).2.2]
  split <;> rfl

theorem clearLeaf_translate {s : Vm} {pool : List U64} (h : PageTree s pool) {a pt e : U64}
    (hpt : s.table (pageOf a).upper = some pt) (he : present e = false) :
    (s.setEntry pt (ptIdx a) e).translate = AddrSpace.unmap s.translate (pageOf a) := by
  have hta := Vm.table_aligned h.root_aligned hpt
  have htable := table_setLeaf h (Page.length_upper _) hpt (ptIdx a) e
  funext v
  by_cases hva : v = pageOf a
  · rw [hva, AddrSpace.unmap_self]
    refine Vm.translate_of_not_present ((htable _ (by simp)).trans hpt) ?_
    rw [Vm.entry_setEntry s hta hta, if_pos ⟨rfl, rfl⟩]
    exact he
  · rw [AddrSpace.unmap_ne _ hva, Vm.translate, Vm.translate, htable _ (by simp)]
    cases hv : s.table v.upper with
    | none => rw [Option.bind_none, Option.bind_none]
    | some u =>
        have hslot : ¬ (u = pt ∧ v.i1 = ptIdx a) := by
          rintro ⟨rfl, hi⟩
          have hup := h.tree.eq_path (by simp) (by simp) hv hpt
          simp only [Page.upper, List.cons.injEq, and_true] at hup
          obtain ⟨h4, h3, h2⟩ := hup
          apply hva
          cases v
          simp_all [pageOf]
        rw [Option.bind_some, Option.bind_some,
          Vm.entry_setEntry _ hta (Vm.table_aligned h.root_aligned hv), if_neg hslot]

/-- `unmap_page` over present upper levels removes one page. -/
theorem unmapPage_translate {s : Vm} {pool : List U64} (h : PageTree s pool) {a pt : U64}
    (ha : PageAligned a) (hpt : s.table (pageOf a).upper = some pt) :
    (unmapPage s a).2.translate = AddrSpace.unmap s.translate (pageOf a) := by
  rw [unmapPage_of_table ha hpt]
  split
  · exact clearLeaf_translate h hpt (present_unmapped a)
  · rename_i hp
    funext v
    by_cases hva : v = pageOf a
    · rw [hva, AddrSpace.unmap_self]
      exact Vm.translate_of_not_present hpt (Bool.eq_false_iff.mpr hp)
    · rw [AddrSpace.unmap_ne _ hva]

theorem unmapPage_pageTree {s : Vm} {pool : List U64} (h : PageTree s pool) {a pt : U64}
    (ha : PageAligned a) (hpt : s.table (pageOf a).upper = some pt) :
    PageTree (unmapPage s a).2 pool := by
  rw [unmapPage_of_table ha hpt]
  split
  · exact pageTree_setLeaf h (Page.length_upper _) hpt _ _
  · exact h

/-! ## Runs -/

inductive VmOp where
  | mapPage (logical : U64) (flags : U32)
  | unmapPage (logical : U64)

/-- A call of `map_page` that is refused no frame, for a canonical low address and with flags
of `vmm.h`, or one of `unmap_page` for a page whose three upper levels are present. -/
inductive VmStep : Vm → VmOp → Vm → Prop where
  | mapPage {s s' : Vm} {a : U64} {fl : U32} : a.toNat < 2 ^ 47 → VmmFlags fl →
      MapsPage s a fl s' → s'.nulls = s.nulls → VmStep s (.mapPage a fl) s'
  | unmapPage {s : Vm} {a : U64} : PageAligned a → (s.table (pageOf a).upper).isSome →
      VmStep s (.unmapPage a) (unmapPage s a).2

/-- What a step means for the address space. -/
def VmOp.refined (op : VmOp) (s s' : Vm) : AddrSpace :=
  match op with
  | .mapPage a fl =>
      AddrSpace.identityMap s.translate (a :: s.newFrames s') (fl ||| pageBitPPresent)
  | .unmapPage a => AddrSpace.unmap s.translate (pageOf a)

theorem WellFormed.mapPage_low {s s' : Vm} {pool : List U64} {a : U64} {fl : U32}
    (h : WellFormed s pool) (hpool : ∀ f ∈ pool, f.toNat < 2 ^ 47) (ha : a.toNat < 2 ^ 47)
    (hfl : VmmFlags fl) (hcall : MapsPage s a fl s') (hnull : s'.nulls = s.nulls) :
    ∀ x ∈ a :: s.newFrames s', x.toNat < 2 ^ 47 := by
  obtain ⟨fuel, hcall⟩ := hcall
  obtain ⟨used, pool', rfl, -, hgrown⟩ := mapPage_grown (h.pageTree (frames_of_low hpool)) hfl
    (h.clearPath a) hcall hnull (fun f _ => h.clearPath f)
  rw [hgrown.newFrames]
  intro x hx
  rcases List.mem_cons.mp hx with rfl | hx
  · exact ha
  · exact hpool x (List.mem_append_left _ hx)

/-- One step: the state stays well formed. -/
theorem VmStep.wellFormed {s s' : Vm} {op : VmOp} {pool : List U64}
    (hstep : VmStep s op s') (h : WellFormed s pool)
    (hpool : ∀ f ∈ pool, f.toNat < 2 ^ 52) :
    ∃ pool', pool' <:+ pool ∧ WellFormed s' pool' := by
  have htree := h.pageTree hpool
  cases hstep with
  | @mapPage _ a fl ha hfl hcall hnull =>
      obtain ⟨fuel, hcall⟩ := hcall
      obtain ⟨used, pool', rfl, htree', hgrown⟩ := mapPage_grown htree hfl
        (h.clearPath a) hcall hnull (fun f _ => h.clearPath f)
      refine ⟨pool', List.suffix_append _ _, WellFormed.of_pageTree htree' ?_
        (fun f hf => h.pool_ne_zero f (List.mem_append_right _ hf))⟩
      intro q t i hq ht hp
      rcases hgrown.entries q t i (by omega) ht hp with ⟨hold, heq⟩ | ⟨x, hx, -, -⟩
      · rw [heq] at hp ⊢
        exact h.no_large q t i hq hold hp
      · rw [hx]
        exact largePage_mkEntry hfl.or_present
  | @unmapPage a ha hup =>
      obtain ⟨pt, hpt⟩ := Option.isSome_iff_exists.mp hup
      refine ⟨pool, List.suffix_refl _, WellFormed.of_pageTree
        (unmapPage_pageTree htree ha hpt) ?_ h.pool_ne_zero⟩
      rw [unmapPage_of_table ha hpt]
      split
      · intro q t i hq ht hp
        have hta := Vm.table_aligned htree.root_aligned hpt
        have ht' := (table_setLeaf htree (Page.length_upper _) hpt _ _ q
          (by omega)).symm.trans ht
        have hslot : ¬ (t = pt ∧ i = ptIdx a) := by
          rintro ⟨rfl, -⟩
          have := htree.tree.eq_path (by omega) (by simp) ht' hpt
          rw [this] at hq
          simp at hq
        rw [Vm.entry_setEntry _ hta (Vm.table_aligned htree.root_aligned ht'),
          if_neg hslot] at hp ⊢
        exact h.no_large q t i hq ht' hp
      · exact h.no_large

/-- One step: the address space changes as the abstract operation says. -/
theorem VmStep.refines {s s' : Vm} {op : VmOp} {pool : List U64}
    (hstep : VmStep s op s') (h : WellFormed s pool)
    (hpool : ∀ f ∈ pool, f.toNat < 2 ^ 47) : s'.translate = op.refined s s' := by
  have htree := h.pageTree (frames_of_low hpool)
  cases hstep with
  | @mapPage _ a fl ha hfl hcall hnull =>
      have hlow := h.mapPage_low hpool ha hfl hcall hnull
      obtain ⟨fuel, hcall⟩ := hcall
      obtain ⟨used, pool', rfl, -, hgrown⟩ := mapPage_grown htree hfl
        (h.clearPath a) hcall hnull (fun f _ => h.clearPath f)
      rw [hgrown.newFrames] at hlow
      rw [VmOp.refined, hgrown.newFrames]
      exact hgrown.translate hlow
  | @unmapPage a ha hup =>
      obtain ⟨pt, hpt⟩ := Option.isSome_iff_exists.mp hup
      exact unmapPage_translate htree ha hpt

theorem wellFormed_run {s₀ s : Vm} {ops : List VmOp} {pool : List U64}
    (hrun : Run VmStep s₀ ops s) (h : WellFormed s₀ pool)
    (hpool : ∀ f ∈ pool, f.toNat < 2 ^ 52) :
    ∃ pool', pool' <:+ pool ∧ WellFormed s pool' := by
  refine hrun.invariant (P := fun s => ∃ pool', pool' <:+ pool ∧ WellFormed s pool')
    ⟨pool, List.suffix_refl _, h⟩ ?_
  rintro s op s' ⟨pool', hsuf, hwf⟩ hstep
  obtain ⟨pool'', hsuf', hwf'⟩ :=
    hstep.wellFormed hwf fun f hf => hpool f (hsuf.mem hf)
  exact ⟨pool'', hsuf'.trans hsuf, hwf'⟩

/-- **The page tables refine a partial map.** In every state of a run from a
well-formed one every call of `map_page` returns, and every step leaves a well-formed
state whose address space is the abstract operation's; spelled out for `map_page`, the
page asked for keeps its entry or gets the identity entry, the page of every table
frame taken by the call likewise, and every other page is as before. -/
theorem pageTables_refine {s₀ s : Vm} {ops : List VmOp} {pool : List U64}
    (h : WellFormed s₀ pool) (hpool : ∀ f ∈ pool, f.toNat < 2 ^ 47)
    (hrun : Run VmStep s₀ ops s) :
    (∀ a fl, VmmFlags fl → ∃ s', MapsPage s a fl s') ∧
    ∀ op s', VmStep s op s' →
      (∃ pool', pool' <:+ pool ∧ WellFormed s' pool') ∧
      s'.translate = op.refined s s' ∧
      match op with
      | .mapPage a fl =>
          (∀ x ∈ a :: s.newFrames s', s'.translate (pageOf x) =
            some ((s.translate (pageOf x)).getD (mkEntry x (fl ||| pageBitPPresent)))) ∧
          (∀ v, (∀ x ∈ a :: s.newFrames s', pageOf x ≠ v) →
            s'.translate v = s.translate v)
      | .unmapPage a => s'.translate (pageOf a) = none ∧
          ∀ v ≠ pageOf a, s'.translate v = s.translate v := by
  obtain ⟨pool₁, hsuf, hwf⟩ := wellFormed_run hrun h (frames_of_low hpool)
  have hpool₁ : ∀ f ∈ pool₁, f.toNat < 2 ^ 47 := fun f hf => hpool f (hsuf.mem hf)
  constructor
  · intro a fl hfl
    exact mapPage_returns hwf.root_aligned hwf.handsOut fl a
  · intro op s' hstep
    obtain ⟨pool', hsuf', hwf'⟩ := hstep.wellFormed hwf (frames_of_low hpool₁)
    have htrans := hstep.refines hwf hpool₁
    refine ⟨⟨pool', hsuf'.trans hsuf, hwf'⟩, htrans, ?_⟩
    rw [htrans]
    cases hstep with
    | @mapPage _ a fl ha hfl hcall hnull =>
        have hlow := hwf.mapPage_low hpool₁ ha hfl hcall hnull
        exact ⟨fun x hx => AddrSpace.identityMap_of_mem _ _ hx hlow,
          fun v hv => AddrSpace.identityMap_of_not_mem _ _ hv⟩
    | @unmapPage a ha hup =>
        exact ⟨AddrSpace.unmap_self _ _, fun v hv => AddrSpace.unmap_ne _ hv⟩

/-! A kernel with an empty root table and the frames from `0x2000` to `0x5000`. -/

def emptyVm : Vm where
  mem := fun _ => 0
  pml4 := 0x1000
  cr3 := 0x1000
  pmm := ⟨[⟨0x2000, 0x3000, stivale2MmapUsable⟩], 0, 0, 0⟩
  trace := []

theorem emptyVm_entry (t : U64) (i : Fin 512) : emptyVm.entry t i = 0#64 :=
  load64_zero _

theorem emptyVm_table {q : List (Fin 512)} {t : U64} (h : emptyVm.table q = some t) :
    q = [] ∧ t = 0x1000 := by
  cases q with
  | nil => exact ⟨rfl, (Option.some.inj h).symm⟩
  | cons i q =>
      rw [Vm.table, follow, Vm.child, emptyVm_entry,
        tableOf_of_not_present present_zero] at h
      exact absurd h (by simp)

theorem emptyVm_wellFormed : WellFormed emptyVm [0x2000, 0x3000, 0x4000] where
  root_aligned := by decide
  root_unreferenced := by
    intro q i _ h
    have := (emptyVm_table h).1
    simp at this
  one_parent := by
    intro p q i j t u n _ _ ht _ hti _
    rw [Vm.child, emptyVm_entry, tableOf_of_not_present present_zero] at hti
    exact absurd hti (by simp)
  no_large := by
    intro q t i _ ht hp
    rw [emptyVm_entry] at hp
    exact absurd hp (by decide)
  handsOut := handsOut_usablePages <| by
    intro e he _
    obtain rfl := List.mem_singleton.mp he
    decide
  pool_nodup := by decide
  pool_aligned := by simp [PageAligned, pageSize]
  pool_ne_zero := by simp
  pool_fresh := by
    intro f hf q _ h
    obtain ⟨-, rfl⟩ := emptyVm_table h
    simp at hf

theorem emptyVm_mapsPage : ∃ s', MapsPage emptyVm 0x5000 pageBitRwWritable s' ∧
    s'.nulls = emptyVm.nulls := by
  have h : (mapPage 6 emptyVm 0x5000 pageBitRwWritable).map Vm.nulls = some 0 := by
    decide +kernel
  obtain ⟨s', hs', hn⟩ := Option.map_eq_some_iff.mp h
  exact ⟨s', ⟨6, hs'⟩, hn⟩

theorem pageTables_refine_emptyVm : ∃ s',
    VmStep emptyVm (.mapPage 0x5000 pageBitRwWritable) s' ∧
    s'.translate (pageOf 0x5000) = some (0x5003 : U64) := by
  obtain ⟨s', hcall, hnull⟩ := emptyVm_mapsPage
  have hstep := VmStep.mapPage (by decide) (by decide) hcall hnull
  have h := ((pageTables_refine emptyVm_wellFormed (by simp) .start).2 _ _ hstep).2.2.1
    0x5000 List.mem_cons_self
  refine ⟨s', hstep, h.trans ?_⟩
  rfl

end FacelessOS
