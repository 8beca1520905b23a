import FacelessOS.Lib.RadixTree
import FacelessOS.Memory.PageEntry

/-!
# The page tables as a tree of frames

The abstract view of a page-table state: which frames are tables (`Vm.table`,
a radix tree of depth three below `pml4`), and which leaf entry a page has
(`Vm.translate`). `PageTree` is the invariant that carries every proof about
`map_page`: the tables form a tree and the frames the allocator can still hand
out are none of them. The two edits `map_page` makes keep it:

- `newTable_grown`: entering a fresh zeroed frame as a table,
- `setLeaf_grown`: filling an empty leaf entry.

Both are described by one relation, `Grown`, which composes along the recursion.
-/

namespace FacelessOS

open ByteStore RadixTree

/-- The table a non-leaf entry points to. A present entry with the page-size
bit maps a large page and points to none. -/
def tableOf (entry : U64) : Option U64 :=
  if present entry ∧ largePage entry = false then some (entry &&& pageAddrMask) else none

def MemEvent.frame? : MemEvent → Option U64
  | .pmmAlloc ret => ret
  | .stored _ _ => none

namespace Vm

def child (s : Vm) (table : U64) (i : Fin 512) : Option U64 :=
  tableOf (s.entry table i)

/-- The table frame at a path of at most three indices below `pml4`. -/
def table (s : Vm) (q : List (Fin 512)) : Option U64 := follow s.child s.pml4 q

/-- The leaf entry of a page, when all four levels are present. -/
def translate (s : Vm) (v : Page) : Option U64 :=
  (s.table v.upper).bind fun pt =>
    if present (s.entry pt v.i1) then some (s.entry pt v.i1) else none

/-- The frames handed out so far, latest first. -/
def frames (s : Vm) : List U64 := s.trace.filterMap MemEvent.frame?

def newFrames (s s' : Vm) : List U64 :=
  (s'.frames.take (s'.frames.length - s.frames.length)).reverse

/-- How often `pmm_alloc` has returned `NULL` so far. -/
def nulls (s : Vm) : ℕ := s.trace.count (.pmmAlloc none)

end Vm

/-- The page tables form a tree, apart from the frames still to be handed out. -/
structure PageTree (s : Vm) (pool : List U64) : Prop where
  root_aligned : PageAligned s.pml4
  tree : TreeShaped s.child s.pml4 3
  handsOut : HandsOut s.pmm.gmmap pool
  pool_nodup : pool.Nodup
  pool_frame : ∀ f ∈ pool, IsFrame f
  pool_fresh : ∀ f ∈ pool, ¬ Reached s.child s.pml4 3 f

/-- No large page stands in the way of the walk for `a`. -/
def ClearPath (s : Vm) (a : U64) : Prop :=
  ∀ (q : List (Fin 512)) (i : Fin 512), q ++ [i] <+: (pageOf a).upper →
    ∀ t, s.table q = some t → present (s.entry t i) → largePage (s.entry t i) = false

theorem tableOf_eq_some {e t : U64} :
    tableOf e = some t ↔ present e ∧ largePage e = false ∧ e &&& pageAddrMask = t := by
  unfold tableOf
  split
  · rename_i h
    simp [h.1, h.2]
  · rename_i h
    simp only [reduceCtorEq, false_iff]
    exact fun ⟨h1, h2, _⟩ => h ⟨h1, h2⟩

theorem tableOf_of_not_present {e : U64} (h : present e = false) : tableOf e = none := by
  rw [tableOf, if_neg (by simp [h])]

theorem tableOf_mkEntry {f : U64} {fl : U32} (hf : IsFrame f) (hfl : VmmFlags fl)
    (hp : HasPresent fl) : tableOf (mkEntry f fl) = some f :=
  tableOf_eq_some.mpr ⟨present_mkEntry hp, largePage_mkEntry hfl, mkEntry_mask hf hfl⟩

namespace Vm

variable {s : Vm}

theorem table_snoc_some {q : List (Fin 512)} {i : Fin 512} {n : U64} :
    s.table (q ++ [i]) = some n ↔
      ∃ t, s.table q = some t ∧ tableOf (s.entry t i) = some n :=
  follow_snoc_some

theorem table_upper {a pt : U64} (h : s.table (pageOf a).upper = some pt) :
    ∃ pdpt pdt, tableOf (s.entry s.pml4 (pml4Idx a)) = some pdpt ∧
      tableOf (s.entry pdpt (pdptIdx a)) = some pdt ∧
      tableOf (s.entry pdt (pdIdx a)) = some pt := by
  obtain ⟨pdt, hpdt, h2⟩ := table_snoc_some (q := [pml4Idx a, pdptIdx a]).mp h
  obtain ⟨pdpt, hpdpt, h3⟩ := table_snoc_some (q := [pml4Idx a]).mp hpdt
  obtain ⟨root, hroot, h4⟩ := table_snoc_some (q := []).mp hpdpt
  obtain rfl : s.pml4 = root := Option.some.inj hroot
  exact ⟨pdpt, pdt, h4, h3, h2⟩

theorem table_aligned (hroot : PageAligned s.pml4) {q : List (Fin 512)} {t : U64}
    (h : s.table q = some t) : PageAligned t := by
  cases q using List.reverseRecOn with
  | nil =>
      obtain rfl := Option.some.inj h
      exact hroot
  | append_singleton q i =>
      obtain ⟨u, -, hu⟩ := table_snoc_some.mp h
      rw [← (tableOf_eq_some.mp hu).2.2]
      exact pageAligned_mask _

theorem translate_eq_some {v : Page} {e : U64} :
    s.translate v = some e ↔ ∃ pt, s.table v.upper = some pt ∧
      s.entry pt v.i1 = e ∧ present e := by
  rw [translate, Option.bind_eq_some_iff]
  constructor
  · rintro ⟨pt, hpt, h⟩
    split at h
    · rename_i hp
      obtain rfl := Option.some.inj h
      exact ⟨pt, hpt, rfl, hp⟩
    · exact absurd h (by simp)
  · rintro ⟨pt, hpt, rfl, hp⟩
    exact ⟨pt, hpt, if_pos hp⟩

theorem newFrames_of_append {s' : Vm} {l : List U64} (h : s'.frames = l ++ s.frames) :
    s.newFrames s' = l.reverse := by
  have hlen : s'.frames.length - s.frames.length = l.length := by
    rw [h, List.length_append]
    omega
  rw [newFrames, hlen, h, List.take_left' rfl]

theorem frames_of_suffix {s' : Vm} (h : s.trace <:+ s'.trace) :
    s'.frames = (s.newFrames s').reverse ++ s.frames := by
  obtain ⟨l, hl⟩ := h
  have hf : s'.frames = l.filterMap MemEvent.frame? ++ s.frames := by
    rw [frames, ← hl, List.filterMap_append]
    rfl
  rw [newFrames_of_append hf, List.reverse_reverse, hf]

theorem newFrames_trans {s' s'' : Vm} (h : s.trace <:+ s'.trace)
    (h' : s'.trace <:+ s''.trace) :
    s.newFrames s'' = s.newFrames s' ++ s'.newFrames s'' := by
  have hf : s''.frames = ((s'.newFrames s'').reverse ++ (s.newFrames s').reverse) ++
      s.frames := by
    rw [frames_of_suffix h', frames_of_suffix h, List.append_assoc]
  rw [newFrames_of_append hf, ← List.reverse_append, List.reverse_reverse]

theorem translate_of_not_present {v : Page} {pt : U64} (hpt : s.table v.upper = some pt)
    (hp : present (s.entry pt v.i1) = false) : s.translate v = none := by
  rw [translate, hpt, Option.bind_some, hp]
  rfl

end Vm

theorem ClearPath.of_table {s : Vm} {a pt : U64}
    (h : s.table (pageOf a).upper = some pt) : ClearPath s a := by
  rintro q i ⟨rest, hpre⟩ t ht -
  rw [← hpre, Vm.table, follow_append, Option.bind_eq_some_iff] at h
  obtain ⟨n, hn, -⟩ := h
  obtain ⟨u, hu, hent⟩ := Vm.table_snoc_some.mp hn
  obtain rfl := Option.some.inj (ht.symm.trans hu)
  exact (tableOf_eq_some.mp hent).2.1

/-! ## Growth -/

/-- What `map_page` may do to the tables. The frames in `used` became tables and
the pages of the addresses in `pages` became mapped, all with the flags `fl`;
everything that was present stays as it was, and no byte outside the table
frames changes. -/
structure Grown (fl : U32) (used pages : List U64) (s s' : Vm) : Prop where
  pml4 : s'.pml4 = s.pml4
  cr3 : s'.cr3 = s.cr3
  frames : s'.frames = used.reverse ++ s.frames
  keep : ∀ q t, q.length ≤ 3 → s.table q = some t → s'.table q = some t ∧
    ∀ i, present (s.entry t i) → s'.entry t i = s.entry t i
  tables : ∀ q t, q.length ≤ 3 → s'.table q = some t → s.table q = some t ∨ t ∈ used
  entries : ∀ q t i, q.length ≤ 3 → s'.table q = some t → present (s'.entry t i) →
    (s.table q = some t ∧ s'.entry t i = s.entry t i) ∨
    ∃ x, s'.entry t i = mkEntry x fl ∧ (q.length < 3 → x ∈ used) ∧
      (q.length = 3 → x ∈ pages ∧ q = (pageOf x).upper ∧ i = (pageOf x).i1)
  mapped : ∀ x ∈ pages, (s'.translate (pageOf x)).isSome
  mem : ∀ x, (∀ q t, q.length ≤ 3 → s'.table q = some t → ¬ Within t pageSize x) →
    s'.mem x = s.mem x

namespace Grown

variable {fl : U32} {used used' pages pages' : List U64} {s s' s'' : Vm}

theorem refl (fl : U32) (s : Vm) : Grown fl [] [] s s where
  pml4 := rfl
  cr3 := rfl
  frames := rfl
  keep := fun _ _ _ h => ⟨h, fun _ _ => rfl⟩
  tables := fun _ _ _ h => Or.inl h
  entries := fun _ _ _ _ h _ => Or.inl ⟨h, rfl⟩
  mapped := fun _ hx => absurd hx List.not_mem_nil
  mem := fun _ _ => rfl

theorem newFrames (h : Grown fl used pages s s') : s.newFrames s' = used := by
  rw [Vm.newFrames_of_append h.frames, List.reverse_reverse]

theorem translate_keep (h : Grown fl used pages s s') {v : Page} {e : U64}
    (he : s.translate v = some e) : s'.translate v = some e := by
  obtain ⟨pt, hpt, rfl, hp⟩ := Vm.translate_eq_some.mp he
  obtain ⟨hpt', hkeep⟩ := h.keep v.upper pt (by simp) hpt
  exact Vm.translate_eq_some.mpr ⟨pt, hpt', hkeep _ hp, hp⟩

/-- A page is mapped afterwards only if it was mapped before or is one of
`pages`, and then it is mapped to itself. -/
theorem translate_new (h : Grown fl used pages s s') {v : Page} {e : U64}
    (he : s'.translate v = some e) :
    s.translate v = some e ∨ ∃ x ∈ pages, pageOf x = v ∧ e = mkEntry x fl := by
  obtain ⟨pt, hpt, rfl, hp⟩ := Vm.translate_eq_some.mp he
  rcases h.entries v.upper pt v.i1 (by simp) hpt hp with ⟨hold, heq⟩ | ⟨x, hx, -, hleaf⟩
  · exact Or.inl (Vm.translate_eq_some.mpr ⟨pt, hold, heq.symm, hp⟩)
  · obtain ⟨hmem, hup, hi1⟩ := hleaf (by simp)
    refine Or.inr ⟨x, hmem, ?_, hx⟩
    simp only [Page.upper, List.cons.injEq, and_true] at hup
    obtain ⟨h4, h3, h2⟩ := hup
    cases v
    simp_all

theorem trans (h : Grown fl used pages s s') (h' : Grown fl used' pages' s' s'') :
    Grown fl (used ++ used') (pages ++ pages') s s'' where
  pml4 := h'.pml4.trans h.pml4
  cr3 := h'.cr3.trans h.cr3
  frames := by rw [h'.frames, h.frames, List.reverse_append, List.append_assoc]
  keep := by
    intro q t hq ht
    obtain ⟨ht', hkeep⟩ := h.keep q t hq ht
    obtain ⟨ht'', hkeep'⟩ := h'.keep q t hq ht'
    refine ⟨ht'', fun i hp => ?_⟩
    rw [hkeep' i (by rw [hkeep i hp]; exact hp), hkeep i hp]
  tables := by
    intro q t hq ht
    rcases h'.tables q t hq ht with ht' | hmem
    · rcases h.tables q t hq ht' with ht | hmem
      · exact Or.inl ht
      · exact Or.inr (List.mem_append_left _ hmem)
    · exact Or.inr (List.mem_append_right _ hmem)
  entries := by
    intro q t i hq ht hp
    rcases h'.entries q t i hq ht hp with ⟨ht', heq⟩ | ⟨x, hx, hu, hl⟩
    · rw [heq] at hp
      rcases h.entries q t i hq ht' hp with ⟨ht, heq'⟩ | ⟨x, hx, hu, hl⟩
      · exact Or.inl ⟨ht, heq.trans heq'⟩
      · exact Or.inr ⟨x, heq.trans hx, fun hlt => List.mem_append_left _ (hu hlt),
          fun h3 => ⟨List.mem_append_left _ (hl h3).1, (hl h3).2⟩⟩
    · exact Or.inr ⟨x, hx, fun hlt => List.mem_append_right _ (hu hlt),
        fun h3 => ⟨List.mem_append_right _ (hl h3).1, (hl h3).2⟩⟩
  mapped := by
    intro x hx
    rcases List.mem_append.mp hx with hx | hx
    · obtain ⟨e, he⟩ := Option.isSome_iff_exists.mp (h.mapped x hx)
      rw [h'.translate_keep he]
      rfl
    · exact h'.mapped x hx
  mem := by
    intro x hx
    rw [h'.mem x hx]
    exact h.mem x fun q t hq ht => hx q t hq (h'.keep q t hq ht).1

theorem of_pages (h : Grown fl used pages s s') (hsub : ∀ x ∈ pages, x ∈ pages')
    (hmapped : ∀ x ∈ pages', (s'.translate (pageOf x)).isSome) :
    Grown fl used pages' s s' :=
  { h with
    entries := fun q t i hq ht hp => by
      rcases h.entries q t i hq ht hp with hold | ⟨x, hx, hu, hl⟩
      · exact Or.inl hold
      · exact Or.inr ⟨x, hx, hu, fun h3 => ⟨hsub x (hl h3).1, (hl h3).2⟩⟩
    mapped := hmapped }

/-- New entries never map large pages, so clear walks stay clear. -/
theorem clearPath (h : Grown fl used pages s s') (hfl : VmmFlags fl) {a : U64}
    (ha : ClearPath s a) : ClearPath s' a := by
  intro q i hpre t ht hp
  have hlen : q.length ≤ 3 := by
    have := hpre.length_le
    rw [List.length_append, List.length_singleton, Page.length_upper] at this
    omega
  rcases h.entries q t i hlen ht hp with ⟨hold, heq⟩ | ⟨x, hx, -, -⟩
  · rw [heq] at hp ⊢
    exact ha q i hpre t hold hp
  · rw [hx]
    exact largePage_mkEntry hfl

end Grown

/-! ## The two edits -/

structure NewTable (s : Vm) (t : U64) (i : Fin 512) (fl : U32) (f : U64)
    (gmmap : List MmapEntry) (s' : Vm) : Prop where
  pml4 : s'.pml4 = s.pml4
  cr3 : s'.cr3 = s.cr3
  gmmap : s'.pmm.gmmap = gmmap
  frames : s'.frames = f :: s.frames
  entry : ∀ u j, PageAligned u → s'.entry u j =
    if u = t ∧ j = i then mkEntry f fl else if u = f then 0#64 else s.entry u j
  mem : ∀ x, ¬ Within f pageSize x → ¬ Within t pageSize x → s'.mem x = s.mem x

theorem newTable_spec {s : Vm} {t f : U64} {i : Fin 512} {fl : U32}
    {gmmap : List MmapEntry} (hframe : takeFrame s.pmm.gmmap = some (f, gmmap))
    (hf : PageAligned f) (ht : PageAligned t) :
    (newTable s t i fl).1 = f ∧ NewTable s t i fl f gmmap (newTable s t i fl).2 := by
  have halloc := Vm.pmmAlloc_of_some hframe
  have hfst : s.pmmAlloc.1 = f := by rw [halloc]
  refine ⟨hfst, rfl, rfl, ?_, ?_, ?_, ?_⟩
  · rw [gmmap_newTable, halloc]
  · rw [newTable_eq, halloc]
    rfl
  · intro u j hu
    rw [entry_newTable (by rw [hfst]; exact hf) ht hu, hfst]
  · intro x hxf hxt
    rw [newTable_eq, hfst, Vm.mem_setEntry _ ht _ _ hxt]
    show fill (fill s.mem f pageSize 0) f pageSize 0 x = s.mem x
    rw [fill_of_not_within hxf, fill_of_not_within hxf]

section Edits

variable {s s' : Vm} {pool : List U64} {fl : U32} {t f : U64} {i : Fin 512}
  {gmmap : List MmapEntry} {p : List (Fin 512)}

/-- Entering the fresh frame `f` at an empty slot makes exactly its path new. -/
theorem NewTable.table (hn : NewTable s t i fl f gmmap s') (h : PageTree s (f :: pool))
    (hp : p.length < 3) (ht : s.table p = some t) (hnone : present (s.entry t i) = false)
    (hfl : VmmFlags fl) (hpr : HasPresent fl) :
    ∀ q : List (Fin 512), q.length ≤ 3 →
      s'.table q = if q = p ++ [i] then some f else s.table q := by
  have hfresh := h.pool_fresh f List.mem_cons_self
  have hframe := h.pool_frame f List.mem_cons_self
  have hta := Vm.table_aligned h.root_aligned ht
  have hft : f ≠ t := fun heq => hfresh ⟨p, by omega, heq ▸ ht⟩
  have hnew : s'.child t i = some f := by
    rw [Vm.child, hn.entry t i hta, if_pos ⟨rfl, rfl⟩]
    exact tableOf_mkEntry hframe hfl hpr
  have hlink := follow_link h.tree hp ht (tableOf_of_not_present hnone) hnew
    (by
      intro j
      rw [Vm.child, hn.entry f j hframe.aligned, if_neg (fun h => hft h.1), if_pos rfl]
      rfl)
    (by
      intro q u hq hu j hne
      have huf : u ≠ f := fun heq => hfresh ⟨q, by omega, heq ▸ hu⟩
      rw [Vm.child, Vm.child, hn.entry u j (Vm.table_aligned h.root_aligned hu),
        if_neg hne, if_neg huf])
  intro q hq
  rw [Vm.table, hn.pml4]
  exact hlink q hq

theorem NewTable.pageTree (hn : NewTable s t i fl f gmmap s')
    (h : PageTree s (f :: pool)) (hout : HandsOut gmmap pool)
    (hp : p.length < 3) (ht : s.table p = some t) (hnone : present (s.entry t i) = false)
    (hfl : VmmFlags fl) (hpr : HasPresent fl) : PageTree s' pool := by
  have htable := hn.table h hp ht hnone hfl hpr
  have hfresh := h.pool_fresh f List.mem_cons_self
  obtain ⟨hnotin, hnodup⟩ := List.nodup_cons.mp h.pool_nodup
  refine ⟨by rw [hn.pml4]; exact h.root_aligned, ?_, by rw [hn.gmmap]; exact hout,
    hnodup, fun g hg => h.pool_frame g (List.mem_cons_of_mem _ hg), ?_⟩
  · have hlink : ∀ q : List (Fin 512), q.length ≤ 3 → follow s'.child s.pml4 q =
        if q = p ++ [i] then some f else follow s.child s.pml4 q := by
      intro q hq
      have := htable q hq
      rw [Vm.table, hn.pml4] at this
      exact this
    rw [hn.pml4]
    exact treeShaped_link h.tree hfresh hlink
  · rintro g hg ⟨q, hq, hqg⟩
    have hq' := htable q hq
    rw [Vm.table, hqg] at hq'
    split at hq'
    · obtain rfl := Option.some.inj hq'
      exact hnotin hg
    · exact h.pool_fresh g (List.mem_cons_of_mem _ hg) ⟨q, hq, hq'.symm⟩

/-- **Entering a table.** A fresh frame at an empty slot of the tree keeps the
invariant and adds no mapping. -/
theorem NewTable.grown (hn : NewTable s t i fl f gmmap s') (h : PageTree s (f :: pool))
    (hp : p.length < 3) (ht : s.table p = some t) (hnone : present (s.entry t i) = false)
    (hfl : VmmFlags fl) (hpr : HasPresent fl) : Grown fl [f] [] s s' := by
  have htable := hn.table h hp ht hnone hfl hpr
  have hfresh := h.pool_fresh f List.mem_cons_self
  have hfa := (h.pool_frame f List.mem_cons_self).aligned
  have hold : ∀ q u, q.length ≤ 3 → s.table q = some u → s'.table q = some u := by
    intro q u hq hu
    rw [htable q hq]
    split
    · rename_i heq
      obtain ⟨u', hu', hent⟩ := Vm.table_snoc_some.mp (heq ▸ hu)
      obtain rfl := Option.some.inj (ht.symm.trans hu')
      rw [tableOf_of_not_present hnone] at hent
      exact absurd hent (by simp)
    · exact hu
  have hne : ∀ q u, q.length ≤ 3 → s.table q = some u → u ≠ f :=
    fun q u hq hu heq => hfresh ⟨q, hq, heq ▸ hu⟩
  refine ⟨hn.pml4, hn.cr3, hn.frames, ?_, ?_, ?_, ?_, ?_⟩
  · intro q u hq hu
    refine ⟨hold q u hq hu, fun j hpj => ?_⟩
    have hslot : ¬ (u = t ∧ j = i) := by
      rintro ⟨rfl, rfl⟩
      rw [hnone] at hpj
      exact Bool.noConfusion hpj
    rw [hn.entry u j (Vm.table_aligned h.root_aligned hu), if_neg hslot,
      if_neg (hne q u hq hu)]
  · intro q u hq hu
    rw [htable q hq] at hu
    split at hu
    · exact Or.inr (by simp [(Option.some.inj hu).symm])
    · exact Or.inl hu
  · intro q u j hq hu hpj
    rw [htable q hq] at hu
    split at hu
    · -- the fresh table itself is empty
      obtain rfl := Option.some.inj hu
      have hft : f ≠ t := fun heq => hne p t (by omega) ht heq.symm
      rw [hn.entry f j hfa, if_neg (fun h => hft h.1), if_pos rfl] at hpj
      exact absurd hpj (by decide)
    · have huf := hne q u hq hu
      rw [hn.entry u j (Vm.table_aligned h.root_aligned hu), if_neg huf] at hpj ⊢
      split
      · rename_i hslot
        obtain ⟨rfl, rfl⟩ := hslot
        have hqp : q = p := h.tree.eq_path hq (by omega) hu ht
        exact Or.inr ⟨f, rfl, fun _ => by simp, fun h3 => by rw [hqp] at h3; omega⟩
      · exact Or.inl ⟨hu, rfl⟩
  · exact fun x hx => absurd hx List.not_mem_nil
  · intro x hx
    have hpi : (p ++ [i]).length ≤ 3 := by simp; omega
    exact hn.mem x (hx (p ++ [i]) f hpi (by rw [htable _ hpi, if_pos rfl]))
      (hx p t (by omega) (hold p t (by omega) ht))

end Edits

theorem PageTree.of_table {s s' : Vm} {pool pool' : List U64} (h : PageTree s pool)
    (hpml4 : s'.pml4 = s.pml4) (hout : HandsOut s'.pmm.gmmap pool')
    (hpool : pool'.Sublist pool)
    (htable : ∀ q : List (Fin 512), q.length ≤ 3 → s'.table q = s.table q) :
    PageTree s' pool' := by
  refine ⟨by rw [hpml4]; exact h.root_aligned, ?_, hout, hpool.nodup h.pool_nodup,
    fun f hf => h.pool_frame f (hpool.mem hf), ?_⟩
  · intro q q' hq hq' n hn hn'
    exact h.tree.eq_path hq hq' ((htable q hq).symm.trans hn)
      ((htable q' hq').symm.trans hn')
  · rintro f hf ⟨q, hq, hqf⟩
    exact h.pool_fresh f (hpool.mem hf) ⟨q, hq, (htable q hq).symm.trans hqf⟩

theorem table_setLeaf {s : Vm} {pool : List U64} (h : PageTree s pool)
    {q₀ : List (Fin 512)} {t : U64} (hq₀ : q₀.length = 3) (ht : s.table q₀ = some t)
    (i : Fin 512) (e : U64) :
    ∀ q : List (Fin 512), q.length ≤ 3 → (s.setEntry t i e).table q = s.table q := by
  refine follow_congr fun q u hq hu j => ?_
  have hut : ¬ (u = t ∧ j = i) := by
    rintro ⟨rfl, -⟩
    have := h.tree.eq_path (by omega) (by omega) hu ht
    rw [this, hq₀] at hq
    omega
  rw [Vm.child, Vm.child, Vm.entry_setEntry _ (Vm.table_aligned h.root_aligned ht)
    (Vm.table_aligned h.root_aligned hu), if_neg hut]

theorem pageTree_setLeaf {s : Vm} {pool : List U64} (h : PageTree s pool)
    {q₀ : List (Fin 512)} {t : U64} (hq₀ : q₀.length = 3) (ht : s.table q₀ = some t)
    (i : Fin 512) (e : U64) : PageTree (s.setEntry t i e) pool := by
  exact h.of_table rfl h.handsOut (List.Sublist.refl _) (table_setLeaf h hq₀ ht i e)

/-- **Filling a leaf.** Storing the identity entry of `a` into its empty leaf
maps the page of `a` and nothing else. -/
theorem setLeaf_grown {s : Vm} {pool : List U64} (h : PageTree s pool) {a t : U64}
    {fl : U32} (ht : s.table (pageOf a).upper = some t)
    (hnone : present (s.entry t (ptIdx a)) = false) (hpr : HasPresent fl) :
    Grown fl [] [a] s (s.setEntry t (ptIdx a) (mkEntry a fl)) := by
  have hlen : (pageOf a).upper.length = 3 := Page.length_upper _
  have htable := table_setLeaf h hlen ht (ptIdx a) (mkEntry a fl)
  have hta := Vm.table_aligned h.root_aligned ht
  have hentry : ∀ q u j, s.table q = some u →
      (s.setEntry t (ptIdx a) (mkEntry a fl)).entry u j =
        if u = t ∧ j = ptIdx a then mkEntry a fl else s.entry u j :=
    fun q u j hu => Vm.entry_setEntry _ hta (Vm.table_aligned h.root_aligned hu) _ _ _
  refine ⟨rfl, rfl, rfl, ?_, ?_, ?_, ?_, ?_⟩
  · intro q u hq hu
    refine ⟨(htable q hq).trans hu, fun j hpj => ?_⟩
    have hslot : ¬ (u = t ∧ j = ptIdx a) := by
      rintro ⟨rfl, rfl⟩
      rw [hnone] at hpj
      exact Bool.noConfusion hpj
    rw [hentry q u j hu, if_neg hslot]
  · intro q u hq hu
    exact Or.inl ((htable q hq).symm.trans hu)
  · intro q u j hq hu hpj
    have hu' := (htable q hq).symm.trans hu
    rw [hentry q u j hu']
    split
    · rename_i hslot
      obtain ⟨rfl, rfl⟩ := hslot
      have hqa : q = (pageOf a).upper := h.tree.eq_path hq (by omega) hu' ht
      exact Or.inr ⟨a, rfl, fun h3 => by rw [hqa, hlen] at h3; omega,
        fun _ => ⟨List.mem_singleton_self a, hqa, rfl⟩⟩
    · exact Or.inl ⟨hu', rfl⟩
  · intro x hx
    obtain rfl := List.mem_singleton.mp hx
    have hself : (s.setEntry t (ptIdx x) (mkEntry x fl)).translate (pageOf x) =
        some (mkEntry x fl) := by
      refine Vm.translate_eq_some.mpr ⟨t, (htable _ (by simp)).trans ht, ?_,
        present_mkEntry hpr⟩
      exact (hentry _ t _ ht).trans (if_pos ⟨rfl, rfl⟩)
    rw [hself]
    rfl
  · intro x hx
    exact Vm.mem_setEntry _ hta _ _
      (hx _ t (by simp) ((htable _ (by simp)).trans ht))

/-! ## Stores outside the tables -/

theorem PageTree.entry_of_mem {s s' : Vm} {pool : List U64} (h : PageTree s pool)
    (hmem : ∀ q t, q.length ≤ 3 → s.table q = some t →
      ∀ x, Within t pageSize x → s'.mem x = s.mem x) {q : List (Fin 512)} {t : U64}
    (hq : q.length ≤ 3) (ht : s.table q = some t) (i : Fin 512) :
    s'.entry t i = s.entry t i :=
  load64_congr fun x hx =>
    hmem q t hq ht x (within_frame_of_entry (Vm.table_aligned h.root_aligned ht) hx)

theorem PageTree.of_mem {s s' : Vm} {pool pool' : List U64} (h : PageTree s pool)
    (hpml4 : s'.pml4 = s.pml4) (hout : HandsOut s'.pmm.gmmap pool')
    (hpool : pool'.Sublist pool)
    (hmem : ∀ q t, q.length ≤ 3 → s.table q = some t →
      ∀ x, Within t pageSize x → s'.mem x = s.mem x) :
    PageTree s' pool' ∧ (∀ q : List (Fin 512), q.length ≤ 3 → s'.table q = s.table q) ∧
      s'.translate = s.translate := by
  have htable : ∀ q : List (Fin 512), q.length ≤ 3 → s'.table q = s.table q := by
    intro q hq
    rw [Vm.table, hpml4]
    refine follow_congr (fun q t hq ht i => ?_) q hq
    rw [Vm.child, Vm.child, h.entry_of_mem hmem (by omega) ht]
  refine ⟨h.of_table hpml4 hout hpool htable, htable, ?_⟩
  funext v
  rw [Vm.translate, Vm.translate, htable _ (by simp)]
  cases hv : s.table v.upper with
  | none => rw [Option.bind_none, Option.bind_none]
  | some pt =>
      rw [Option.bind_some, Option.bind_some, h.entry_of_mem hmem (by simp) hv]

end FacelessOS
