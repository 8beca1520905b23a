import FacelessOS.Lib.Demands
import FacelessOS.Memory.FrameOwners
import FacelessOS.Memory.Permissions

/-!
# The order of mappings

A call of `map_page` makes the tables that the page asked for needs, and each frame it
takes for one needs tables itself. The frames come in one order, whatever they are taken
for, so two orders of calls give a frame to different tables. They make equally many, and
the pages mapped in the end are the same (`mapPages_comm`). The counting is that of
`Demands`, with the paths of the tables as items.
-/

namespace FacelessOS

open RadixTree Runs Demands

/-- The page of `x` needs a table at this path. -/
def NeedsTable (x : U64) (q : List (Fin 512)) : Prop := q <+: (pageOf x).upper

/-- The tables at these paths are missing in `s`, and are made in this order for the roots
and for the frames of the pool before. -/
def MakesTables (s : Vm) (roots pool : List U64) (paths : List (List (Fin 512))) : Prop :=
  MadeInOrder NeedsTable (fun q => s.table q = none) roots pool paths

/-- What happened from `s` to `s'` without a frame being refused: the frames in `used`
are the tables at `paths`, made in order. -/
structure Served (fl : U32) (s s' : Vm) (roots used rest pages : List U64)
    (paths : List (List (Fin 512))) : Prop where
  tree : PageTree s' rest
  grown : Grown fl used pages s s'
  made : MakesTables s roots (used ++ rest) paths
  tables : paths.map s'.table = used.map some

/-- What happened from `s` to `s'` to serve these roots from this pool. If a frame was
refused, the whole pool and one more were needed. -/
structure ServesRoots (fl : U32) (s s' : Vm) (roots pool : List U64) : Prop where
  nulls_le : s.nulls ≤ s'.nulls
  served : s'.nulls = s.nulls → ∃ used rest pages paths, pool = used ++ rest ∧
    Served fl s s' roots used rest pages paths
  refused : s.nulls < s'.nulls → ∃ paths, MakesTables s roots pool paths ∧
    paths.length = pool.length + 1

theorem NeedsTable.length_le {x : U64} {q : List (Fin 512)} (h : NeedsTable x q) :
    q.length ≤ 3 := by
  have := List.IsPrefix.length_le h
  rwa [Page.length_upper] at this

theorem MakesTables.path_length {s : Vm} {roots pool : List U64}
    {paths : List (List (Fin 512))} (h : MakesTables s roots pool paths)
    {q : List (Fin 512)} (hq : q ∈ paths) : q.length ≤ 3 := by
  obtain ⟨k, hk⟩ := List.mem_iff_getElem?.mp hq
  obtain ⟨x, -, hneeds⟩ := h.asked k q hk
  exact hneeds.length_le

namespace Served

variable {fl : U32} {s s' s'' : Vm} {roots roots' used used' rest rest' pages pages' : List U64}
  {paths paths' : List (List (Fin 512))}

theorem length_paths (h : Served fl s s' roots used rest pages paths) :
    paths.length = used.length := by
  have := congrArg List.length h.tables
  rwa [List.length_map, List.length_map] at this

theorem table_of_mem (h : Served fl s s' roots used rest pages paths) {q : List (Fin 512)}
    (hq : q ∈ paths) : ∃ f ∈ used, s'.table q = some f := by
  have hmem : s'.table q ∈ used.map some := by
    rw [← h.tables]
    exact List.mem_map_of_mem hq
  obtain ⟨f, hf, heq⟩ := List.mem_map.mp hmem
  exact ⟨f, hf, heq.symm⟩

theorem append (h : Served fl s s' roots used rest pages paths)
    (h' : MakesTables s' roots' rest paths') (hroots : ∀ x ∈ roots', x ∈ roots ++ used) :
    MakesTables s roots (used ++ rest) (paths ++ paths') := by
  refine MadeInOrder.append h.made h' h.length_paths ?_ hroots
  intro x q hneeds hnone
  constructor
  · cases hq : s.table q with
    | none => rfl
    | some t =>
        rw [(h.grown.keep q t hneeds.length_le hq).1] at hnone
        exact absurd hnone (by simp)
  · intro hq
    obtain ⟨f, -, hf⟩ := h.table_of_mem hq
    rw [hf] at hnone
    exact absurd hnone (by simp)

theorem trans (h : Served fl s s' roots used (used' ++ rest') pages paths)
    (h' : Served fl s' s'' roots' used' rest' pages' paths')
    (hroots : ∀ x ∈ roots', x ∈ roots ++ used) :
    Served fl s s'' roots (used ++ used') rest' (pages ++ pages') (paths ++ paths') where
  tree := h'.tree
  grown := h.grown.trans h'.grown
  made := by
    rw [List.append_assoc]
    exact h.append h'.made hroots
  tables := by
    have hold : paths.map s''.table = paths.map s'.table := by
      apply List.map_congr_left
      intro q hq
      obtain ⟨f, -, hf⟩ := h.table_of_mem hq
      rw [hf, (h'.grown.keep q f (h.made.path_length hq) hf).1]
    rw [List.map_append, List.map_append, hold, h.tables, h'.tables]

theorem complete (h : Served fl s s' roots used rest pages paths)
    (hmapped : ∀ x ∈ roots ++ used, (s'.translate (pageOf x)).isSome) :
    Complete NeedsTable (fun q => s.table q = none) roots (used ++ rest) paths := by
  intro x hx q hneeds hnone
  rw [h.length_paths, List.take_left' rfl] at hx
  obtain ⟨e, he⟩ := Option.isSome_iff_exists.mp (hmapped x hx)
  obtain ⟨pt, hpt, -⟩ := Vm.translate_eq_some.mp he
  -- the way to the page table leads through `q`
  obtain ⟨t, ht⟩ : ∃ t, s'.table q = some t := by
    obtain ⟨more, hmore⟩ := hneeds
    rw [← hmore, Vm.table, follow_append, Option.bind_eq_some_iff] at hpt
    obtain ⟨t, ht, -⟩ := hpt
    exact ⟨t, ht⟩
  have hused : t ∈ used := by
    rcases h.grown.tables q t hneeds.length_le ht with hold | hused
    · rw [hnone] at hold
      exact absurd hold (by simp)
    · exact hused
  have hmem : some t ∈ paths.map s'.table := by
    rw [h.tables]
    exact List.mem_map_of_mem hused
  obtain ⟨q', hq', hqt⟩ := List.mem_map.mp hmem
  rwa [h.tree.tree.eq_path hneeds.length_le (h.made.path_length hq') ht hqt]

end Served

namespace ServesRoots

variable {fl : U32} {s s' s'' : Vm} {roots roots' pool : List U64}

theorem refl (h : PageTree s pool) : ServesRoots fl s s roots pool where
  nulls_le := Nat.le_refl _
  served := fun _ => ⟨[], pool, [], [], rfl, h, Grown.refl fl s, .nil, rfl⟩
  refused := fun hlt => absurd hlt (Nat.lt_irrefl _)

theorem mono (h : ServesRoots fl s s' roots pool) (hroots : ∀ x ∈ roots, x ∈ roots') :
    ServesRoots fl s s' roots' pool where
  nulls_le := h.nulls_le
  served := by
    intro hnull
    obtain ⟨used, rest, pages, paths, hpool, hs⟩ := h.served hnull
    exact ⟨used, rest, pages, paths, hpool, hs.tree, hs.grown, hs.made.mono hroots, hs.tables⟩
  refused := by
    intro hlt
    obtain ⟨paths, hmade, hlen⟩ := h.refused hlt
    exact ⟨paths, hmade.mono hroots, hlen⟩

/-- What follows serves the frames taken so far and the roots, from what is left of the
pool; after a refusal nothing is known of it. -/
theorem trans (h : ServesRoots fl s s' roots pool) (hle : s'.nulls ≤ s''.nulls)
    (hnext : ∀ used rest pages paths, s'.nulls = s.nulls → pool = used ++ rest →
      Served fl s s' roots used rest pages paths →
      ∃ roots', ServesRoots fl s' s'' roots' rest ∧ ∀ x ∈ roots', x ∈ roots ++ used) :
    ServesRoots fl s s'' roots pool where
  nulls_le := h.nulls_le.trans hle
  served := by
    intro hnull
    have hmid : s'.nulls = s.nulls := by
      have := h.nulls_le
      omega
    obtain ⟨used, rest, pages, paths, rfl, hs⟩ := h.served hmid
    obtain ⟨roots', hrest, hroots⟩ := hnext used rest pages paths hmid rfl hs
    obtain ⟨used', rest', pages', paths', rfl, hs'⟩ := hrest.served (by omega)
    exact ⟨used ++ used', rest', _, _, by rw [List.append_assoc], hs.trans hs' hroots⟩
  refused := by
    intro hlt
    by_cases hmid : s'.nulls = s.nulls
    · obtain ⟨used, rest, pages, paths, rfl, hs⟩ := h.served hmid
      obtain ⟨roots', hrest, hroots⟩ := hnext used rest pages paths hmid rfl hs
      obtain ⟨paths', hmade, hlen⟩ := hrest.refused (by omega)
      refine ⟨paths ++ paths', hs.append hmade hroots, ?_⟩
      rw [List.length_append, List.length_append, hs.length_paths, hlen]
      omega
    · have := h.nulls_le
      exact h.refused (by omega)

end ServesRoots

/-! ## One call -/

def ServesSpec (recur : Vm → U64 → U32 → Option Vm) (fl : U32) : Prop :=
  ∀ (s : Vm) (pool : List U64) (a : U64) (s' : Vm), PageTree s pool →
    (∀ x, ClearPath s x) → recur s a fl = some s' → ServesRoots fl s s' [a] pool

theorem nextTable_serves {recur : Vm → U64 → U32 → Option Vm} {fl : U32}
    (hrec : ServesSpec recur fl)
    (hmono : ∀ {s a s'}, recur s a fl = some s' → s.trace <:+ s'.trace)
    (hfl : VmmFlags fl) (hpr : HasPresent fl) {s s' : Vm} {pool : List U64} {a t t' : U64}
    {p : List (Fin 512)} {i : Fin 512} (h : PageTree s pool) (hclear : ∀ x, ClearPath s x)
    (hp : NeedsTable a (p ++ [i])) (ht : s.table p = some t)
    (hnext : nextTable recur s t i fl = some (s', t')) : ServesRoots fl s s' [a] pool := by
  have hlen := hp.length_le
  rw [List.length_append, List.length_singleton] at hlen
  rcases nextTable_cases hnext with ⟨-, rfl, -⟩ | ⟨habs, hcall, -⟩
  · exact .refl h
  · have hnone : s.table (p ++ [i]) = none := by
      rw [Option.eq_none_iff_forall_not_mem]
      intro n hn
      obtain ⟨u, hu, hent⟩ := Vm.table_snoc_some.mp hn
      obtain rfl := Option.some.inj (ht.symm.trans hu)
      rw [tableOf_of_not_present habs] at hent
      exact absurd hent (by simp)
    have hone : ∀ pool, MakesTables s [a] pool [p ++ [i]] := fun pool =>
      MadeInOrder.singleton (List.mem_singleton_self a) hp hnone
    have hle := Vm.nulls_le (hmono hcall)
    cases hout : h.handsOut with
    | done hnoframe =>
        -- this table is the one for which no frame was left
        have hcount : (newTable s t i fl).2.nulls = s.nulls + 1 := by
          rw [Vm.nulls, newTable_trace, hnoframe]
          simp [Vm.nulls]
        exact ⟨by omega, fun hnull => by omega, fun _ => ⟨_, hone [], rfl⟩⟩
    | @page _ gmmap f pool hsome hrest =>
        have hframe := h.pool_frame f List.mem_cons_self
        obtain ⟨hfst, hn⟩ : (newTable s t i fl).1 = f ∧ NewTable s t i fl f gmmap _ :=
          newTable_spec hsome hframe.aligned (Vm.table_aligned h.root_aligned ht)
        rw [hfst] at hcall
        have htree := hn.pageTree h hrest (by omega) ht habs hfl hpr
        have hlink := hn.grown h (by omega) ht habs hfl hpr
        have hcount : (newTable s t i fl).2.nulls = s.nulls := by
          rw [Vm.nulls, newTable_trace, hsome]
          simp [Vm.nulls]
        have hslot := hn.table h (by omega) ht habs hfl hpr (p ++ [i]) (by simp; omega)
        rw [if_pos rfl] at hslot
        have hfirst : ServesRoots fl s (newTable s t i fl).2 [a] (f :: pool) := by
          refine ⟨by omega, fun _ => ⟨[f], pool, [], [p ++ [i]], rfl, htree, hlink,
            hone _, ?_⟩, fun hlt => by omega⟩
          rw [List.map_singleton, hslot, List.map_singleton]
        refine hfirst.trans hle fun used rest pages paths _ _ hs => ⟨[f],
          hrec _ rest f s' hs.tree (fun x => hlink.clearPath hfl (hclear x)) hcall, ?_⟩
        intro x hx
        rw [← hs.grown.newFrames, hlink.newFrames]
        exact List.mem_append_right _ hx

theorem mapPage_serves (fuel : ℕ) {fl : U32} (hfl : VmmFlags fl) (hpr : HasPresent fl) :
    ServesSpec (mapPage fuel) fl := by
  induction fuel with
  | zero => intro s pool a s' _ _ h; exact absurd h (by simp [mapPage])
  | succ fuel ih =>
      intro s pool a s' h hclear hcall
      obtain ⟨s₁, pdpt, s₂, pdt, s₃, pt, h₁, h₂, h₃, hend⟩ := mapPage_cases hcall
      rw [hpr.or_present] at h₁ h₂ h₃ hend
      have hspec := mapPage_spec fuel hfl hpr
      -- a level, and the table it leads to where it is refused no frame
      have hlevel : ∀ {s s' : Vm} {t t' : U64} {p : List (Fin 512)} {i : Fin 512}
          {pool : List U64}, PageTree s pool → (∀ x, ClearPath s x) →
          NeedsTable a (p ++ [i]) → s.table p = some t →
          nextTable (mapPage fuel) s t i fl = some (s', t') →
          ServesRoots fl s s' [a] pool ∧
            (s'.nulls = s.nulls → s'.table (p ++ [i]) = some t') := by
        intro s s' t t' p i pool h hclear hp ht hnext
        refine ⟨nextTable_serves ih mapPage_trace hfl hpr h hclear hp ht hnext, fun hnull => ?_⟩
        have hlen := hp.length_le
        rw [List.length_append, List.length_singleton] at hlen
        obtain ⟨-, -, -, -, -, htable⟩ := nextTable_grown hspec mapPage_trace hfl hpr h
          (by omega) ht (hclear a p i hp t ht) hnext hnull fun f _ => hclear f
        exact htable
      have hkeep : ∀ x ∈ [a], ∀ used, x ∈ [a] ++ used := fun x hx used =>
        List.mem_append_left used hx
      -- level 4
      obtain ⟨hserve₁, htable₁⟩ := hlevel h hclear (p := []) ⟨[_, _], rfl⟩ rfl h₁
      -- level 3
      have hlevel₂ : ∀ {used rest pages paths}, s₁.nulls = s.nulls →
          Served fl s s₁ [a] used rest pages paths → ServesRoots fl s₁ s₂ [a] rest ∧
            (s₂.nulls = s₁.nulls → s₂.table [pml4Idx a, pdptIdx a] = some pdt) :=
        fun hnull hs => hlevel hs.tree (fun x => hs.grown.clearPath hfl (hclear x))
          (p := [pml4Idx a]) ⟨[_], rfl⟩ (htable₁ hnull) h₂
      have hserve₂ : ServesRoots fl s s₂ [a] pool :=
        hserve₁.trans (Vm.nulls_le (nextTable_trace h₂)) fun used rest pages paths hnull _ hs =>
          ⟨[a], (hlevel₂ hnull hs).1, fun x hx => hkeep x hx used⟩
      have htable₂ : s₂.nulls = s.nulls → s₂.table [pml4Idx a, pdptIdx a] = some pdt := by
        intro hnull
        have hle₁ := hserve₁.nulls_le
        have hle₂ := Vm.nulls_le (nextTable_trace h₂)
        obtain ⟨used, rest, pages, paths, -, hs⟩ := hserve₁.served (by omega)
        exact (hlevel₂ (by omega) hs).2 (by omega)
      -- level 2
      have hlevel₃ : ∀ {used rest pages paths}, s₂.nulls = s.nulls →
          Served fl s s₂ [a] used rest pages paths → ServesRoots fl s₂ s₃ [a] rest ∧
            (s₃.nulls = s₂.nulls → s₃.table (pageOf a).upper = some pt) :=
        fun hnull hs => hlevel hs.tree (fun x => hs.grown.clearPath hfl (hclear x))
          (p := [pml4Idx a, pdptIdx a]) ⟨[], rfl⟩ (htable₂ hnull) h₃
      have hserve₃ : ServesRoots fl s s₃ [a] pool :=
        hserve₂.trans (Vm.nulls_le (nextTable_trace h₃)) fun used rest pages paths hnull _ hs =>
          ⟨[a], (hlevel₃ hnull hs).1, fun x hx => hkeep x hx used⟩
      rcases hend with ⟨-, rfl⟩ | ⟨habs, rfl⟩
      · exact hserve₃
      · have hquiet : (s₃.setEntry pt (ptIdx a) (mkEntry a fl)).nulls = s₃.nulls := by
          rw [Vm.nulls, Vm.setEntry, List.count_cons_of_ne (by simp)]
          rfl
        refine hserve₃.trans hquiet.ge fun used rest pages paths hnull _ hs =>
          ⟨[], ⟨hquiet.ge, fun _ => ?_, fun hlt => by omega⟩, fun x hx => by simp at hx⟩
        have hle₂ := hserve₂.nulls_le
        have hle₃ := Vm.nulls_le (nextTable_trace h₃)
        obtain ⟨used₂, rest₂, pages₂, paths₂, -, hs₂⟩ := hserve₂.served (by omega)
        have hpt := (hlevel₃ (by omega) hs₂).2 (by omega)
        exact ⟨[], rest, [a], [], rfl,
          pageTree_setLeaf hs.tree (Page.length_upper _) hpt _ _,
          setLeaf_grown hs.tree hpt habs hpr, .nil, rfl⟩


/-! ## Runs of calls -/

/-- Calls of `map_page` with these flags, for one address after the other. -/
def MapsPages (fl : U32) (s : Vm) (addrs : List U64) (s' : Vm) : Prop :=
  Run (fun s a s' => MapsPage s a fl s') s addrs s'

theorem MapsPage.takesFrames {s s' : Vm} {a : U64} {fl : U32} (h : MapsPage s a fl s') :
    TakesInOrder s s' ∧ (s'.nulls = s.nulls ∨ takeFrame s'.pmm.gmmap = none) := by
  refine ⟨.mapPage h, ?_⟩
  obtain ⟨fuel, h⟩ := h
  have hboth := mapPage_preserves (R := fun s s' =>
    (takeFrame s.pmm.gmmap = none → takeFrame s'.pmm.gmmap = none) ∧
      (s'.nulls = s.nulls ∨ takeFrame s'.pmm.gmmap = none)) ?_ ?_ ?_ ?_ fuel h
  · exact hboth.2
  · exact fun s => ⟨fun hnone => hnone, Or.inl rfl⟩
  · rintro s s' s'' ⟨hkeep, hor⟩ ⟨hkeep', hor'⟩
    refine ⟨fun hnone => hkeep' (hkeep hnone), ?_⟩
    rcases hor with hnull | hnone
    · rw [hnull] at hor'
      exact hor'
    · exact Or.inr (hkeep' hnone)
  · intro s t i fl
    cases hframe : takeFrame s.pmm.gmmap with
    | none =>
        have hgmmap : (newTable s t i fl).2.pmm.gmmap = s.pmm.gmmap := by
          rw [gmmap_newTable, Vm.pmmAlloc_of_none hframe]
        exact ⟨fun _ => by rw [hgmmap, hframe], Or.inr (by rw [hgmmap, hframe])⟩
    | some frame =>
        refine ⟨fun hnone => absurd hnone (by simp), Or.inl ?_⟩
        rw [Vm.nulls, newTable_trace, hframe]
        simp [Vm.nulls]
  · intro s t i e
    refine ⟨fun hnone => hnone, Or.inl ?_⟩
    rw [Vm.nulls, Vm.setEntry, List.count_cons_of_ne (by simp)]
    rfl

section Runs

variable {fl : U32} (hfl : VmmFlags fl) {s s' : Vm} {pool addrs : List U64}

include hfl

theorem MapsPages.serves (h : PageTree s pool) (hclear : ∀ x, ClearPath s x)
    (hrun : MapsPages fl s addrs s') :
    ServesRoots (fl ||| pageBitPPresent) s s' addrs pool := by
  induction hrun with
  | start => exact .refl h
  | @snoc addrs a s₁ s' _ hcall ih =>
      obtain ⟨fuel, hcall⟩ := hcall
      refine (ih.mono fun x hx => List.mem_append_left [a] hx).trans
        (Vm.nulls_le (mapPage_trace hcall)) fun used rest pages paths _ _ hs => ⟨[a], ?_, ?_⟩
      · exact mapPage_serves fuel hfl.or_present (hasPresent_or fl) s₁ rest a s' hs.tree
          (fun x => hs.grown.clearPath hfl.or_present (hclear x))
          (by rw [mapPage_or_present]; exact hcall)
      · exact fun x hx => List.mem_append_left _ (List.mem_append_right _ hx)

theorem MapsPages.grown (h : PageTree s pool) (hclear : ∀ x, ClearPath s x)
    (hrun : MapsPages fl s addrs s') (hnull : s'.nulls = s.nulls) :
    ∃ used rest, pool = used ++ rest ∧ PageTree s' rest ∧
      Grown (fl ||| pageBitPPresent) used (addrs ++ used) s s' := by
  induction hrun with
  | start => exact ⟨[], pool, rfl, h, Grown.refl _ _⟩
  | @snoc addrs a s₁ s' hrun hcall ih =>
      have hle := (MapsPages.serves hfl h hclear hrun).nulls_le
      obtain ⟨fuel, hcall⟩ := hcall
      have hle' := Vm.nulls_le (mapPage_trace hcall)
      obtain ⟨used, rest, rfl, htree, hgrown⟩ := ih (by omega)
      obtain ⟨used', rest', rfl, htree', hgrown'⟩ := mapPage_grown htree hfl
        (hgrown.clearPath hfl.or_present (hclear a)) hcall (by omega)
        fun f _ => hgrown.clearPath hfl.or_present (hclear f)
      refine ⟨used ++ used', rest', by rw [List.append_assoc], htree', ?_⟩
      have hall := hgrown.trans hgrown'
      have hmem : ∀ x, x ∈ addrs ++ used ++ (a :: used') ↔
          x ∈ addrs ++ [a] ++ (used ++ used') := by
        intro x
        simp only [List.mem_append, List.mem_cons, List.not_mem_nil, or_false]
        tauto
      exact hall.of_pages (fun x => (hmem x).mp) fun x hx => hall.mapped x ((hmem x).mpr hx)

omit hfl in
theorem MapsPages.takesAll (hout : HandsOut s.pmm.gmmap pool)
    (hrun : MapsPages fl s addrs s') :
    s'.nulls ≠ s.nulls → s.newFrames s' = pool := by
  have hboth : TakesInOrder s s' ∧
      (s'.nulls = s.nulls ∨ takeFrame s'.pmm.gmmap = none) := by
    induction hrun with
    | start => exact ⟨.of_same rfl rfl, Or.inl rfl⟩
    | snoc _ hcall ih =>
        obtain ⟨htakes, hor⟩ := ih
        obtain ⟨htakes', hor'⟩ := hcall.takesFrames
        refine ⟨htakes.trans htakes', ?_⟩
        rcases hor with hnull | hnone
        · rw [hnull] at hor'
          exact hor'
        · obtain ⟨used, rest, hnil, hrest, -⟩ := htakes' [] (.done hnone)
          obtain ⟨-, rfl⟩ := List.append_eq_nil_iff.mp hnil.symm
          cases hrest with
          | done hnone' => exact Or.inr hnone'
  intro hnull
  obtain ⟨used, rest, rfl, hrest, hframes⟩ := hboth.1 pool hout
  have hnil : rest = [] := by
    cases hrest with
    | done _ => rfl
    | page hsome _ =>
        rw [hboth.2.resolve_left hnull] at hsome
        exact absurd hsome (by simp)
  rw [Vm.newFrames_of_append hframes, List.reverse_reverse, hnil, List.append_nil]

end Runs

/-- Over canonical low addresses it does not matter in which order pages are listed. -/
theorem AddrSpace.identityMap_congr (m : AddrSpace) {addrs addrs' : List U64} (fl : U32)
    (hmem : ∀ x, x ∈ addrs ↔ x ∈ addrs') (hlow : ∀ x ∈ addrs, x.toNat < 2 ^ 47) :
    identityMap m addrs fl = identityMap m addrs' fl := by
  have hlow' : ∀ x ∈ addrs', x.toNat < 2 ^ 47 := fun x hx => hlow x ((hmem x).mpr hx)
  funext v
  by_cases hv : ∃ x ∈ addrs, pageOf x = v
  · obtain ⟨x, hx, rfl⟩ := hv
    rw [identityMap_of_mem m fl hx hlow, identityMap_of_mem m fl ((hmem x).mp hx) hlow']
  · rw [identityMap_of_not_mem m fl fun x hx hxv => hv ⟨x, hx, hxv⟩,
      identityMap_of_not_mem m fl fun x hx hxv => hv ⟨x, (hmem x).mpr hx, hxv⟩]

/-- A run that is refused no frame needs no more frames than any other. -/
theorem MapsPages.length_le {fl : U32} (hfl : VmmFlags fl) {s s₁ s₂ : Vm}
    {pool addrs addrs' : List U64} (h : PageTree s pool) (hclear : ∀ x, ClearPath s x)
    (hmem : ∀ x ∈ addrs', x ∈ addrs) (hrun : MapsPages fl s addrs s₁)
    (hrun' : MapsPages fl s addrs' s₂) (hnull : s₁.nulls = s.nulls) :
    s₂.nulls = s.nulls ∧ (s.newFrames s₂).length ≤ (s.newFrames s₁).length := by
  obtain ⟨used, rest, pages, paths, hpool, hs⟩ := (hrun.serves hfl h hclear).served hnull
  obtain ⟨used', rest', hpool', -, hgrown⟩ := hrun.grown hfl h hclear hnull
  obtain rfl : used = used' := by rw [← hs.grown.newFrames, hgrown.newFrames]
  have hcomplete := hs.complete hgrown.mapped
  rw [← hpool] at hcomplete
  have hserves := (hrun'.serves hfl h hclear).mono hmem
  have hlen : paths.length = (s.newFrames s₁).length := by
    rw [hs.length_paths, hgrown.newFrames]
  have hnull' : s₂.nulls = s.nulls := by
    by_contra hne
    have hle := hserves.nulls_le
    obtain ⟨paths', hmade, hlen'⟩ := hserves.refused (by omega)
    have hbound := hmade.length_le hcomplete
    have hused := congrArg List.length hpool
    rw [List.length_append, ← hs.length_paths] at hused
    omega
  obtain ⟨used₂, rest₂, pages₂, paths₂, rfl, hs₂⟩ := hserves.served hnull'
  have hbound := hs₂.made.length_le hcomplete
  refine ⟨hnull', ?_⟩
  rw [hs₂.grown.newFrames, ← hs₂.length_paths, ← hlen]
  exact hbound

/-- **The order of mappings does not matter.** Two runs of calls for the same addresses
take the same frames, are both refused a frame or neither, and if neither is, they lead to
the same translation. -/
theorem mapsPages_comm {fl : U32} (hfl : VmmFlags fl) {s s₁ s₂ : Vm}
    {pool addrs addrs' : List U64} (h : WellFormed s pool)
    (hpool : ∀ f ∈ pool, f.toNat < 2 ^ 47) (hmem : ∀ x, x ∈ addrs ↔ x ∈ addrs')
    (hlow : ∀ x ∈ addrs, x.toNat < 2 ^ 47) (hrun : MapsPages fl s addrs s₁)
    (hrun' : MapsPages fl s addrs' s₂) :
    s.newFrames s₁ = s.newFrames s₂ ∧ (s₁.nulls = s.nulls ↔ s₂.nulls = s.nulls) ∧
      (s₁.nulls = s.nulls → s₁.translate = s₂.translate) := by
  have htree := h.pageTree (frames_of_low hpool)
  have hclear : ∀ x, ClearPath s x := h.clearPath
  have hto := fun hnull => hrun.length_le hfl htree hclear (fun x hx => (hmem x).mpr hx)
    hrun' hnull
  have hfrom := fun hnull => hrun'.length_le hfl htree hclear (fun x hx => (hmem x).mp hx)
    hrun hnull
  by_cases hnull : s₁.nulls = s.nulls
  · obtain ⟨hnull', hle⟩ := hto hnull
    obtain ⟨-, hle'⟩ := hfrom hnull'
    obtain ⟨used₁, rest₁, hpool₁, -, hgrown₁⟩ := hrun.grown hfl htree hclear hnull
    obtain ⟨used₂, rest₂, hpool₂, -, hgrown₂⟩ := hrun'.grown hfl htree hclear hnull'
    rw [hgrown₁.newFrames, hgrown₂.newFrames] at hle hle'
    obtain ⟨rfl, -⟩ := List.append_inj (hpool₁.symm.trans hpool₂) (by omega)
    have hpages : ∀ x ∈ addrs ++ used₁, x.toNat < 2 ^ 47 := by
      intro x hx
      rcases List.mem_append.mp hx with hx | hx
      · exact hlow x hx
      · exact hpool x (by rw [hpool₁]; exact List.mem_append_left _ hx)
    have hsame : ∀ x, x ∈ addrs ++ used₁ ↔ x ∈ addrs' ++ used₁ := by
      intro x
      rw [List.mem_append, List.mem_append, hmem x]
    refine ⟨by rw [hgrown₁.newFrames, hgrown₂.newFrames], iff_of_true hnull hnull',
      fun _ => ?_⟩
    rw [hgrown₁.translate hpages, hgrown₂.translate fun x hx => hpages x ((hsame x).mpr hx),
      AddrSpace.identityMap_congr _ _ hsame hpages]
  · have hnull' : s₂.nulls ≠ s.nulls := fun hnull' => hnull (hfrom hnull').1
    refine ⟨?_, iff_of_false hnull hnull', fun hnull' => absurd hnull' hnull⟩
    rw [hrun.takesAll h.handsOut hnull, hrun'.takesAll h.handsOut hnull']

theorem exists_mapsPages (fl : U32) {s : Vm} {pool : List U64} (hroot : PageAligned s.pml4)
    (hout : HandsOut s.pmm.gmmap pool) (addrs : List U64) :
    ∃ s', MapsPages fl s addrs s' := by
  have hready : ∃ s' n, MapsPages fl s addrs s' ∧ Ready s' n := by
    induction addrs using List.reverseRecOn with
    | nil => exact ⟨s, _, .start, hroot, pool, hout, Nat.le_refl _⟩
    | append_singleton addrs a ih =>
        obtain ⟨s₁, n, hrun, hr⟩ := ih
        obtain ⟨hroot₁, pool₁, hout₁, -⟩ := id hr
        obtain ⟨s', fuel, hcall⟩ := mapPage_returns hroot₁ hout₁ fl a
        exact ⟨s', n, .snoc hrun ⟨fuel, hcall⟩, ready_mapPage hr hcall⟩
  obtain ⟨s', -, hrun, -⟩ := hready
  exact ⟨s', hrun⟩

theorem mapsPages_pair {fl : U32} {s s' : Vm} {a b : U64} :
    MapsPages fl s [a, b] s' ↔ ∃ s₁, MapsPage s a fl s₁ ∧ MapsPage s₁ b fl s' := by
  unfold MapsPages
  rw [show [a, b] = [] ++ [a] ++ [b] from rfl, run_snoc]
  apply exists_congr
  intro s₁
  rw [run_snoc]
  constructor
  · rintro ⟨⟨s₀, hnil, ha⟩, hb⟩
    obtain rfl := run_nil.mp hnil
    exact ⟨ha, hb⟩
  · rintro ⟨ha, hb⟩
    exact ⟨⟨s, .start, ha⟩, hb⟩

/-- **Two mappings commute.** Both orders can be run; they take the same frames, one is
refused a frame exactly when the other is, and if neither is, every page has the same leaf
entry afterwards. -/
theorem mapPage_comm {s : Vm} {pool : List U64} {a b : U64} {fl : U32}
    (h : WellFormed s pool) (hpool : ∀ f ∈ pool, f.toNat < 2 ^ 47) (hfl : VmmFlags fl)
    (ha : a.toNat < 2 ^ 47) (hb : b.toNat < 2 ^ 47) :
    (∃ s₁ s₁₂, MapsPage s a fl s₁ ∧ MapsPage s₁ b fl s₁₂) ∧
    (∃ s₂ s₂₁, MapsPage s b fl s₂ ∧ MapsPage s₂ a fl s₂₁) ∧
    ∀ s₁ s₁₂ s₂ s₂₁, MapsPage s a fl s₁ → MapsPage s₁ b fl s₁₂ → MapsPage s b fl s₂ →
      MapsPage s₂ a fl s₂₁ →
      s.newFrames s₁₂ = s.newFrames s₂₁ ∧ (s₁₂.nulls = s.nulls ↔ s₂₁.nulls = s.nulls) ∧
        (s₁₂.nulls = s.nulls → ∀ v, s₁₂.translate v = s₂₁.translate v) := by
  have hrun := fun addrs => exists_mapsPages fl h.root_aligned h.handsOut addrs
  refine ⟨?_, ?_, ?_⟩
  · obtain ⟨s₁₂, hrun⟩ := hrun [a, b]
    obtain ⟨s₁, hcalls⟩ := mapsPages_pair.mp hrun
    exact ⟨s₁, s₁₂, hcalls⟩
  · obtain ⟨s₂₁, hrun⟩ := hrun [b, a]
    obtain ⟨s₂, hcalls⟩ := mapsPages_pair.mp hrun
    exact ⟨s₂, s₂₁, hcalls⟩
  · intro s₁ s₁₂ s₂ s₂₁ hcall₁ hcall₁₂ hcall₂ hcall₂₁
    have hmem : ∀ x, x ∈ [a, b] ↔ x ∈ [b, a] := by
      intro x
      simp only [List.mem_cons, List.not_mem_nil, or_false]
      exact or_comm
    have hlow : ∀ x ∈ [a, b], x.toNat < 2 ^ 47 := by
      intro x hx
      simp only [List.mem_cons, List.not_mem_nil, or_false] at hx
      rcases hx with rfl | rfl
      · exact ha
      · exact hb
    obtain ⟨hframes, hnulls, htrans⟩ := mapsPages_comm hfl h hpool hmem hlow
      (mapsPages_pair.mpr ⟨s₁, hcall₁, hcall₁₂⟩) (mapsPages_pair.mpr ⟨s₂, hcall₂, hcall₂₁⟩)
    exact ⟨hframes, hnulls, fun hnull v => by rw [htrans hnull]⟩

/-- Two pages of one page table: the first call takes the frames, the second none. -/
theorem mapPage_comm_emptyVm : ∃ s₁₂ s₂₁,
    MapsPages pageBitRwWritable emptyVm [0x5000, 0x6000] s₁₂ ∧
    MapsPages pageBitRwWritable emptyVm [0x6000, 0x5000] s₂₁ ∧
    s₁₂.nulls = emptyVm.nulls ∧ s₂₁.nulls = emptyVm.nulls ∧
    ∀ v, s₁₂.translate v = s₂₁.translate v := by
  have hlow : ∀ f ∈ ([0x2000, 0x3000, 0x4000] : List U64), f.toNat < 2 ^ 47 := by simp
  obtain ⟨s₁, hcall₁, hnull₁⟩ := emptyVm_mapsPage
  have hstep : VmStep emptyVm (.mapPage 0x5000 pageBitRwWritable) s₁ :=
    .mapPage (by decide) (by decide) hcall₁ hnull₁
  obtain ⟨-, ⟨pt, hpt⟩, -⟩ := emptyVm_first hstep
  have hcall₁₂ : MapsPage s₁ 0x6000 pageBitRwWritable _ := ⟨1, mapPage_of_table hpt 0 _⟩
  have hfl : VmmFlags pageBitRwWritable := by decide
  obtain ⟨-, hother, hcomm⟩ := mapPage_comm (a := 0x5000) (b := 0x6000) emptyVm_wellFormed
    hlow hfl (by decide) (by decide)
  obtain ⟨s₂, s₂₁, hcall₂, hcall₂₁⟩ := hother
  obtain ⟨-, hnulls, htrans⟩ := hcomm s₁ _ s₂ s₂₁ hcall₁ hcall₁₂ hcall₂ hcall₂₁
  have hnull₁₂ := (hcall₁₂.frames_of_table hpt).1.trans hnull₁
  exact ⟨_, s₂₁, mapsPages_pair.mpr ⟨s₁, hcall₁, hcall₁₂⟩,
    mapsPages_pair.mpr ⟨s₂, hcall₂, hcall₂₁⟩, hnull₁₂, hnulls.mp hnull₁₂, htrans hnull₁₂⟩

/-! ## Sets of pages -/

/-- **What a run of mappings leads to depends on the set of pages only**, in whatever order
and however often they are asked for: the frames taken, whether one was refused, and, if
none was, the entry of every page and what the page may be used for. -/
theorem mapsPages_set {fl : U32} (hfl : VmmFlags fl) {s s₁ s₂ : Vm}
    {pool addrs addrs' : List U64} (h : WellFormed s pool)
    (hpool : ∀ f ∈ pool, f.toNat < 2 ^ 47) (hmem : ∀ x, x ∈ addrs ↔ x ∈ addrs')
    (hlow : ∀ x ∈ addrs, x.toNat < 2 ^ 47) (hrun : MapsPages fl s addrs s₁)
    (hrun' : MapsPages fl s addrs' s₂) :
    s.newFrames s₁ = s.newFrames s₂ ∧ (s₁.nulls = s.nulls ↔ s₂.nulls = s.nulls) ∧
      (s₁.nulls = s.nulls → s₁.translate = s₂.translate ∧
        ∀ bit ∈ permissionBits, ∀ v, (s₁.translate v).isSome →
          (s₁.Allows bit v ↔ s₂.Allows bit v)) := by
  obtain ⟨hframes, hnulls, htranslate⟩ := mapsPages_comm hfl h hpool hmem hlow hrun hrun'
  refine ⟨hframes, hnulls, fun hnull => ⟨htranslate hnull, fun bit hbit v hv => ?_⟩⟩
  have htree := h.pageTree (frames_of_low hpool)
  obtain ⟨used₁, rest₁, -, -, hgrown₁⟩ := hrun.grown hfl htree h.clearPath hnull
  obtain ⟨used₂, rest₂, -, -, hgrown₂⟩ := hrun'.grown hfl htree h.clearPath (hnulls.mp hnull)
  rw [hgrown₁.newFrames, hgrown₂.newFrames] at hframes
  have hsame : ∀ x, x ∈ addrs ++ used₁ ↔ x ∈ addrs' ++ used₂ := by
    intro x
    rw [List.mem_append, List.mem_append, hmem x, hframes]
  have hv' : (s₂.translate v).isSome := by rwa [← htranslate hnull]
  have hpermitted : ((s₁.translate v).isSome ∧ s₁.Allows bit v) ↔
      ((s₂.translate v).isSome ∧ s₂.Allows bit v) := by
    rw [hgrown₁.permitted_iff hbit v, hgrown₂.permitted_iff hbit v]
    refine or_congr_right (exists_congr fun x => ?_)
    rw [hsame x]
  rwa [and_iff_right hv, and_iff_right hv'] at hpermitted

theorem mapsPages_set_emptyVm : ∃ s₁ s₂,
    MapsPages pageBitRwWritable emptyVm [0x5000, 0x6000] s₁ ∧
    MapsPages pageBitRwWritable emptyVm [0x6000, 0x5000, 0x6000, 0x5000] s₂ ∧
    emptyVm.newFrames s₁ = emptyVm.newFrames s₂ := by
  have hlow : ∀ f ∈ ([0x2000, 0x3000, 0x4000] : List U64), f.toNat < 2 ^ 47 := by simp
  have hfl : VmmFlags pageBitRwWritable := by decide
  have hcalls := exists_mapsPages pageBitRwWritable emptyVm_wellFormed.root_aligned
    emptyVm_wellFormed.handsOut
  obtain ⟨s₁, hrun₁⟩ := hcalls [0x5000, 0x6000]
  obtain ⟨s₂, hrun₂⟩ := hcalls [0x6000, 0x5000, 0x6000, 0x5000]
  exact ⟨s₁, s₂, hrun₁, hrun₂, (mapsPages_set hfl emptyVm_wellFormed hlow
    (by simp [or_comm]) (by simp) hrun₁ hrun₂).1⟩

end FacelessOS
