import FacelessOS.Memory.PageTree

/-!
# `map_page`

`map_page` calls itself on every table frame it allocates, in the middle of its
own walk. `mapPage_grown` is its specification: whatever the recursion fills in
first, the tables only grow, by frames taken from the allocator in order, and
the pages that become mapped are the page asked for and the pages of those
frames. The induction is on the fuel; `nextTable_grown` is the step, one level
of the walk with the recursive call as hypothesis.
-/

namespace FacelessOS

open RadixTree

/-! ## What one call consists of -/

theorem nextTable_cases {recur : Vm → U64 → U32 → Option Vm} {s s' : Vm} {t t' : U64}
    {i : Fin 512} {fl : U32} (h : nextTable recur s t i fl = some (s', t')) :
    (present (s.entry t i) = true ∧ s' = s ∧ t' = s.entry t i &&& pageAddrMask) ∨
    (present (s.entry t i) = false ∧
      recur (newTable s t i fl).2 (newTable s t i fl).1 fl = some s' ∧
      t' = s'.entry t i &&& pageAddrMask) := by
  rw [nextTable] at h
  split at h
  · rename_i hp
    obtain ⟨rfl, rfl⟩ := Prod.mk.inj (Option.some.inj h)
    exact Or.inl ⟨hp, rfl, rfl⟩
  · rename_i hp
    obtain ⟨u, hu, heq⟩ := Option.map_eq_some_iff.mp h
    obtain ⟨rfl, rfl⟩ := Prod.mk.inj heq
    exact Or.inr ⟨Bool.eq_false_iff.mpr hp, hu, rfl⟩

theorem mapPage_cases {fuel : ℕ} {s s' : Vm} {a : U64} {fl : U32}
    (h : mapPage (fuel + 1) s a fl = some s') :
    ∃ s₁ pdpt s₂ pdt s₃ pt,
      nextTable (mapPage fuel) s s.pml4 (pml4Idx a) (fl ||| pageBitPPresent) =
        some (s₁, pdpt) ∧
      nextTable (mapPage fuel) s₁ pdpt (pdptIdx a) (fl ||| pageBitPPresent) =
        some (s₂, pdt) ∧
      nextTable (mapPage fuel) s₂ pdt (pdIdx a) (fl ||| pageBitPPresent) =
        some (s₃, pt) ∧
      ((present (s₃.entry pt (ptIdx a)) = true ∧ s' = s₃) ∨
        (present (s₃.entry pt (ptIdx a)) = false ∧
          s' = s₃.setEntry pt (ptIdx a) (mkEntry a (fl ||| pageBitPPresent)))) := by
  rw [mapPage] at h
  obtain ⟨⟨s₁, pdpt⟩, h₁, h⟩ := Option.bind_eq_some_iff.mp h
  obtain ⟨⟨s₂, pdt⟩, h₂, h⟩ := Option.bind_eq_some_iff.mp h
  obtain ⟨⟨s₃, pt⟩, h₃, h⟩ := Option.bind_eq_some_iff.mp h
  refine ⟨s₁, pdpt, s₂, pdt, s₃, pt, h₁, h₂, h₃, ?_⟩
  simp only at h
  split at h
  · rename_i hp
    exact Or.inl ⟨hp, (Option.some.inj h).symm⟩
  · rename_i hp
    exact Or.inr ⟨Bool.eq_false_iff.mpr hp, (Option.some.inj h).symm⟩

theorem mapPage_of_levels {fuel : ℕ} {s s₁ s₂ s₃ : Vm} {a pdpt pdt pt : U64} {fl : U32}
    (h₁ : nextTable (mapPage fuel) s s.pml4 (pml4Idx a) (fl ||| pageBitPPresent) =
      some (s₁, pdpt))
    (h₂ : nextTable (mapPage fuel) s₁ pdpt (pdptIdx a) (fl ||| pageBitPPresent) =
      some (s₂, pdt))
    (h₃ : nextTable (mapPage fuel) s₂ pdt (pdIdx a) (fl ||| pageBitPPresent) =
      some (s₃, pt)) :
    mapPage (fuel + 1) s a fl = some (if present (s₃.entry pt (ptIdx a)) then s₃
      else s₃.setEntry pt (ptIdx a) (mkEntry a (fl ||| pageBitPPresent))) := by
  simp only [mapPage, h₁, h₂, h₃, Option.bind_eq_bind, Option.bind_some]
  split <;> rfl

theorem nextTable_of_tableOf (recur : Vm → U64 → U32 → Option Vm) {s : Vm} {t u : U64}
    {i : Fin 512} (fl : U32) (h : tableOf (s.entry t i) = some u) :
    nextTable recur s t i fl = some (s, u) := by
  obtain ⟨hp, -, rfl⟩ := tableOf_eq_some.mp h
  rw [nextTable, if_pos hp]

/-- Over present upper levels only the leaf is concerned. -/
theorem mapPage_of_table {s : Vm} {a pt : U64} (hpt : s.table (pageOf a).upper = some pt)
    (fuel : ℕ) (fl : U32) : mapPage (fuel + 1) s a fl =
      some (if present (s.entry pt (ptIdx a)) then s
        else s.setEntry pt (ptIdx a) (mkEntry a (fl ||| pageBitPPresent))) := by
  obtain ⟨pdpt, pdt, h4, h3, h2⟩ := Vm.table_upper hpt
  exact mapPage_of_levels (nextTable_of_tableOf _ _ h4) (nextTable_of_tableOf _ _ h3)
    (nextTable_of_tableOf _ _ h2)

theorem MapsPage.of_table {s s' : Vm} {a pt : U64} {fl : U32} (h : MapsPage s a fl s')
    (hpt : s.table (pageOf a).upper = some pt) :
    s' = if present (s.entry pt (ptIdx a)) then s
      else s.setEntry pt (ptIdx a) (mkEntry a (fl ||| pageBitPPresent)) := by
  obtain ⟨fuel, h⟩ := h
  cases fuel with
  | zero => exact absurd h (by simp [mapPage])
  | succ fuel =>
      rw [mapPage_of_table hpt] at h
      exact (Option.some.inj h).symm

theorem MapsPage.frames_of_table {s s' : Vm} {a pt : U64} {fl : U32}
    (h : MapsPage s a fl s') (hpt : s.table (pageOf a).upper = some pt) :
    s'.nulls = s.nulls ∧ s'.frames = s.frames := by
  rw [h.of_table hpt]
  split
  · exact ⟨rfl, rfl⟩
  · refine ⟨?_, rfl⟩
    rw [Vm.nulls, Vm.setEntry, List.count_cons_of_ne (by simp)]
    rfl

theorem mapPage_of_mapped {s : Vm} {a : U64} (h : (s.translate (pageOf a)).isSome)
    (fuel : ℕ) (fl : U32) : mapPage (fuel + 1) s a fl = some s := by
  obtain ⟨e, he⟩ := Option.isSome_iff_exists.mp h
  obtain ⟨pt, hpt, rfl, hp⟩ := Vm.translate_eq_some.mp he
  have hleaf : present (s.entry pt (ptIdx a)) = true := hp
  rw [mapPage_of_table hpt, if_pos hleaf]

theorem MapsPage.of_mapped {s s' : Vm} {a : U64} {fl : U32} (h : MapsPage s a fl s')
    (hmapped : (s.translate (pageOf a)).isSome) : s' = s := by
  obtain ⟨e, he⟩ := Option.isSome_iff_exists.mp hmapped
  obtain ⟨pt, hpt, rfl, hp⟩ := Vm.translate_eq_some.mp he
  have hleaf : present (s.entry pt (ptIdx a)) = true := hp
  rw [h.of_table hpt, if_pos hleaf]

/-- A preorder kept by the two kinds of stores is kept by `map_page`, in every
state of the tables. -/
theorem mapPage_preserves {R : Vm → Vm → Prop} (hrefl : ∀ s, R s s)
    (htrans : ∀ s s' s'', R s s' → R s' s'' → R s s'')
    (hnew : ∀ s t i fl, R s (newTable s t i fl).2)
    (hleaf : ∀ s t i e, R s (Vm.setEntry s t i e)) :
    ∀ (fuel : ℕ) {s s' : Vm} {a : U64} {fl : U32},
      mapPage fuel s a fl = some s' → R s s' := by
  intro fuel
  induction fuel with
  | zero => intro s s' a fl h; exact absurd h (by simp [mapPage])
  | succ fuel ih =>
      have hlevel : ∀ {s s' : Vm} {t t' : U64} {i : Fin 512} {fl : U32},
          nextTable (mapPage fuel) s t i fl = some (s', t') → R s s' := by
        intro s s' t t' i fl h
        rcases nextTable_cases h with ⟨-, rfl, -⟩ | ⟨-, hrec, -⟩
        · exact hrefl _
        · exact htrans _ _ _ (hnew s t i fl) (ih hrec)
      intro s s' a fl h
      obtain ⟨s₁, pdpt, s₂, pdt, s₃, pt, h₁, h₂, h₃, hend⟩ := mapPage_cases h
      have hwalk := htrans _ _ _ (htrans _ _ _ (hlevel h₁) (hlevel h₂)) (hlevel h₃)
      rcases hend with ⟨-, rfl⟩ | ⟨-, rfl⟩
      · exact hwalk
      · exact htrans _ _ _ hwalk (hleaf _ _ _ _)

theorem newTable_trace (s : Vm) (t : U64) (i : Fin 512) (fl : U32) :
    (newTable s t i fl).2.trace =
      .stored (Vm.entryAddr t i) 8 :: .stored (newTable s t i fl).1 pageSize ::
      .stored (newTable s t i fl).1 (512 * 8) ::
      .pmmAlloc ((takeFrame s.pmm.gmmap).map Prod.fst) :: s.trace := rfl

theorem newTable_suffix (s : Vm) (t : U64) (i : Fin 512) (fl : U32) :
    s.trace <:+ (newTable s t i fl).2.trace := by
  rw [newTable_trace]
  exact ⟨[_, _, _, _], rfl⟩

theorem mapPage_trace {fuel : ℕ} {s s' : Vm} {a : U64} {fl : U32}
    (h : mapPage fuel s a fl = some s') : s.trace <:+ s'.trace :=
  mapPage_preserves (R := fun s s' => s.trace <:+ s'.trace)
    (fun _ => List.suffix_refl _) (fun _ _ _ h h' => h.trans h') newTable_suffix
    (fun _ _ _ _ => List.suffix_cons _ _) fuel h

theorem nextTable_trace {fuel : ℕ} {s s' : Vm} {t t' : U64} {i : Fin 512} {fl : U32}
    (h : nextTable (mapPage fuel) s t i fl = some (s', t')) : s.trace <:+ s'.trace := by
  rcases nextTable_cases h with ⟨-, rfl, -⟩ | ⟨-, hrec, -⟩
  · exact List.suffix_refl _
  · exact (newTable_suffix _ _ _ _).trans (mapPage_trace hrec)

theorem Vm.nulls_le {s s' : Vm} (h : s.trace <:+ s'.trace) : s.nulls ≤ s'.nulls :=
  h.sublist.count_le _

/-! ## The specification -/

/-- The specification of `map_page`, as a property of the recursive call. -/
def MapSpec (recur : Vm → U64 → U32 → Option Vm) (fl : U32) : Prop :=
  ∀ (s : Vm) (pool : List U64) (a : U64) (s' : Vm), PageTree s pool → ClearPath s a →
    recur s a fl = some s' → s'.nulls = s.nulls →
    (∀ f ∈ s.newFrames s', ClearPath s f) →
    ∃ used pool', pool = used ++ pool' ∧ PageTree s' pool' ∧
      Grown fl used (a :: used) s s'

/-- One level of the walk: afterwards the slot holds the next table. -/
theorem nextTable_grown {recur : Vm → U64 → U32 → Option Vm} {fl : U32}
    (hrec : MapSpec recur fl)
    (hmono : ∀ {s a s'}, recur s a fl = some s' → s.trace <:+ s'.trace)
    (hfl : VmmFlags fl) (hpr : HasPresent fl) {s s' : Vm} {pool : List U64} {t t' : U64}
    {p : List (Fin 512)} {i : Fin 512} (h : PageTree s pool) (hp : p.length < 3)
    (ht : s.table p = some t)
    (hlarge : present (s.entry t i) → largePage (s.entry t i) = false)
    (hnext : nextTable recur s t i fl = some (s', t'))
    (hnull : s'.nulls = s.nulls)
    (hclear : ∀ f ∈ s.newFrames s', ClearPath s f) :
    ∃ used pool', pool = used ++ pool' ∧ PageTree s' pool' ∧
      Grown fl used used s s' ∧ s'.table (p ++ [i]) = some t' := by
  rcases nextTable_cases hnext with ⟨hpres, rfl, rfl⟩ | ⟨habs, hcall, rfl⟩
  · refine ⟨[], pool, rfl, h, Grown.refl fl _, ?_⟩
    exact Vm.table_snoc_some.mpr ⟨t, ht, tableOf_eq_some.mpr ⟨hpres, hlarge hpres, rfl⟩⟩
  · have hkeep := hmono hcall
    cases hout : h.handsOut with
    | done hnone =>
        -- the call records that no memory was left
        have hcount : (newTable s t i fl).2.nulls = s.nulls + 1 := by
          rw [Vm.nulls, newTable_trace, hnone]
          simp [Vm.nulls]
        have := Vm.nulls_le hkeep
        omega
    | @page _ gmmap f pool hsome hrest =>
        have hframe := h.pool_frame f List.mem_cons_self
        have hta := Vm.table_aligned h.root_aligned ht
        obtain ⟨hfst, hn⟩ := newTable_spec hsome hframe.aligned hta
        rw [hfst] at hcall
        have htree := hn.pageTree h hrest hp ht habs hfl hpr
        have hlink := hn.grown h hp ht habs hfl hpr
        have hcount : (newTable s t i fl).2.nulls = s.nulls := by
          rw [Vm.nulls, newTable_trace, hsome]
          simp [Vm.nulls]
        have hnew := Vm.newFrames_trans (newTable_suffix s t i fl) hkeep
        rw [hlink.newFrames, List.singleton_append] at hnew
        rw [hnew] at hclear
        obtain ⟨used, pool', hpool, htree', hgrown⟩ := hrec _ pool f s' htree
          (hlink.clearPath hfl (hclear f List.mem_cons_self)) hcall
          (hnull.trans hcount.symm)
          (fun g hg => hlink.clearPath hfl (hclear g (List.mem_cons_of_mem _ hg)))
        refine ⟨f :: used, pool', by rw [hpool]; rfl, htree', hlink.trans hgrown, ?_⟩
        -- the recursive call leaves the table just entered in its place
        have hpi : (p ++ [i]).length ≤ 3 := by simp; omega
        have hslot := hn.table h hp ht habs hfl hpr (p ++ [i]) hpi
        rw [if_pos rfl] at hslot
        have hkept := (hgrown.keep (p ++ [i]) f hpi hslot).1
        obtain ⟨u, hu, hent⟩ := Vm.table_snoc_some.mp hkept
        obtain ⟨htp, -⟩ := (hlink.trans hgrown).keep p t (by omega) ht
        obtain rfl := Option.some.inj (htp.symm.trans hu)
        rw [hkept, (tableOf_eq_some.mp hent).2.2]

theorem mapPage_spec (fuel : ℕ) {fl : U32} (hfl : VmmFlags fl) (hpr : HasPresent fl) :
    MapSpec (mapPage fuel) fl := by
  induction fuel with
  | zero => intro s pool a s' _ _ h; exact absurd h (by simp [mapPage])
  | succ fuel ih =>
      intro s pool a s' h ha hcall hnull hclear
      obtain ⟨s₁, pdpt, s₂, pdt, s₃, pt, h₁, h₂, h₃, hend⟩ := mapPage_cases hcall
      rw [hpr.or_present] at h₁ h₂ h₃ hend
      have hto₁ := nextTable_trace h₁
      have hto₂ := nextTable_trace h₂
      have hto₃ := nextTable_trace h₃
      have hto₄ : s₃.trace <:+ s'.trace := by
        rcases hend with ⟨-, rfl⟩ | ⟨-, rfl⟩
        · exact List.suffix_refl _
        · exact List.suffix_cons _ _
      have hnew : s.newFrames s' = s.newFrames s₁ ++
          (s₁.newFrames s₂ ++ (s₂.newFrames s₃ ++ s₃.newFrames s')) := by
        rw [Vm.newFrames_trans hto₁ (hto₂.trans (hto₃.trans hto₄)),
          Vm.newFrames_trans hto₂ (hto₃.trans hto₄), Vm.newFrames_trans hto₃ hto₄]
      rw [hnew] at hclear
      -- no level was refused a frame
      have hn₁ := Vm.nulls_le hto₁
      have hn₂ := Vm.nulls_le hto₂
      have hn₃ := Vm.nulls_le hto₃
      have hn₄ := Vm.nulls_le hto₄
      -- level 4
      obtain ⟨used₁, pool₁, rfl, tree₁, grown₁, table₁⟩ := nextTable_grown ih
        mapPage_trace hfl hpr
        h (p := []) (by simp) rfl (ha [] _ ⟨[_, _], rfl⟩ _ rfl) h₁
        (by omega) (fun f hf => hclear f (by simp [hf]))
      have ha₁ := grown₁.clearPath hfl ha
      -- level 3
      obtain ⟨used₂, pool₂, rfl, tree₂, grown₂, table₂⟩ := nextTable_grown ih
        mapPage_trace hfl hpr
        tree₁ (p := [pml4Idx a]) (by simp) table₁ (ha₁ [_] _ ⟨[_], rfl⟩ _ table₁) h₂
        (by omega) (fun f hf => grown₁.clearPath hfl (hclear f (by simp [hf])))
      have ha₂ := grown₂.clearPath hfl ha₁
      have grown₁₂ := grown₁.trans grown₂
      -- level 2
      obtain ⟨used₃, pool₃, rfl, tree₃, grown₃, table₃⟩ := nextTable_grown ih
        mapPage_trace hfl hpr
        tree₂ (p := [pml4Idx a, pdptIdx a]) (by simp) table₂
        (ha₂ [_, _] _ ⟨[], rfl⟩ _ table₂) h₃ (by omega)
        (fun f hf => grown₁₂.clearPath hfl (hclear f (by simp [hf])))
      have grown₁₃ := grown₁₂.trans grown₃
      have table₃' : s₃.table (pageOf a).upper = some pt := table₃
      refine ⟨used₁ ++ used₂ ++ used₃, pool₃, by simp only [List.append_assoc], ?_⟩
      rcases hend with ⟨hpres, rfl⟩ | ⟨habs, rfl⟩
      · -- the recursion, or an earlier call, has mapped the page already
        refine ⟨tree₃, grown₁₃.of_pages (fun x hx => List.mem_cons_of_mem _ hx) ?_⟩
        intro x hx
        rcases List.mem_cons.mp hx with rfl | hx
        · rw [Vm.translate_eq_some.mpr ⟨pt, table₃', rfl, hpres⟩]
          rfl
        · exact grown₁₃.mapped x hx
      · refine ⟨pageTree_setLeaf tree₃ (Page.length_upper _) table₃' _ _, ?_⟩
        have hleaf := setLeaf_grown tree₃ table₃' habs hpr
        have hall := grown₁₃.trans hleaf
        rw [List.append_nil] at hall
        have hmem : ∀ x, x ∈ used₁ ++ used₂ ++ used₃ ++ [a] ↔
            x ∈ a :: (used₁ ++ used₂ ++ used₃) := fun x => by
          rw [List.mem_append, List.mem_singleton, List.mem_cons, or_comm]
        exact hall.of_pages (fun x => (hmem x).mp) fun x hx => hall.mapped x ((hmem x).mpr hx)

theorem mapPage_or_present (fuel : ℕ) (s : Vm) (a : U64) (fl : U32) :
    mapPage fuel s a (fl ||| pageBitPPresent) = mapPage fuel s a fl := by
  have hor : fl ||| pageBitPPresent ||| pageBitPPresent = fl ||| pageBitPPresent := by
    rw [BitVec.or_assoc, BitVec.or_self]
  cases fuel with
  | zero => rfl
  | succ fuel => rw [mapPage, mapPage, hor]

/-- **`map_page` grows the tables.** In a call that is never refused a frame and
whose walks meet no large page, the frames used are the next ones of the
allocator and exactly the page asked for and theirs become mapped. -/
theorem mapPage_grown {fuel : ℕ} {s s' : Vm} {pool : List U64} {a : U64} {fl : U32}
    (h : PageTree s pool) (hfl : VmmFlags fl) (ha : ClearPath s a)
    (hcall : mapPage fuel s a fl = some s') (hnull : s'.nulls = s.nulls)
    (hclear : ∀ f ∈ s.newFrames s', ClearPath s f) :
    ∃ used pool', pool = used ++ pool' ∧ PageTree s' pool' ∧
      Grown (fl ||| pageBitPPresent) used (a :: used) s s' :=
  mapPage_spec fuel hfl.or_present (hasPresent_or fl) s pool a s' h ha
    (by rw [mapPage_or_present]; exact hcall) hnull hclear

end FacelessOS
