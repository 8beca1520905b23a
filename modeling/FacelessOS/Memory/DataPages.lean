import FacelessOS.Memory.AddressSpace

/-!
# Page-table edits and ordinary memory

`vmm_init` adopts the bootloader's tables, where a PDPT or PD entry may map a
large page. `vmm.c` has no notion of the page-size bit: the walk takes every
present entry for a pointer to the next table. Where no large page stands in the
way, the edits stay inside table frames (`edits_keepData`); where one does, the
data it maps is edited as if it were a table (`mapPage_into_largePage`).
-/

namespace FacelessOS

open ByteStore RadixTree

/-- Every byte outside the table frames, old ones and those taken between the
two states, is as it was. -/
def KeepsData (s s' : Vm) : Prop :=
  ∀ x, (∀ q t, q.length ≤ 3 → s.table q = some t → ¬ Within t pageSize x) →
    (∀ f ∈ s.newFrames s', ¬ Within f pageSize x) → s'.mem x = s.mem x

theorem Grown.keepsData {fl : U32} {used pages : List U64} {s s' : Vm}
    (h : Grown fl used pages s s') : KeepsData s s' := by
  intro x hold hnew
  rw [h.newFrames] at hnew
  refine h.mem x fun q t hq ht => ?_
  rcases h.tables q t hq ht with ht' | hmem
  · exact hold q t hq ht'
  · exact hnew t hmem

theorem unmapPage_keepsData {s : Vm} {a pt : U64} (hroot : PageAligned s.pml4)
    (ha : PageAligned a) (hpt : s.table (pageOf a).upper = some pt) :
    KeepsData s (unmapPage s a).2 := by
  intro x hold _
  rw [unmapPage_of_table ha hpt]
  split
  · exact Vm.mem_setEntry _ (Vm.table_aligned hroot hpt) _ _
      (hold _ pt (by simp) hpt)
  · rfl

/-- **Edits stay inside table frames.** A call of `map_page` with enough frames
changes table frames only, when no large page covers the address or a frame the
call takes; so does `unmap_page` where the upper levels are tables. -/
theorem edits_keepData {s : Vm} {pool : List U64} (h : PageTree s pool) :
    (∀ a fl s', VmmFlags fl → MapsPage s a fl s' → s'.nulls = s.nulls →
      ClearPath s a → (∀ f ∈ s.newFrames s', ClearPath s f) → KeepsData s s') ∧
    (∀ a, PageAligned a → (s.table (pageOf a).upper).isSome →
      KeepsData s (unmapPage s a).2) := by
  constructor
  · rintro a fl s' hfl ⟨fuel, hcall⟩ hnull ha hframes
    obtain ⟨used, pool', -, -, hgrown⟩ := mapPage_grown h hfl ha hcall hnull hframes
    exact hgrown.keepsData
  · intro a ha hup
    obtain ⟨pt, hpt⟩ := Option.isSome_iff_exists.mp hup
    exact unmapPage_keepsData h.root_aligned ha hpt

theorem edits_keepData_emptyVm :
    ∃ s', MapsPage emptyVm 0x5000 pageBitRwWritable s' ∧ KeepsData emptyVm s' ∧
      KeepsData s' (unmapPage s' 0x5000).2 := by
  obtain ⟨s', hcall, hnull⟩ := emptyVm_mapsPage
  have htree := emptyVm_wellFormed.pageTree (by simp)
  have hclear : ∀ f, ClearPath emptyVm f := emptyVm_wellFormed.clearPath
  have ⟨fuel, hfuel⟩ := hcall
  obtain ⟨used, pool', -, htree', hgrown⟩ := mapPage_grown htree (by decide) (hclear _)
    hfuel hnull fun f _ => hclear f
  obtain ⟨e, he⟩ := Option.isSome_iff_exists.mp (hgrown.mapped 0x5000 List.mem_cons_self)
  obtain ⟨pt, hpt, -⟩ := Vm.translate_eq_some.mp he
  exact ⟨s', hcall, (edits_keepData htree).1 0x5000 pageBitRwWritable s' (by decide)
    hcall hnull (hclear _) fun f _ => hclear f,
    (edits_keepData htree').2 0x5000 (by decide) (by rw [hpt]; rfl)⟩

/-! A root table at `0x1000` whose first entry points to a PDPT at `0x8000`, whose
first entry maps the gibibyte at `0x40000000`. -/

def gibPageVm : Vm :=
  (emptyVm.setEntry 0x1000 0 0x8003#64).setEntry 0x8000 0 0x40000083#64

theorem gibPageVm_entry {t : U64} (ht : PageAligned t) (i : Fin 512) :
    gibPageVm.entry t i = if t = 0x8000 ∧ i = 0 then 0x40000083#64 else
      if t = 0x1000 ∧ i = 0 then 0x8003#64 else 0#64 := by
  rw [gibPageVm, Vm.entry_setEntry _ (by decide) ht, Vm.entry_setEntry _ (by decide) ht,
    emptyVm_entry]

theorem gibPageVm_child (i : Fin 512) :
    gibPageVm.child 0x1000 i = (if i = 0 then some 0x8000#64 else none) ∧
      gibPageVm.child 0x8000#64 i = none := by
  rw [Vm.child, Vm.child, gibPageVm_entry (by decide), gibPageVm_entry (by decide)]
  by_cases hi : i = 0 <;> simp only [hi, and_true, and_false, if_true, if_false]
  · exact ⟨by decide, by decide⟩
  · exact ⟨by decide, by decide⟩

theorem gibPageVm_table {q : List (Fin 512)} {t : U64} (h : gibPageVm.table q = some t) :
    (q = [] ∧ t = 0x1000) ∨ (q = [0] ∧ t = 0x8000) := by
  cases q with
  | nil => exact Or.inl ⟨rfl, (Option.some.inj h).symm⟩
  | cons i q =>
      rw [Vm.table, follow, show gibPageVm.pml4 = 0x1000 from rfl,
        (gibPageVm_child i).1] at h
      split at h
      · rename_i hi
        cases q with
        | nil => exact Or.inr ⟨by rw [hi], (Option.some.inj h).symm⟩
        | cons j q =>
            rw [Option.bind_some, follow, (gibPageVm_child j).2] at h
            exact absurd h (by simp)
      · exact absurd h (by simp)

theorem gibPageVm_pageTree : PageTree gibPageVm [0x2000, 0x3000, 0x4000] where
  root_aligned := by decide
  tree := by
    intro p q _ _ n hp hq
    rcases gibPageVm_table hp with ⟨rfl, rfl⟩ | ⟨rfl, rfl⟩ <;>
      rcases gibPageVm_table hq with ⟨rfl, hn⟩ | ⟨rfl, hn⟩ <;> simp_all
  handsOut := emptyVm_wellFormed.handsOut
  pool_nodup := emptyVm_wellFormed.pool_nodup
  pool_frame := (emptyVm_wellFormed.pageTree (by simp)).pool_frame
  pool_fresh := by
    rintro f hf ⟨q, _, hq⟩
    rcases gibPageVm_table hq with ⟨-, rfl⟩ | ⟨-, rfl⟩ <;> simp at hf

theorem gibPageVm_mapsPage : ∃ s', MapsPage gibPageVm 0x6000 pageBitRwWritable s' ∧
    s'.nulls = gibPageVm.nulls ∧ gibPageVm.newFrames s' = [0x2000#64] ∧
    s'.mem 0x40000000#64 = 0x03#8 := by
  have hrun : (mapPage 8 gibPageVm 0x6000 pageBitRwWritable).map
      (fun s' => (s'.nulls, gibPageVm.newFrames s', s'.mem 0x40000000#64)) =
      some (gibPageVm.nulls, [0x2000#64], 0x03#8) := by decide +kernel
  obtain ⟨s', hcall, heq⟩ := Option.map_eq_some_iff.mp hrun
  obtain ⟨hnull, heq⟩ := Prod.mk.inj heq
  exact ⟨s', ⟨8, hcall⟩, hnull, Prod.mk.inj heq⟩

/-- Mapping a page below a large page writes into the large page. -/
theorem mapPage_into_largePage :
    ¬ ∀ (s : Vm) (pool : List U64) (a : U64) (fl : U32) (s' : Vm), PageTree s pool →
      a.toNat < 2 ^ 47 → VmmFlags fl → MapsPage s a fl s' → s'.nulls = s.nulls →
      KeepsData s s' := by
  intro hclaim
  obtain ⟨s', hcall, hnull, hnew, hbyte⟩ := gibPageVm_mapsPage
  have hkept := hclaim gibPageVm _ 0x6000 pageBitRwWritable s' gibPageVm_pageTree
    (by decide) (by decide) hcall hnull 0x40000000#64
    (by
      intro q t _ ht
      rcases gibPageVm_table ht with ⟨-, rfl⟩ | ⟨-, rfl⟩ <;> decide +kernel)
    (by rw [hnew, List.forall_mem_singleton]; decide +kernel)
  have hold : gibPageVm.mem 0x40000000#64 = 0x00#8 := by decide +kernel
  rw [hbyte, hold] at hkept
  exact absurd hkept (by decide)

end FacelessOS
