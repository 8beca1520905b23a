import FacelessOS.Memory.AddressSpace

/-!
# `unmap_page` over missing levels

`map_page` looks at the present bit of every entry on its way down; `unmap_page` follows the
address bits of whatever it finds. Where an upper level is missing it goes on in the frame that
the address bits name, which is frame 0 for an empty entry, and clears a word there if that
word happens to have the present bit.
-/

namespace FacelessOS

open RadixTree

/-- An upper-level entry on the path of `a` is not present. -/
def MissingLevel (s : Vm) (a : U64) : Prop :=
  ∃ (q : List (Fin 512)) (i : Fin 512) (t : U64), q ++ [i] <+: (pageOf a).upper ∧
    s.table q = some t ∧ present (s.entry t i) = false

/-- The frame that the address bits of the entries at these indices lead to, present or
not. -/
def Vm.strayTable (s : Vm) (q : List (Fin 512)) : U64 :=
  q.foldl (fun t i => s.entry t i &&& pageAddrMask) s.pml4

def Vm.strayLeaf (s : Vm) (a : U64) : U64 := s.entry (s.strayTable (pageOf a).upper) (ptIdx a)

/-- What a harmless `unmap_page(a)` does: nothing where a level is missing, and elsewhere it
stores at most to the leaf entry of `a`. -/
structure UnmapHarmless (s : Vm) (a : U64) (s' : Vm) : Prop where
  missing : MissingLevel s a → s' = s
  leaf : ∀ pt, s.table (pageOf a).upper = some pt →
    s' = s ∨ ∃ e, s' = s.setEntry pt (ptIdx a) e

theorem unmapPage_eq {s : Vm} {a : U64} (ha : PageAligned a) :
    unmapPage s a = (1, if present (s.strayLeaf a) then
      s.setEntry (s.strayTable (pageOf a).upper) (ptIdx a)
        ((a &&& pageAddrMask) &&& ~~~ (pageBitPPresent.setWidth 64))
      else s) := by
  have hmod : ¬ a.toNat % 0x1000 ≠ 0 := not_not.mpr ha
  rw [unmapPage, if_neg hmod]
  by_cases hp : present (s.strayLeaf a) = true
  · rw [if_pos hp]
    exact if_pos hp
  · rw [if_neg hp]
    exact if_neg hp

theorem Vm.setEntry_ne (s : Vm) (t : U64) (i : Fin 512) (e : U64) : s.setEntry t i e ≠ s := by
  intro h
  have htrace := congrArg (fun s => s.trace.length) h
  simp [Vm.setEntry] at htrace

theorem Vm.strayTable_of_table {s : Vm} {q : List (Fin 512)} {t : U64}
    (h : s.table q = some t) : s.strayTable q = t := by
  induction q using List.reverseRecOn generalizing t with
  | nil => exact Option.some.inj h
  | append_singleton q i ih =>
      obtain ⟨u, hu, hti⟩ := Vm.table_snoc_some.mp h
      have hstray := ih hu
      unfold strayTable at hstray ⊢
      rw [List.foldl_append, hstray]
      exact (tableOf_eq_some.mp hti).2.2

/-- **`unmap_page` is harmless exactly** where no level is missing, or the word it finds
beyond the missing one does not have the present bit. -/
theorem unmapHarmless_iff {s : Vm} {a : U64} (ha : PageAligned a) :
    UnmapHarmless s a (unmapPage s a).2 ↔
      (MissingLevel s a → present (s.strayLeaf a) = false) := by
  rw [unmapPage_eq ha]
  constructor
  · intro h hmiss
    have hsame := h.missing hmiss
    by_contra hp
    simp only [Bool.not_eq_false] at hp
    rw [if_pos hp] at hsame
    exact Vm.setEntry_ne _ _ _ _ hsame
  · intro hclear
    refine ⟨fun hmiss => ?_, fun pt hpt => ?_⟩
    · have habs : ¬ present (s.strayLeaf a) = true := by
        rw [hclear hmiss]
        decide
      exact if_neg habs
    · rw [Vm.strayTable_of_table hpt]
      split
      · exact Or.inr ⟨_, rfl⟩
      · exact Or.inl rfl

theorem emptyVm_missingLevel (a : U64) : MissingLevel emptyVm a :=
  ⟨[], pml4Idx a, 0x1000, ⟨[pdptIdx a, pdIdx a], rfl⟩, rfl, by
    rw [emptyVm_entry]
    exact present_zero⟩

theorem unmapHarmless_iff_emptyVm : MissingLevel emptyVm 0x5000 ∧
    UnmapHarmless emptyVm 0x5000 (unmapPage emptyVm 0x5000).2 := by
  refine ⟨emptyVm_missingLevel _, (unmapHarmless_iff (by decide)).mpr fun _ => ?_⟩
  rw [Vm.strayLeaf, emptyVm_entry]
  exact present_zero

/-! Empty tables over a frame 0 that holds the interrupt vectors the firmware left there. -/

def vectorVm : Vm := emptyVm.setEntry 0 5 0xf000ff53f000ff53#64

theorem vectorVm_entry {t : U64} (ht : PageAligned t) (i : Fin 512) :
    vectorVm.entry t i = if t = 0 ∧ i = 5 then 0xf000ff53f000ff53#64 else 0#64 := by
  rw [vectorVm, Vm.entry_setEntry _ (by decide) ht, emptyVm_entry]

theorem vectorVm_table {q : List (Fin 512)} {t : U64} (h : vectorVm.table q = some t) :
    q = [] ∧ t = 0x1000 := by
  cases q with
  | nil => exact ⟨rfl, (Option.some.inj h).symm⟩
  | cons i q =>
      have hroot : vectorVm.child 0x1000 i = none := by
        rw [Vm.child, vectorVm_entry (by decide), if_neg fun h => absurd h.1 (by decide)]
        exact tableOf_of_not_present present_zero
      rw [Vm.table, follow, show vectorVm.pml4 = 0x1000 from rfl, hroot] at h
      exact absurd h (by simp)

theorem vectorVm_wellFormed : WellFormed vectorVm [0x2000, 0x3000, 0x4000] where
  root_aligned := by decide
  root_unreferenced := fun q i _ h => absurd (vectorVm_table h).1 (by simp)
  one_parent := by
    intro p q i j t u n _ _ ht _ hti _
    have hn : vectorVm.table (p ++ [i]) = some n := follow_snoc_some.mpr ⟨t, ht, hti⟩
    exact absurd (vectorVm_table hn).1 (by simp)
  no_large := by
    intro q t i _ ht hp
    rw [(vectorVm_table ht).2, vectorVm_entry (by decide),
      if_neg fun h => absurd h.1 (by decide)] at hp
    exact absurd hp (by decide)
  handsOut := emptyVm_wellFormed.handsOut
  pool_nodup := emptyVm_wellFormed.pool_nodup
  pool_aligned := emptyVm_wellFormed.pool_aligned
  pool_ne_zero := emptyVm_wellFormed.pool_ne_zero
  pool_fresh := by
    intro f hf q _ hq
    rw [(vectorVm_table hq).2] at hf
    exact absurd hf (by decide)

/-- Unmapping page `0x5000` clears a vector in frame 0, which is no table. -/
theorem unmapPage_clears_vector :
    ¬ ∀ (s : Vm) (pool : List U64) (a : U64), WellFormed s pool →
      (∀ q : List (Fin 512), q.length ≤ 3 → s.table q ≠ some 0) → PageAligned a →
      a.toNat < 2 ^ 47 → UnmapHarmless s a (unmapPage s a).2 := by
  intro hclaim
  have hharmless := hclaim vectorVm _ 0x5000 vectorVm_wellFormed
    (fun q _ h => absurd (vectorVm_table h).2 (by decide)) (by decide) (by decide)
  have hmiss : MissingLevel vectorVm 0x5000 := by
    refine ⟨[], 0, 0x1000, ⟨[0, 0], by decide⟩, rfl, ?_⟩
    rw [vectorVm_entry (by decide), if_neg fun h => absurd h.1 (by decide)]
    exact present_zero
  -- the vector had its lowest bit set, and has no longer
  have hentry := congrArg (fun s => Vm.entry s 0 5) (hharmless.missing hmiss)
  have hafter : (unmapPage vectorVm 0x5000).2.entry 0 5 = 0x5000#64 := by decide +kernel
  have hbefore : vectorVm.entry 0 5 = 0xf000ff53f000ff53#64 := by decide +kernel
  rw [hafter, hbefore] at hentry
  exact absurd hentry (by decide)

end FacelessOS
