import FacelessOS.Memory.AddressSpace

/-!
# Running out of frames

`pmm_alloc` reports exhaustion by returning `NULL`, and `kmalloc` checks its own
`NULL`; `pmm_allocz` and `map_page` do not. The zeroing of the new frame then
runs over physical frame 0, which is entered in the tables as if it had been
handed out.
-/

namespace FacelessOS

open ByteStore

/-- What was recorded between two states, latest first. -/
def Vm.newEvents (s s' : Vm) : List MemEvent :=
  s'.trace.take (s'.trace.length - s.trace.length)

/-- None of the events stored to physical frame 0. -/
def SparesFrameZero (events : List MemEvent) : Prop :=
  ∀ addr n, .stored addr n ∈ events → Apart addr n 0 pageSize

/-- A call that was refused a frame did no harm: frame 0 was not written, no
entry points to it as a table, and every translation is kept. -/
structure ExhaustionHarmless (s s' : Vm) : Prop where
  unwritten : SparesFrameZero (s.newEvents s')
  not_table : ∀ q t i, q.length < 3 → s'.table q = some t → s'.child t i ≠ some 0
  kept : ∀ v e, s.translate v = some e → s'.translate v = some e

theorem Vm.newEvents_of_append {s s' : Vm} {l : List MemEvent}
    (h : s'.trace = l ++ s.trace) : s.newEvents s' = l := by
  rw [newEvents, h, List.length_append, Nat.add_sub_cancel, List.take_left' rfl]

theorem not_sparesFrameZero {events : List MemEvent}
    (h : .stored 0 pageSize ∈ events) : ¬ SparesFrameZero events := by
  intro hspare
  exact hspare 0 pageSize h 0 (within_self (by decide)) (within_self (by decide))

theorem pmmAllocz_of_none {s : Vm} (h : takeFrame s.pmm.gmmap = none) :
    s.pmmAllocz.1 = 0 ∧ s.newEvents s.pmmAllocz.2 =
      [.stored 0 pageSize, .pmmAlloc none] := by
  rw [Vm.pmmAllocz, Vm.pmmAlloc_of_none h]
  exact ⟨rfl, Vm.newEvents_of_append rfl⟩

theorem newTable_of_none {s : Vm} (h : takeFrame s.pmm.gmmap = none) (t : U64)
    (i : Fin 512) (fl : U32) : (newTable s t i fl).1 = 0 := by
  rw [newTable_eq, Vm.pmmAlloc_of_none h]

/-- What a call records: wherever a `NULL` is, a store over frame 0 is too. -/
theorem mapPage_events {fuel : ℕ} {s s' : Vm} {a : U64} {fl : U32}
    (h : mapPage fuel s a fl = some s') :
    ∃ l, s'.trace = l ++ s.trace ∧
      (.pmmAlloc none ∈ l → .stored 0 pageSize ∈ l) := by
  refine mapPage_preserves (R := fun s s' => ∃ l, s'.trace = l ++ s.trace ∧
    (.pmmAlloc none ∈ l → .stored 0 pageSize ∈ l)) ?_ ?_ ?_ ?_ fuel h
  · exact fun s => ⟨[], rfl, fun h => absurd h List.not_mem_nil⟩
  · rintro s s' s'' ⟨l, hl, hz⟩ ⟨l', hl', hz'⟩
    refine ⟨l' ++ l, by rw [hl', hl, List.append_assoc], fun h => ?_⟩
    rcases List.mem_append.mp h with h | h
    · exact List.mem_append_left _ (hz' h)
    · exact List.mem_append_right _ (hz h)
  · intro s t i fl
    refine ⟨[_, _, _, _], newTable_trace s t i fl, fun h => ?_⟩
    -- the only `pmm_alloc` of a new table is the one whose frame is zeroed
    have hnone : takeFrame s.pmm.gmmap = none := by simpa [eq_comm] using h
    rw [newTable_of_none hnone]
    exact List.mem_cons_of_mem _ List.mem_cons_self
  · intro s t i e
    refine ⟨[.stored (Vm.entryAddr t i) 8], rfl, fun h => ?_⟩
    exact absurd h (by simp)

/-- **Exhaustion is never harmless.** Every call of `map_page` that is refused a
frame anywhere stores over frame 0, and so does `pmm_allocz` with no memory
left. -/
theorem exhaustion_writes_frameZero (s : Vm) :
    (∀ (a : U64) (fl : U32) (s' : Vm), MapsPage s a fl s' → s.nulls < s'.nulls →
      ¬ ExhaustionHarmless s s') ∧
    (takeFrame s.pmm.gmmap = none →
      s.pmmAllocz.1 = 0 ∧ ¬ SparesFrameZero (s.newEvents s.pmmAllocz.2)) := by
  constructor
  · rintro a fl s' ⟨fuel, hcall⟩ hnull hharmless
    obtain ⟨l, hl, hz⟩ := mapPage_events hcall
    have hmem : .pmmAlloc none ∈ l := by
      rw [Vm.nulls, Vm.nulls, hl, List.count_append] at hnull
      exact List.count_pos_iff.mp (by omega)
    refine not_sparesFrameZero (hz hmem) ?_
    rw [← Vm.newEvents_of_append hl]
    exact hharmless.unwritten
  · intro hnone
    obtain ⟨hnull, hevents⟩ := pmmAllocz_of_none hnone
    rw [hevents]
    exact ⟨hnull, not_sparesFrameZero List.mem_cons_self⟩

def exhaustedVm : Vm := { emptyVm with pmm := ⟨[], 0, 0, 0⟩ }

theorem exhaustedVm_wellFormed : WellFormed exhaustedVm [] where
  root_aligned := emptyVm_wellFormed.root_aligned
  root_unreferenced := emptyVm_wellFormed.root_unreferenced
  one_parent := emptyVm_wellFormed.one_parent
  no_large := emptyVm_wellFormed.no_large
  handsOut := .done rfl
  pool_nodup := List.nodup_nil
  pool_aligned := by simp
  pool_ne_zero := by simp
  pool_fresh := by simp

theorem exhaustedVm_mapsPage : ∃ s', MapsPage exhaustedVm 0x5000 pageBitRwWritable s' ∧
    exhaustedVm.nulls < s'.nulls ∧ .stored 0 pageSize ∈ exhaustedVm.newEvents s' ∧
    s'.mem 0 ≠ exhaustedVm.mem 0 := by
  have hrun : (mapPage 8 exhaustedVm 0x5000 pageBitRwWritable).map (fun s' =>
      (decide (exhaustedVm.nulls < s'.nulls),
        decide (.stored 0 pageSize ∈ exhaustedVm.newEvents s'),
        decide (s'.mem 0 ≠ exhaustedVm.mem 0))) = some (true, true, true) := by
    decide +kernel
  obtain ⟨s', hcall, heq⟩ := Option.map_eq_some_iff.mp hrun
  simp only [Prod.mk.injEq, decide_eq_true_eq] at heq
  exact ⟨s', ⟨8, hcall⟩, heq⟩

theorem exhaustion_writes_frameZero_exhaustedVm : ∃ s',
    MapsPage exhaustedVm 0x5000 pageBitRwWritable s' ∧
    ¬ ExhaustionHarmless exhaustedVm s' ∧
    ¬ SparesFrameZero (exhaustedVm.newEvents exhaustedVm.pmmAllocz.2) := by
  obtain ⟨s', hcall, hnull, -⟩ := exhaustedVm_mapsPage
  have hwrites := exhaustion_writes_frameZero exhaustedVm
  exact ⟨s', hcall, hwrites.1 _ _ _ hcall hnull, (hwrites.2 rfl).2⟩

/-- The call on exhausted tables refutes harmlessness for well-formed tables
that do not use frame 0. -/
theorem exhaustedVm_harmed :
    ¬ ∀ (s s' : Vm) (pool : List U64) (a : U64) (fl : U32), WellFormed s pool →
      (∀ q : List (Fin 512), q.length ≤ 3 → s.table q ≠ some 0) →
      MapsPage s a fl s' → s.nulls < s'.nulls → ExhaustionHarmless s s' := by
  intro hclaim
  obtain ⟨s', hcall, hnull, hstored, -⟩ := exhaustedVm_mapsPage
  have hzero : ∀ q : List (Fin 512), q.length ≤ 3 → exhaustedVm.table q ≠ some 0 := by
    intro q _ h
    exact absurd (emptyVm_table (q := q) h).2 (by decide)
  have hharmless := hclaim exhaustedVm s' [] 0x5000 pageBitRwWritable
    exhaustedVm_wellFormed hzero hcall hnull
  exact not_sparesFrameZero hstored hharmless.unwritten

end FacelessOS
