import FacelessOS.Memory.FrameAllocator

/-!
# Entries that end within a page

`pmm_alloc` takes a page off every entry whose length is not 0. It asks for no more, so an
entry that does not end on the last byte of a page is drained to less than a page, and the
next call makes its length wrap. That happens on every map with such an entry
(`pageMultiple_of_lengths`), and on no other (`frameLengths_iff`).
-/

namespace FacelessOS

/-- The entry that `pmm_alloc` takes its frame from. -/
def takenEntry (mmap : List MmapEntry) : Option MmapEntry := mmap.find? fun e => isUsable e

/-- The arithmetic of `pmm_alloc` in a run from this map: no subtraction wraps, every frame
lies wholly inside a range that was usable, and from some call on there are no more. -/
structure SoundLengths (mmap : List MmapEntry) (p : Pmm) : Prop where
  no_wrap : ∀ n entry, takenEntry (afterAllocs n p).gmmap = some entry →
    pageSize ≤ entry.length.toNat
  inside : ∀ n, nthAlloc p n ≠ 0 → ∃ entry ∈ mmap, entry.type = stivale2MmapUsable ∧
    entry.base.toNat ≤ (nthAlloc p n).toNat ∧
    (nthAlloc p n).toNat + pageSize ≤ entry.base.toNat + entry.length.toNat
  finite : ∃ count, ∀ n, count ≤ n → nthAlloc p n = 0

/-! ## One call -/

def MmapEntry.advance (entry : MmapEntry) : MmapEntry :=
  { entry with base := entry.base + 0x1000, length := entry.length - 0x1000 }

@[simp] theorem MmapEntry.type_advance (entry : MmapEntry) :
    entry.advance.type = entry.type := by
  rw [MmapEntry.advance]

theorem takeFrame_inv {mmap mmap' : List MmapEntry} {ret : U64}
    (h : takeFrame mmap = some (ret, mmap')) : ∃ before entry after,
      mmap = before ++ entry :: after ∧ takenEntry mmap = some entry ∧
      isUsable entry = true ∧ mmap' = before ++ entry.advance :: after := by
  induction mmap generalizing mmap' with
  | nil => exact absurd h (by simp [takeFrame])
  | cons e rest ih =>
      rw [takeFrame] at h
      split at h
      · rename_i hu
        obtain ⟨-, rfl⟩ := Prod.mk.inj (Option.some.inj h)
        exact ⟨[], e, rest, rfl, List.find?_cons_of_pos hu, hu, rfl⟩
      · rename_i hu
        obtain ⟨⟨r, rest'⟩, hrest, heq⟩ := Option.map_eq_some_iff.mp h
        simp only [Prod.mk.injEq] at heq
        obtain ⟨rfl, rfl⟩ := heq
        obtain ⟨before, entry, after, rfl, htaken, husable, rfl⟩ := ih hrest
        exact ⟨e :: before, entry, after, rfl, by
          rwa [takenEntry, List.find?_cons_of_neg hu], husable, rfl⟩

theorem takeFrame_eq_none {mmap : List MmapEntry} (h : takeFrame mmap = none) :
    ∀ entry ∈ mmap, isUsable entry = false := by
  induction mmap with
  | nil => exact fun e he => absurd he List.not_mem_nil
  | cons e rest ih =>
      rw [takeFrame] at h
      split at h
      · exact absurd h (by simp)
      · rename_i hu
        refine List.forall_mem_cons.mpr ⟨Bool.eq_false_iff.mpr hu, ih ?_⟩
        exact Option.map_eq_none_iff.mp h

/-- The bytes of the usable entries. Each call that does not wrap takes a page of them. -/
def usableBytes (mmap : List MmapEntry) : ℕ :=
  (mmap.map fun entry => if isUsable entry then entry.length.toNat else 0).sum

theorem toNat_length_advance {entry : MmapEntry} (h : pageSize ≤ entry.length.toNat) :
    entry.advance.length.toNat = entry.length.toNat - pageSize := by
  have hpage : (0x1000 : U64).toNat = pageSize := rfl
  rw [MmapEntry.advance, BitVec.toNat_sub_of_le (by rwa [BitVec.le_def, hpage]), hpage]

theorem usableBytes_lt {before after : List MmapEntry} {entry : MmapEntry}
    (hu : isUsable entry = true) (hlen : pageSize ≤ entry.length.toNat) :
    usableBytes (before ++ entry.advance :: after) <
      usableBytes (before ++ entry :: after) := by
  have hpos : 0 < pageSize := by decide
  have hsub := toNat_length_advance hlen
  unfold usableBytes
  rw [List.map_append, List.map_append, List.sum_append, List.sum_append, List.map_cons,
    List.map_cons, List.sum_cons, List.sum_cons, if_pos hu]
  split <;> omega

/-! ## Runs -/

/-- Where no call wraps a length there is no partial page: each call leaves the rest of the
length by a page as it was, until there is nothing left. -/
theorem pageMultiple_of_lengths {p : Pmm}
    (h : ∀ n entry, takenEntry (afterAllocs n p).gmmap = some entry →
      pageSize ≤ entry.length.toNat) : PageMultiple p.gmmap := by
  generalize hbytes : usableBytes p.gmmap = bytes
  induction bytes using Nat.strongRecOn generalizing p with
  | ind bytes ih =>
      cases hframe : takeFrame p.gmmap with
      | none =>
          intro entry he ht
          have hzero : ¬ 0 < entry.length.toNat := fun hpos => by
            have hu := takeFrame_eq_none hframe entry he
            rw [isUsable_iff.mpr ⟨ht, hpos⟩] at hu
            exact absurd hu (by simp)
          rw [Nat.eq_zero_of_not_pos hzero, Nat.zero_mod]
      | some out =>
          obtain ⟨ret, mmap'⟩ := out
          have hstep : (pmmAlloc p).2.gmmap = mmap' := by rw [pmmAlloc_of_some hframe]
          obtain ⟨before, entry, after, hsplit, htaken, hu, rfl⟩ := takeFrame_inv hframe
          have hlen := h 0 entry htaken
          have hless : usableBytes (before ++ entry.advance :: after) < _ :=
            usableBytes_lt hu hlen
          rw [← hsplit, hbytes, ← hstep] at hless
          have hrest := ih _ hless (p := (pmmAlloc p).2) (fun n => h (n + 1)) rfl
          rw [hstep] at hrest
          intro e he ht
          rw [hsplit] at he
          rcases List.mem_append.mp he with he | he
          · exact hrest e (List.mem_append_left _ he) ht
          · rcases List.mem_cons.mp he with rfl | he
            · have hmem : e.advance ∈ before ++ e.advance :: after :=
                List.mem_append_right _ List.mem_cons_self
              have hmod := hrest e.advance hmem (by rw [MmapEntry.type_advance, ht])
              rw [toNat_length_advance hlen] at hmod
              rwa [← Nat.mod_eq_sub_mod hlen] at hmod
            · exact hrest e (List.mem_append_right _ (List.mem_cons_of_mem _ he)) ht

theorem afterAllocs_pageMultiple {p : Pmm} (h : PageMultiple p.gmmap) (n : ℕ) :
    PageMultiple (afterAllocs n p).gmmap := by
  induction n with
  | zero => exact h
  | succ n ih =>
      rw [afterAllocs_succ']
      rcases takeFrame_cases ih with ⟨hnone, -⟩ | ⟨ret, mmap', hsome, hm, -⟩
      · rwa [pmmAlloc_of_none hnone]
      · rwa [pmmAlloc_of_some hsome]

/-- **The lengths are sound exactly** on the maps whose usable entries are whole numbers of
pages long. -/
theorem frameLengths_iff (p₀ : Pmm) (ss : List Stivale2Tag) (mmap : List MmapEntry)
    (hss : getTag ss stivale2StructTagMemmapId = some (.memmap mmap))
    (hend : ∀ entry ∈ mmap, entry.type = stivale2MmapUsable →
      entry.base.toNat + entry.length.toNat < 2 ^ 64) :
    ∃ p out, pmmInit p₀ ss = some (p, out) ∧ (SoundLengths mmap p ↔ PageMultiple mmap) := by
  obtain ⟨p, out, hinit, hp⟩ := pmmInit_gmmap p₀ hss
  refine ⟨p, out, hinit, fun h => ?_, fun hm => ?_⟩
  · rw [← hp]
    exact pageMultiple_of_lengths h.no_wrap
  · rw [← hp] at hm
    have hout := handsOut_usablePages hm
    have hnth := fun n => (hout.nth n).1
    refine ⟨fun n entry htaken => ?_, fun n hn => ?_, (usablePages p.gmmap).length,
      fun n hn => ?_⟩
    · have hu : isUsable entry = true := List.find?_some htaken
      obtain ⟨ht, hpos⟩ := isUsable_iff.mp hu
      have hmod := afterAllocs_pageMultiple hm n entry (List.mem_of_find?_eq_some htaken) ht
      exact Nat.le_of_dvd hpos (Nat.dvd_of_mod_eq_zero hmod)
    · have hlt : n < (usablePages p.gmmap).length := by
        by_contra hge
        rw [hnth, List.getElem?_eq_none (by omega)] at hn
        exact hn rfl
      have hmem : nthAlloc p n ∈ usablePages mmap := by
        rw [hnth, List.getElem?_eq_getElem hlt, ← hp]
        exact List.getElem_mem hlt
      exact usablePages_inside (fun e he ht => (hend e he ht).le) hmem
    · rw [hnth, List.getElem?_eq_none hn]
      rfl

/-! A map with a page and a half. -/

def halfPageMap : List MmapEntry := [⟨0x1000, 0x1800, stivale2MmapUsable⟩]

theorem frameLengths_iff_halfPageMap : ∃ p out,
    pmmInit ⟨[], 0, 0, 0⟩ [.memmap halfPageMap] = some (p, out) ∧
    ¬ SoundLengths halfPageMap p := by
  obtain ⟨p, out, hinit, hiff⟩ := frameLengths_iff ⟨[], 0, 0, 0⟩ [.memmap halfPageMap]
    halfPageMap rfl (by decide)
  refine ⟨p, out, hinit, fun h => ?_⟩
  have hmod := hiff.mp h ⟨0x1000, 0x1800, stivale2MmapUsable⟩ List.mem_cons_self rfl
  exact absurd hmod (by decide)

/-- The second call makes the length of `halfPageMap` wrap. -/
theorem halfPageMap_wraps :
    ¬ ∀ (p₀ p : Pmm) (ss : List Stivale2Tag) (mmap : List MmapEntry) (out : List LogCall),
      getTag ss stivale2StructTagMemmapId = some (.memmap mmap) →
      (∀ entry ∈ mmap, entry.type = stivale2MmapUsable →
        entry.base.toNat + entry.length.toNat < 2 ^ 64) →
      pmmInit p₀ ss = some (p, out) → SoundLengths mmap p := by
  intro hclaim
  have hss : getTag [.memmap halfPageMap] stivale2StructTagMemmapId = some _ := rfl
  obtain ⟨p, out, hinit, hp⟩ := pmmInit_gmmap ⟨[], 0, 0, 0⟩ hss
  have hsound := hclaim _ p _ halfPageMap out rfl (by decide) hinit
  have hafter : (afterAllocs 1 p).gmmap = [⟨0x2000, 0x800, stivale2MmapUsable⟩] := by
    rw [afterAllocs_succ', afterAllocs, Function.iterate_zero, id, pmmAlloc, hp]
    rfl
  have hlen := hsound.no_wrap 1 ⟨0x2000, 0x800, stivale2MmapUsable⟩ (by rw [hafter]; rfl)
  exact absurd hlen (by decide)

end FacelessOS
