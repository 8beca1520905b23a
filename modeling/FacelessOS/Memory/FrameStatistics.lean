import FacelessOS.Memory.PartialPages

/-!
# The frame counters

`pmm_init` computes `highest_frame_top`, `max_frames` and `used_frames`, and nothing changes
them afterwards. The first one is right (`HighestTop.pmmInitLoop`). The other two are both set to
the highest address times 1024 through the page size, which is neither the number of frames
that can be allocated nor the number that is in use (`frameStatistics_iff`).
-/

namespace FacelessOS

def MmapEntry.top (entry : MmapEntry) : ℕ := entry.base.toNat + entry.length.toNat

structure HighestTop (mmap : List MmapEntry) (top : ℕ) : Prop where
  upper : ∀ entry ∈ mmap, entry.type = stivale2MmapUsable → entry.top ≤ top
  attained : top = 0 ∨ ∃ entry ∈ mmap, entry.type = stivale2MmapUsable ∧ entry.top = top

/-- What the counters of `pmm.c` are for: the end of the usable memory, how many calls of
`pmm_alloc` return a frame, and how many have, none of them computed with an overflow. -/
structure StatisticsMatch (mmap : List MmapEntry) (p : Pmm) : Prop where
  highest : HighestTop mmap p.highestFrameTop.toNat
  frames : ∃ pages, HandsOut p.gmmap pages ∧ p.maxFrames.toNat = pages.length ∧
    ∀ n, (afterAllocs n p).usedFrames.toNat = min n pages.length
  no_overflow : p.highestFrameTop.toNat * 1024 < 2 ^ 64

/-! ## The loop of `pmm_init` -/

theorem pmmInitEntry_cases (p : Pmm) (entry : MmapEntry) :
    (entry.type ≠ stivale2MmapUsable ∧ (pmmInitEntry p entry).1 = p) ∨
    (entry.type = stivale2MmapUsable ∧ (pmmInitEntry p entry).1 =
      let highest := if entry.base + entry.length > p.highestFrameTop
        then entry.base + entry.length else p.highestFrameTop
      { p with highestFrameTop := highest, usedFrames := highest * 1024 / 0x1000,
               maxFrames := highest * 1024 / 0x1000 }) := by
  unfold pmmInitEntry
  by_cases ht : entry.type = stivale2MmapUsable
  · have hcond : ¬ (entry.type ≠ stivale2MmapUsable ∨
        entry.type = stivale2MmapBootloaderReclaimable ∨
        entry.type = stivale2MmapKernelAndModules) := by
      rw [ht]
      decide
    rw [if_neg hcond]
    exact Or.inr ⟨ht, rfl⟩
  · rw [if_pos (Or.inl ht)]
    exact Or.inl ⟨ht, rfl⟩

/-- The counters are computed from the highest address alone. -/
def Scaled (p : Pmm) : Prop :=
  p.usedFrames = p.highestFrameTop * 1024 / 0x1000 ∧ p.maxFrames = p.usedFrames

theorem scaled_pmmInitLoop {p : Pmm} (h : Scaled p) (mmap : List MmapEntry) :
    Scaled (pmmInitLoop p mmap).1 := by
  induction mmap generalizing p with
  | nil => exact h
  | cons entry rest ih =>
      have hentry : Scaled (pmmInitEntry p entry).1 := by
        rcases pmmInitEntry_cases p entry with ⟨-, heq⟩ | ⟨-, heq⟩
        · rwa [heq]
        · rw [heq]
          exact ⟨rfl, rfl⟩
      exact ih hentry

theorem HighestTop.pmmInitEntry {p : Pmm} {seen : List MmapEntry} {entry : MmapEntry}
    (h : HighestTop seen p.highestFrameTop.toNat)
    (hend : entry.type = stivale2MmapUsable → entry.top < 2 ^ 64) :
    HighestTop (seen ++ [entry]) (pmmInitEntry p entry).1.highestFrameTop.toNat := by
  obtain ⟨hupper, hattained⟩ := h
  have hmore : (∃ e ∈ seen, e.type = stivale2MmapUsable ∧ e.top = p.highestFrameTop.toNat) →
      ∃ e ∈ seen ++ [entry], e.type = stivale2MmapUsable ∧
        e.top = p.highestFrameTop.toNat := by
    rintro ⟨e, he, hte⟩
    exact ⟨e, List.mem_append_left _ he, hte⟩
  rcases pmmInitEntry_cases p entry with ⟨ht, heq⟩ | ⟨ht, heq⟩
  · rw [heq]
    refine ⟨fun e he hte => ?_, hattained.imp_right hmore⟩
    rcases List.mem_append.mp he with he | he
    · exact hupper e he hte
    · rw [List.mem_singleton.mp he] at hte
      exact absurd hte ht
  · have htop : (entry.base + entry.length).toNat = entry.top := by
      have hlt := hend ht
      unfold MmapEntry.top at hlt ⊢
      rw [BitVec.toNat_add, Nat.mod_eq_of_lt hlt]
    rw [heq]
    simp only
    split
    · rename_i hgt
      rw [gt_iff_lt, BitVec.lt_def, htop] at hgt
      rw [htop]
      refine ⟨fun e he hte => ?_, Or.inr ⟨entry, by simp, ht, rfl⟩⟩
      rcases List.mem_append.mp he with he | he
      · exact (hupper e he hte).trans hgt.le
      · rw [List.mem_singleton.mp he]
    · rename_i hle
      rw [gt_iff_lt, BitVec.lt_def, htop, not_lt] at hle
      refine ⟨fun e he hte => ?_, hattained.imp_right hmore⟩
      rcases List.mem_append.mp he with he | he
      · exact hupper e he hte
      · rwa [List.mem_singleton.mp he]

theorem HighestTop.pmmInitLoop {p : Pmm} {seen : List MmapEntry} (mmap : List MmapEntry)
    (h : HighestTop seen p.highestFrameTop.toNat)
    (hend : ∀ entry ∈ mmap, entry.type = stivale2MmapUsable → entry.top < 2 ^ 64) :
    HighestTop (seen ++ mmap) (pmmInitLoop p mmap).1.highestFrameTop.toNat := by
  induction mmap generalizing p seen with
  | nil => rwa [List.append_nil]
  | cons entry rest ih =>
      rw [List.append_cons]
      exact ih (h.pmmInitEntry (hend entry List.mem_cons_self)) fun e he =>
        hend e (List.mem_cons_of_mem _ he)

/-! ## After `pmm_init` -/

theorem pmmInit_counters {ss : List Stivale2Tag} {mmap : List MmapEntry}
    (hss : getTag ss stivale2StructTagMemmapId = some (.memmap mmap)) :
    ∃ p out, pmmInit ⟨[], 0, 0, 0⟩ ss = some (p, out) ∧ p.gmmap = mmap ∧ Scaled p ∧
      ((∀ entry ∈ mmap, entry.type = stivale2MmapUsable → entry.top < 2 ^ 64) →
        HighestTop mmap p.highestFrameTop.toNat) := by
  have hzero : Scaled ⟨mmap, 0, 0, 0⟩ := by
    refine ⟨?_, rfl⟩
    show (0 : U64) = 0 * 1024 / 0x1000
    decide
  rw [pmmInit_of_memmap hss]
  refine ⟨_, _, rfl, pmmInitLoop_gmmap _ _, scaled_pmmInitLoop hzero _, fun hend => ?_⟩
  have hstart : HighestTop [] 0 :=
    ⟨fun e he => absurd he List.not_mem_nil, Or.inl rfl⟩
  exact HighestTop.pmmInitLoop (p := ⟨mmap, 0, 0, 0⟩) mmap hstart hend

theorem toNat_scaled {top : U64} (h : top.toNat * 1024 < 2 ^ 64) :
    (top * 1024 / 0x1000).toNat = top.toNat * 1024 / 0x1000 := by
  rw [BitVec.toNat_udiv, BitVec.toNat_mul]
  have h1024 : (1024 : U64).toNat = 1024 := rfl
  have hpage : (0x1000 : U64).toNat = 0x1000 := rfl
  rw [h1024, hpage, Nat.mod_eq_of_lt h]

theorem usablePages_of_top {mmap : List MmapEntry}
    (h : ∀ entry ∈ mmap, entry.type = stivale2MmapUsable → entry.top = 0) :
    usablePages mmap = [] := by
  refine List.flatMap_eq_nil_iff.mpr fun entry he => entryPages_of_not_usable ?_
  refine Bool.eq_false_iff.mpr fun hu => ?_
  obtain ⟨ht, hpos⟩ := isUsable_iff.mp hu
  have hend := h entry he ht
  unfold MmapEntry.top at hend
  omega

theorem afterAllocs_of_nil {p : Pmm} (h : HandsOut p.gmmap []) (n : ℕ) :
    afterAllocs n p = p := by
  induction n with
  | zero => rfl
  | succ n ih => rw [afterAllocs_succ', h.exhausted (Nat.zero_le n), ih]

/-- **The counters never match the allocator**, unless there is nothing to allocate: every
usable entry is empty and at address 0. -/
theorem frameStatistics_iff (ss : List Stivale2Tag) (mmap : List MmapEntry)
    (hss : getTag ss stivale2StructTagMemmapId = some (.memmap mmap))
    (hbase : ∀ entry ∈ mmap, entry.type = stivale2MmapUsable → PageAligned entry.base)
    (hm : PageMultiple mmap) :
    ∃ p out, pmmInit ⟨[], 0, 0, 0⟩ ss = some (p, out) ∧
      (StatisticsMatch mmap p ↔
        ∀ entry ∈ mmap, entry.type = stivale2MmapUsable → entry.top = 0) := by
  obtain ⟨p, out, hinit, hp, ⟨hused, hmax⟩, hhighest⟩ := pmmInit_counters hss
  refine ⟨p, out, hinit, fun h entry he ht => ?_, fun hempty => ?_⟩
  · -- nothing is in use yet, so the highest address is below one page
    obtain ⟨pages, -, -, hcount⟩ := h.frames
    have hzero := hcount 0
    have hle := h.highest.upper entry he ht
    have hb := hbase entry he ht
    have hl := hm entry he ht
    rw [afterAllocs, Function.iterate_zero, id, hused, toNat_scaled h.no_overflow,
      Nat.zero_min] at hzero
    unfold PageAligned at hb
    unfold MmapEntry.top at hle ⊢
    unfold pageSize at hb hl
    omega
  · have htop := hhighest fun entry he ht => by
      rw [hempty entry he ht]
      decide
    have hzero : p.highestFrameTop = 0 := by
      apply BitVec.eq_of_toNat_eq
      rcases htop.attained with hz | ⟨entry, he, ht, hz⟩
      · exact hz
      · rw [← hz, hempty entry he ht]
        rfl
    have hused0 : p.usedFrames = 0 := by
      rw [hused, hzero]
      rfl
    have hout : HandsOut p.gmmap [] := by
      rw [hp, ← usablePages_of_top hempty]
      exact handsOut_usablePages hm
    refine ⟨htop, ⟨[], hout, by rw [hmax, hused0]; rfl, fun n => ?_⟩, by rw [hzero]; decide⟩
    rw [afterAllocs_of_nil hout, hused0, List.length_nil, Nat.min_zero]
    rfl

theorem frameStatistics_iff_smallMap : ∃ p out,
    pmmInit ⟨[], 0, 0, 0⟩ [.memmap smallMap] = some (p, out) ∧
    ¬ StatisticsMatch smallMap p := by
  obtain ⟨p, out, hinit, hiff⟩ := frameStatistics_iff [.memmap smallMap] smallMap rfl
    smallMap_bootloaderMap.base_aligned smallMap_bootloaderMap.length_pages
  refine ⟨p, out, hinit, fun h => ?_⟩
  have hend := hiff.mp h ⟨0x1000, 0x2000, stivale2MmapUsable⟩ List.mem_cons_self rfl
  exact absurd hend (by decide)

/-- One entry of two pages: 3072 frames are counted, and all of them as used. -/
theorem twoPageMap_miscounted :
    ¬ ∀ (ss : List Stivale2Tag) (mmap : List MmapEntry) (p : Pmm) (out : List LogCall),
      getTag ss stivale2StructTagMemmapId = some (.memmap mmap) → BootloaderMap mmap →
      pmmInit ⟨[], 0, 0, 0⟩ ss = some (p, out) → StatisticsMatch mmap p := by
  intro hclaim
  have hmap : BootloaderMap [⟨0x1000, 0x2000, stivale2MmapUsable⟩] := by
    refine ⟨by decide, by decide, by unfold PageMultiple; decide, by decide, ?_⟩
    exact List.pairwise_singleton _ _
  have hss : getTag [.memmap [⟨0x1000, 0x2000, stivale2MmapUsable⟩]]
      stivale2StructTagMemmapId = some _ := rfl
  obtain ⟨p, out, hinit, hp, ⟨hused, -⟩, hhighest⟩ := pmmInit_counters hss
  obtain ⟨-, ⟨pages, -, -, hcount⟩, -⟩ := hclaim _ _ p out rfl hmap hinit
  have htop := hhighest (by decide)
  have hvalue : p.highestFrameTop = 0x3000 := by
    apply BitVec.eq_of_toNat_eq
    have hle := htop.upper _ List.mem_cons_self rfl
    rcases htop.attained with hz | ⟨entry, he, -, hz⟩
    · rw [hz] at hle
      exact absurd hle (by decide)
    · rw [← hz, List.mem_singleton.mp he]
      rfl
  have hzero := hcount 0
  rw [afterAllocs, Function.iterate_zero, id, hused, hvalue, Nat.zero_min] at hzero
  exact absurd hzero (by decide)

end FacelessOS
