import FacelessOS.Memory.Pmm

/-!
# Exactness of the frame allocator over whole runs

`handsOut_usablePages` says what one map hands out. Here the calls after
`pmm_init` are counted: the `n`-th call returns the `n`-th usable page of the
bootloader's map, and `NULL` from the end of that list on.
-/

namespace FacelessOS

def afterAllocs (n : ℕ) (p : Pmm) : Pmm := (fun p => (pmmAlloc p).2)^[n] p

/-- What the call after `n` calls of `pmm_alloc` returns. -/
def nthAlloc (p : Pmm) (n : ℕ) : U64 := (pmmAlloc (afterAllocs n p)).1

def MmapEntry.Covers (entry : MmapEntry) (x : ℕ) : Prop :=
  entry.base.toNat ≤ x ∧ x < entry.base.toNat + entry.length.toNat

/-- What the bootloader guarantees of the usable entries of its map. -/
structure BootloaderMap (mmap : List MmapEntry) : Prop where
  base_ne_zero : ∀ entry ∈ mmap, entry.type = stivale2MmapUsable → entry.base ≠ 0
  base_aligned : ∀ entry ∈ mmap, entry.type = stivale2MmapUsable →
    PageAligned entry.base
  length_pages : PageMultiple mmap
  no_wrap : ∀ entry ∈ mmap, entry.type = stivale2MmapUsable →
    entry.base.toNat + entry.length.toNat ≤ 2 ^ 64
  disjoint : mmap.Pairwise fun e f =>
    e.type = stivale2MmapUsable ∨ f.type = stivale2MmapUsable →
      ∀ x, e.Covers x → ¬ f.Covers x

theorem afterAllocs_succ (n : ℕ) (p : Pmm) :
    afterAllocs (n + 1) p = afterAllocs n (pmmAlloc p).2 := rfl

theorem afterAllocs_succ' (n : ℕ) (p : Pmm) :
    afterAllocs (n + 1) p = (pmmAlloc (afterAllocs n p)).2 :=
  Function.iterate_succ_apply' _ _ _

theorem HandsOut.nth {p : Pmm} {pages : List U64} (h : HandsOut p.gmmap pages)
    (n : ℕ) : nthAlloc p n = pages[n]?.getD 0 ∧
      HandsOut (afterAllocs n p).gmmap (pages.drop n) := by
  induction n generalizing p pages with
  | zero =>
      refine ⟨?_, by simpa [afterAllocs] using h⟩
      cases h with
      | done hnone => simp [nthAlloc, afterAllocs, pmmAlloc_of_none hnone]
      | page hsome _ => simp [nthAlloc, afterAllocs, pmmAlloc_of_some hsome]
  | succ n ih =>
      cases h with
      | done hnone =>
          have hp : (pmmAlloc p).2 = p := by rw [pmmAlloc_of_none hnone]
          have := ih (p := p) (.done hnone)
          simpa [nthAlloc, afterAllocs_succ, hp] using this
      | @page _ mmap' ret rest hsome hrest =>
          have hp : (pmmAlloc p).2 = { p with gmmap := mmap' } := by
            rw [pmmAlloc_of_some hsome]
          have := ih (p := { p with gmmap := mmap' }) hrest
          simpa [nthAlloc, afterAllocs_succ, hp] using this

theorem HandsOut.exhausted {p : Pmm} {pages : List U64}
    (h : HandsOut p.gmmap pages) {n : ℕ} (hn : pages.length ≤ n) :
    (pmmAlloc (afterAllocs n p)).2 = afterAllocs n p := by
  have hout := (h.nth n).2
  rw [List.drop_eq_nil_of_le hn] at hout
  cases hout with
  | done hnone => rw [pmmAlloc_of_none hnone]

/-! ## The pages of one entry -/

theorem mem_entryPages {entry : MmapEntry} {r : U64} :
    r ∈ entryPages entry ↔ entry.type = stivale2MmapUsable ∧
      ∃ k < entry.length.toNat / pageSize,
        r = entry.base + BitVec.ofNat 64 (pageSize * k) := by
  unfold entryPages
  split
  · rename_i ht
    simp only [List.mem_map, List.mem_range, ht, true_and]
    exact exists_congr fun k => and_congr_right fun _ => eq_comm
  · rename_i ht
    simp [ht]

theorem entryPages_inside {entry : MmapEntry} {k : ℕ}
    (hw : entry.base.toNat + entry.length.toNat ≤ 2 ^ 64)
    (hk : k < entry.length.toNat / pageSize) :
    (entry.base + BitVec.ofNat 64 (pageSize * k)).toNat =
        entry.base.toNat + pageSize * k ∧
      entry.base.toNat + pageSize * k + pageSize ≤
        entry.base.toNat + entry.length.toNat := by
  unfold pageSize at hk ⊢
  rw [BitVec.toNat_add, BitVec.toNat_ofNat]
  omega

theorem entryPages_nodup {entry : MmapEntry}
    (hw : entry.type = stivale2MmapUsable →
      entry.base.toNat + entry.length.toNat ≤ 2 ^ 64) :
    (entryPages entry).Nodup := by
  unfold entryPages
  split
  · rename_i ht
    refine List.Nodup.map_on ?_ List.nodup_range
    intro j hj k hk heq
    rw [List.mem_range] at hj hk
    have hnum := congrArg BitVec.toNat heq
    rw [(entryPages_inside (hw ht) hj).1, (entryPages_inside (hw ht) hk).1,
      pageSize] at hnum
    omega
  · exact List.nodup_nil

theorem usablePages_inside {mmap : List MmapEntry}
    (hw : ∀ entry ∈ mmap, entry.type = stivale2MmapUsable →
      entry.base.toNat + entry.length.toNat ≤ 2 ^ 64) {r : U64} (hr : r ∈ usablePages mmap) :
    ∃ entry ∈ mmap, entry.type = stivale2MmapUsable ∧
      entry.base.toNat ≤ r.toNat ∧
      r.toNat + pageSize ≤ entry.base.toNat + entry.length.toNat := by
  obtain ⟨entry, he, hr⟩ := List.mem_flatMap.mp hr
  obtain ⟨ht, k, hk, rfl⟩ := mem_entryPages.mp hr
  have hin := entryPages_inside (hw entry he ht) hk
  exact ⟨entry, he, ht, by omega, by omega⟩

namespace BootloaderMap

variable {mmap : List MmapEntry} (hmap : BootloaderMap mmap)

include hmap

theorem inside {r : U64} (hr : r ∈ usablePages mmap) :
    ∃ entry ∈ mmap, entry.type = stivale2MmapUsable ∧
      entry.base.toNat ≤ r.toNat ∧
      r.toNat + pageSize ≤ entry.base.toNat + entry.length.toNat :=
  usablePages_inside hmap.no_wrap hr

theorem pages_ne_zero {r : U64} (hr : r ∈ usablePages mmap) : r ≠ 0 := by
  obtain ⟨entry, he, hr⟩ := List.mem_flatMap.mp hr
  obtain ⟨ht, k, hk, rfl⟩ := mem_entryPages.mp hr
  have hin := (entryPages_inside (hmap.no_wrap entry he ht) hk).1
  have hbase : entry.base.toNat ≠ 0 := fun h =>
    hmap.base_ne_zero entry he ht (BitVec.eq_of_toNat_eq h)
  intro h
  have hzero : (0 : U64).toNat = 0 := rfl
  rw [h, hzero] at hin
  omega

theorem pages_aligned {r : U64} (hr : r ∈ usablePages mmap) : PageAligned r := by
  obtain ⟨entry, he, hr⟩ := List.mem_flatMap.mp hr
  obtain ⟨ht, k, hk, rfl⟩ := mem_entryPages.mp hr
  have hin := (entryPages_inside (hmap.no_wrap entry he ht) hk).1
  have hbase := hmap.base_aligned entry he ht
  unfold PageAligned at hbase ⊢
  rw [hin, Nat.add_mul_mod_self_left]
  exact hbase

theorem pages_nodup : (usablePages mmap).Nodup := by
  rw [usablePages, List.nodup_flatMap]
  refine ⟨fun entry he => entryPages_nodup (hmap.no_wrap entry he), ?_⟩
  refine hmap.disjoint.imp_of_mem ?_
  intro e f he hf hdis r hre hrf
  obtain ⟨hte, j, hj, rfl⟩ := mem_entryPages.mp hre
  obtain ⟨htf, k, hk, heq⟩ := mem_entryPages.mp hrf
  have hin := entryPages_inside (hmap.no_wrap e he hte) hj
  have hin' := entryPages_inside (hmap.no_wrap f hf htf) hk
  have hnum := congrArg BitVec.toNat heq
  rw [hin.1, hin'.1] at hnum
  unfold pageSize at hin hin' hnum
  exact hdis (Or.inl hte) (e.base.toNat + 0x1000 * j)
    ⟨by omega, by omega⟩ ⟨by omega, by omega⟩

end BootloaderMap

/-! ## Reserved entries -/

theorem pmmAlloc_reserved {p : Pmm} {i : ℕ} {entry : MmapEntry}
    (hi : p.gmmap[i]? = some entry) (ht : entry.type ≠ stivale2MmapUsable) :
    (pmmAlloc p).2.gmmap[i]? = some entry := by
  cases hframe : takeFrame p.gmmap with
  | none => rw [pmmAlloc_of_none hframe]; exact hi
  | some out =>
      obtain ⟨ret, mmap'⟩ := out
      rw [pmmAlloc_of_some hframe]
      exact takeFrame_reserved hframe hi ht

theorem afterAllocs_reserved {p : Pmm} {i : ℕ} {entry : MmapEntry}
    (hi : p.gmmap[i]? = some entry) (ht : entry.type ≠ stivale2MmapUsable)
    (n : ℕ) : (afterAllocs n p).gmmap[i]? = some entry := by
  induction n with
  | zero => exact hi
  | succ n ih =>
      rw [afterAllocs_succ']
      exact pmmAlloc_reserved ih ht

theorem pmmInitEntry_gmmap (p : Pmm) (entry : MmapEntry) :
    (pmmInitEntry p entry).1.gmmap = p.gmmap := by
  unfold pmmInitEntry
  split <;> rfl

theorem pmmInitLoop_gmmap (p : Pmm) (mmap : List MmapEntry) :
    (pmmInitLoop p mmap).1.gmmap = p.gmmap := by
  induction mmap generalizing p with
  | nil => rfl
  | cons entry rest ih =>
      show (pmmInitLoop (pmmInitEntry p entry).1 rest).1.gmmap = p.gmmap
      rw [ih, pmmInitEntry_gmmap]

theorem pmmInit_gmmap (p₀ : Pmm) {ss : List Stivale2Tag} {mmap : List MmapEntry}
    (hss : getTag ss stivale2StructTagMemmapId = some (.memmap mmap)) :
    ∃ p out, pmmInit p₀ ss = some (p, out) ∧ p.gmmap = mmap := by
  rw [pmmInit_of_memmap hss]
  exact ⟨_, _, rfl, pmmInitLoop_gmmap _ _⟩

/-- **The frame allocator is exact.** After `pmm_init`, over any number of
calls, `pmm_alloc` returns the usable pages of the bootloader's map in map
order and then `NULL` for ever, leaving the map alone. -/
theorem pmmAlloc_exact (p₀ : Pmm) (ss : List Stivale2Tag) (mmap : List MmapEntry)
    (hss : getTag ss stivale2StructTagMemmapId = some (.memmap mmap))
    (hmap : BootloaderMap mmap) :
    ∃ p out, pmmInit p₀ ss = some (p, out) ∧
      (∀ n, nthAlloc p n = (usablePages mmap)[n]?.getD 0) ∧
      (∀ n, nthAlloc p n = 0 ↔ (usablePages mmap).length ≤ n) ∧
      (∀ n, (usablePages mmap).length ≤ n →
        (afterAllocs n p).gmmap =
          (afterAllocs (usablePages mmap).length p).gmmap) ∧
      (∀ m n, nthAlloc p m ≠ 0 → nthAlloc p m = nthAlloc p n → m = n) ∧
      (∀ n, nthAlloc p n ≠ 0 → ∃ entry ∈ mmap,
        entry.type = stivale2MmapUsable ∧
        entry.base.toNat ≤ (nthAlloc p n).toNat ∧
        (nthAlloc p n).toNat + pageSize ≤
          entry.base.toNat + entry.length.toNat) ∧
      (∀ entry ∈ mmap, entry.type = stivale2MmapUsable →
        ∀ k < entry.length.toNat / pageSize,
          ∃ n, nthAlloc p n = entry.base + BitVec.ofNat 64 (pageSize * k)) ∧
      (∀ (n i : ℕ) (entry : MmapEntry), mmap[i]? = some entry →
        entry.type ≠ stivale2MmapUsable →
        (afterAllocs n p).gmmap[i]? = some entry) := by
  obtain ⟨p, out, hinit, hp⟩ := pmmInit_gmmap p₀ hss
  have hout : HandsOut p.gmmap (usablePages mmap) := by
    rw [hp]
    exact handsOut_usablePages hmap.length_pages
  have hnth : ∀ n, nthAlloc p n = (usablePages mmap)[n]?.getD 0 :=
    fun n => (hout.nth n).1
  have hmem : ∀ n, n < (usablePages mmap).length →
      nthAlloc p n ∈ usablePages mmap := by
    intro n hn
    rw [hnth, List.getElem?_eq_getElem hn]
    exact List.getElem_mem hn
  have hnull : ∀ n, nthAlloc p n = 0 ↔ (usablePages mmap).length ≤ n := by
    intro n
    constructor
    · intro h
      by_contra hn
      exact hmap.pages_ne_zero (hmem n (by omega)) h
    · intro hn
      rw [hnth, List.getElem?_eq_none hn]
      rfl
  have hlt : ∀ n, nthAlloc p n ≠ 0 → n < (usablePages mmap).length := by
    intro n h
    rw [Ne, hnull] at h
    omega
  refine ⟨p, out, hinit, hnth, hnull, ?_, ?_, ?_, ?_, ?_⟩
  · intro n hn
    induction n, hn using Nat.le_induction with
    | base => rfl
    | succ n hn ih => rw [afterAllocs_succ', hout.exhausted hn, ih]
  · intro m n hm heq
    have hn : nthAlloc p n ≠ 0 := heq ▸ hm
    rw [hnth, hnth, List.getElem?_eq_getElem (hlt m hm),
      List.getElem?_eq_getElem (hlt n hn)] at heq
    exact (hmap.pages_nodup.getElem_inj_iff).mp heq
  · intro n hn
    exact hmap.inside (hmem n (hlt n hn))
  · intro entry he ht k hk
    have hpage : entry.base + BitVec.ofNat 64 (pageSize * k) ∈ usablePages mmap :=
      List.mem_flatMap.mpr ⟨entry, he, mem_entryPages.mpr ⟨ht, k, hk, rfl⟩⟩
    obtain ⟨n, hn, heq⟩ := List.mem_iff_getElem.mp hpage
    exact ⟨n, by rw [hnth, List.getElem?_eq_getElem hn, heq]; rfl⟩
  · intro n i entry hi ht
    exact afterAllocs_reserved (by rw [hp]; exact hi) ht n

def smallMap : List MmapEntry :=
  [⟨0x1000, 0x2000, stivale2MmapUsable⟩, ⟨0x3000, 0x500, 2⟩,
    ⟨0x8000, 0x1000, stivale2MmapUsable⟩]

theorem smallMap_bootloaderMap : BootloaderMap smallMap where
  base_ne_zero := by decide
  base_aligned := by decide
  length_pages := by unfold PageMultiple; decide
  no_wrap := by decide
  disjoint := by
    simp only [smallMap, List.pairwise_cons, List.mem_cons, List.not_mem_nil, or_false,
      forall_eq_or_imp, forall_eq, MmapEntry.Covers]
    refine ⟨⟨fun _ x h => ?_, fun _ x h => ?_⟩, fun _ x h => ?_, by simp⟩ <;>
      simp at h ⊢ <;> omega

theorem pmmAlloc_exact_smallMap : ∃ p out,
    pmmInit ⟨[], 0, 0, 0⟩ [.rsdp 0, .memmap smallMap] = some (p, out) ∧
    nthAlloc p 1 = 0x2000 ∧ nthAlloc p 2 = 0x8000 ∧ nthAlloc p 3 = 0 := by
  obtain ⟨p, out, hinit, hnth, -⟩ := pmmAlloc_exact ⟨[], 0, 0, 0⟩
    [.rsdp 0, .memmap smallMap] smallMap rfl smallMap_bootloaderMap
  refine ⟨p, out, hinit, ?_, ?_, ?_⟩ <;> rw [hnth] <;> decide

end FacelessOS
