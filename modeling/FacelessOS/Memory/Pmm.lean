import FacelessOS.Boot.Stivale2
import Mathlib.Data.List.Nodup
import Mathlib.Logic.Function.Iterate
import Mathlib.Tactic.Ring

/-!
# The physical memory manager (`pmm.c`)

The frame allocator keeps no free list of its own. It hands out the first page
of the first usable entry of the bootloader's memory map and advances that
entry in place, so the map itself is the allocator's state.
-/

namespace FacelessOS

structure Pmm where
  gmmap : List MmapEntry
  highestFrameTop : U64
  maxFrames : U64
  usedFrames : U64
deriving DecidableEq, Repr

def isUsable (entry : MmapEntry) : Bool :=
  entry.type = stivale2MmapUsable ∧ entry.length > 0

/-- The loop of `pmm_alloc`: take the first page of the first usable entry.
`none` when the loop runs off the end of the map. -/
def takeFrame : List MmapEntry → Option (U64 × List MmapEntry)
  | [] => none
  | entry :: rest =>
      if isUsable entry then
        some (entry.base, { entry with
          base := entry.base + 0x1000, length := entry.length - 0x1000 } :: rest)
      else (takeFrame rest).map fun (ret, rest') => (ret, entry :: rest')

/-- `pmm_alloc`; the pointer `0` is `NULL`. -/
def pmmAlloc (p : Pmm) : U64 × Pmm :=
  match takeFrame p.gmmap with
  | some (ret, gmmap) => (ret, { p with gmmap := gmmap })
  | none => (0, p)

def pmmInitEntry (p : Pmm) (entry : MmapEntry) : Pmm × List LogCall :=
  let line : LogCall := ⟨dbgCyan ++ "\t%x-%x | %x ",
    [entry.base, entry.base + entry.length, entry.length]⟩
  if entry.type ≠ stivale2MmapUsable ∨
      entry.type = stivale2MmapBootloaderReclaimable ∨
      entry.type = stivale2MmapKernelAndModules then
    (p, [line, ⟨dbgRed ++ "[Reserved]\n", []⟩])
  else
    let top := entry.base + entry.length
    let highest := if top > p.highestFrameTop then top else p.highestFrameTop
    let usedFrames := highest * 1024 / 0x1000
    ({ p with highestFrameTop := highest, usedFrames := usedFrames,
              maxFrames := usedFrames },
      [line, ⟨kinfo ++ "[Usable]\n", []⟩])

def pmmInitLoop : Pmm → List MmapEntry → Pmm × List LogCall
  | p, [] => (p, [])
  | p, entry :: rest =>
      let (p, out) := pmmInitEntry p entry
      let (p, out') := pmmInitLoop p rest
      (p, out ++ out')

/-- `pmm_init`: the allocator's state and the calls of `log`. `none` where the
code reads through the `NULL` that `get_tag` returned. -/
def pmmInit (p : Pmm) (ss : List Stivale2Tag) : Option (Pmm × List LogCall) :=
  match getTag ss stivale2StructTagMemmapId with
  | some (.memmap mmap) =>
      let (p, out) := pmmInitLoop { p with gmmap := mmap } mmap
      some (p, ⟨dbgYellow ++ "\n\n<mmap_start>\n", []⟩ :: out ++
        [⟨dbgYellow ++ "</mmap_end>\n\n", []⟩])
  | _ => none

theorem pmmInit_of_memmap {p : Pmm} {ss : List Stivale2Tag} {mmap : List MmapEntry}
    (h : getTag ss stivale2StructTagMemmapId = some (.memmap mmap)) :
    pmmInit p ss = some ((pmmInitLoop { p with gmmap := mmap } mmap).1,
      ⟨dbgYellow ++ "\n\n<mmap_start>\n", []⟩ ::
        (pmmInitLoop { p with gmmap := mmap } mmap).2 ++ [⟨dbgYellow ++ "</mmap_end>\n\n", []⟩]) := by
  rw [pmmInit, h]

theorem pmmInit_of_none {p : Pmm} {ss : List Stivale2Tag}
    (h : getTag ss stivale2StructTagMemmapId = none) : pmmInit p ss = none := by
  rw [pmmInit, h]

/-! ## The pages a memory map still holds -/

/-- The pages of an entry the allocator would hand out, in order. -/
def entryPages (entry : MmapEntry) : List U64 :=
  if entry.type = stivale2MmapUsable then
    (List.range (entry.length.toNat / pageSize)).map fun k =>
      entry.base + BitVec.ofNat 64 (pageSize * k)
  else []

/-- The pages of the usable entries, concatenated in map order. -/
def usablePages (mmap : List MmapEntry) : List U64 := mmap.flatMap entryPages

/-- Usable entries are whole numbers of pages long. -/
def PageMultiple (mmap : List MmapEntry) : Prop :=
  ∀ entry ∈ mmap, entry.type = stivale2MmapUsable → entry.length.toNat % pageSize = 0

/-- The allocator, called until it returns `NULL`, hands out exactly this list. -/
inductive HandsOut : List MmapEntry → List U64 → Prop where
  | done {mmap : List MmapEntry} : takeFrame mmap = none → HandsOut mmap []
  | page {mmap mmap' : List MmapEntry} {ret : U64} {rest : List U64} :
      takeFrame mmap = some (ret, mmap') → HandsOut mmap' rest →
      HandsOut mmap (ret :: rest)

theorem HandsOut.unique {mmap : List MmapEntry} {pages pages' : List U64}
    (h : HandsOut mmap pages) (h' : HandsOut mmap pages') : pages = pages' := by
  induction h generalizing pages' with
  | done hnone =>
      cases h' with
      | done _ => rfl
      | page hsome _ =>
          rw [hnone] at hsome
          exact absurd hsome (by simp)
  | page hsome _ ih =>
      cases h' with
      | done hnone =>
          rw [hsome] at hnone
          exact absurd hnone (by simp)
      | page hsome' hrest =>
          obtain ⟨rfl, rfl⟩ := Prod.mk.inj (Option.some.inj (hsome.symm.trans hsome'))
          rw [ih hrest]

theorem pmmAlloc_of_some {p : Pmm} {ret : U64} {mmap : List MmapEntry}
    (h : takeFrame p.gmmap = some (ret, mmap)) :
    pmmAlloc p = (ret, { p with gmmap := mmap }) := by
  rw [pmmAlloc, h]

theorem pmmAlloc_of_none {p : Pmm} (h : takeFrame p.gmmap = none) :
    pmmAlloc p = (0, p) := by
  rw [pmmAlloc, h]

theorem isUsable_iff {entry : MmapEntry} :
    isUsable entry = true ↔
      entry.type = stivale2MmapUsable ∧ 0 < entry.length.toNat := by
  simp [isUsable, BitVec.lt_def]

theorem entryPages_of_not_usable {entry : MmapEntry} (h : isUsable entry = false) :
    entryPages entry = [] := by
  by_cases ht : entry.type = stivale2MmapUsable
  · have hlen : ¬ 0 < entry.length.toNat := fun hpos => by
      rw [isUsable_iff.mpr ⟨ht, hpos⟩] at h
      exact Bool.noConfusion h
    obtain hzero : entry.length.toNat = 0 := by omega
    simp [entryPages, hzero]
  · simp [entryPages, ht]

theorem entryPages_advance {entry : MmapEntry} (hu : isUsable entry = true)
    (hm : entry.length.toNat % pageSize = 0) :
    entryPages entry = entry.base :: entryPages { entry with
      base := entry.base + 0x1000, length := entry.length - 0x1000 } ∧
    (entry.length - 0x1000#64).toNat % pageSize = 0 := by
  obtain ⟨ht, hpos⟩ := isUsable_iff.mp hu
  unfold pageSize at hm ⊢
  have hlt := entry.length.isLt
  have hlen : (entry.length - 0x1000#64).toNat = entry.length.toNat - 0x1000 := by
    rw [BitVec.toNat_sub_of_le (by rw [BitVec.le_def, BitVec.toNat_ofNat]; omega)]
    rfl
  refine ⟨?_, by rw [hlen]; omega⟩
  have hcount : entry.length.toNat / 0x1000 =
      (entry.length - 0x1000#64).toNat / 0x1000 + 1 := by rw [hlen]; omega
  have hpage : ∀ k : ℕ, entry.base + BitVec.ofNat 64 (0x1000 * (k + 1)) =
      entry.base + 0x1000#64 + BitVec.ofNat 64 (0x1000 * k) := by
    intro k
    rw [Nat.mul_add, Nat.mul_one, Nat.add_comm, BitVec.ofNat_add, BitVec.add_assoc]
  have hfirst : entry.base + BitVec.ofNat 64 (0x1000 * 0) = entry.base := by
    rw [Nat.mul_zero, BitVec.add_zero]
  simp only [entryPages, if_pos ht, pageSize, hcount, List.range_succ_eq_map,
    List.map_cons, List.map_map, hfirst]
  exact congrArg _ (List.map_congr_left fun k _ => hpage k)

theorem takeFrame_cases {mmap : List MmapEntry} (hm : PageMultiple mmap) :
    (takeFrame mmap = none ∧ usablePages mmap = []) ∨
    ∃ ret mmap', takeFrame mmap = some (ret, mmap') ∧ PageMultiple mmap' ∧
      usablePages mmap = ret :: usablePages mmap' := by
  induction mmap with
  | nil => exact Or.inl ⟨rfl, rfl⟩
  | cons entry rest ih =>
      have hrest : PageMultiple rest := fun e he => hm e (List.mem_cons_of_mem _ he)
      by_cases hu : isUsable entry = true
      · have ht := (isUsable_iff.mp hu).1
        obtain ⟨hpages, hlen⟩ :=
          entryPages_advance hu (hm entry List.mem_cons_self ht)
        refine Or.inr ⟨_, _, by rw [takeFrame, if_pos hu], ?_, ?_⟩
        · intro e he ht'
          rcases List.mem_cons.mp he with rfl | he
          · exact hlen
          · exact hrest e he ht'
        · simp only [usablePages, List.flatMap_cons, hpages, List.cons_append]
      · rw [Bool.not_eq_true] at hu
        have hnil := entryPages_of_not_usable hu
        rcases ih hrest with ⟨hnone, hp⟩ | ⟨ret, mmap', hsome, hm', hp⟩
        · refine Or.inl ⟨by simp [takeFrame, hu, hnone], ?_⟩
          simpa [usablePages, hnil] using hp
        · refine Or.inr ⟨ret, entry :: mmap', by simp [takeFrame, hu, hsome], ?_, ?_⟩
          · intro e he ht'
            rcases List.mem_cons.mp he with rfl | he
            · exact hm e List.mem_cons_self ht'
            · exact hm' e he ht'
          · simpa [usablePages, hnil] using hp

theorem handsOut_usablePages {mmap : List MmapEntry} (hm : PageMultiple mmap) :
    HandsOut mmap (usablePages mmap) := by
  generalize hp : usablePages mmap = pages
  induction pages generalizing mmap with
  | nil =>
      rcases takeFrame_cases hm with ⟨hnone, -⟩ | ⟨ret, mmap', -, -, hcons⟩
      · exact .done hnone
      · rw [hp] at hcons
        exact absurd hcons (by simp)
  | cons page pages ih =>
      rcases takeFrame_cases hm with ⟨-, hnil⟩ | ⟨ret, mmap', hsome, hm', hcons⟩
      · rw [hp] at hnil
        exact absurd hnil (by simp)
      · rw [hp] at hcons
        obtain ⟨rfl, htail⟩ := List.cons.inj hcons
        exact .page hsome (ih hm' htail.symm)

theorem takeFrame_reserved {mmap mmap' : List MmapEntry} {ret : U64}
    (h : takeFrame mmap = some (ret, mmap')) {i : ℕ} {entry : MmapEntry}
    (hi : mmap[i]? = some entry) (ht : entry.type ≠ stivale2MmapUsable) :
    mmap'[i]? = some entry := by
  induction mmap generalizing mmap' i with
  | nil => simp at hi
  | cons e rest ih =>
      rw [takeFrame] at h
      split at h
      · rename_i hu
        obtain ⟨rfl, rfl⟩ := Prod.mk.inj (Option.some.inj h)
        cases i with
        | zero =>
            obtain rfl := Option.some.inj hi
            exact absurd (isUsable_iff.mp hu).1 ht
        | succ i =>
            rw [List.getElem?_cons_succ] at hi ⊢
            exact hi
      · obtain ⟨⟨r, rest'⟩, hrest, heq⟩ := Option.map_eq_some_iff.mp h
        simp only [Prod.mk.injEq] at heq
        obtain ⟨rfl, rfl⟩ := heq
        cases i with
        | zero => exact hi
        | succ i =>
            rw [List.getElem?_cons_succ] at hi ⊢
            exact ih hrest hi

end FacelessOS
