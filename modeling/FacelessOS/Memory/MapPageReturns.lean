import FacelessOS.Lib.SlotWalk
import FacelessOS.Memory.MapPage

/-!
# Calls of `map_page` return

While frames are left, every recursive call takes one. Once they are gone the recursion
asks for page 0 again and again, over memory in which `pmm_allocz` zeroes frame 0 each time
and enters it as a table. That frame may be any of the tables the walk goes through, so
that entries just set are lost again; but each call closes the gap its walk met, and after
at most eight of them there is none (`SlotWalk.closes`). So calls are nested at most ten
deeper than there are frames left (`mapPage_nesting`), if the root table lies on a page
boundary: the entries of another one may be lost each time they are set
(`offsetVm_unbounded`).
-/

namespace FacelessOS

open ByteStore

/-! ## More fuel -/

theorem nextTable_mono {recur recur' : Vm → U64 → U32 → Option Vm} {fl : U32}
    (hrec : ∀ {s a s'}, recur s a fl = some s' → recur' s a fl = some s') {s s' : Vm}
    {t t' : U64} {i : Fin 512} (h : nextTable recur s t i fl = some (s', t')) :
    nextTable recur' s t i fl = some (s', t') := by
  rw [nextTable] at h ⊢
  split
  · rename_i hp
    rwa [if_pos hp] at h
  · rename_i hp
    rw [if_neg hp] at h
    obtain ⟨u, hu, heq⟩ := Option.map_eq_some_iff.mp h
    exact Option.map_eq_some_iff.mpr ⟨u, hrec hu, heq⟩

theorem mapPage_succ {fuel : ℕ} {s s' : Vm} {a : U64} {fl : U32}
    (h : mapPage fuel s a fl = some s') : mapPage (fuel + 1) s a fl = some s' := by
  induction fuel generalizing s s' a fl with
  | zero => exact absurd h (by simp [mapPage])
  | succ fuel ih =>
      rw [mapPage] at h ⊢
      obtain ⟨⟨s₁, pdpt⟩, h₁, h⟩ := Option.bind_eq_some_iff.mp h
      obtain ⟨⟨s₂, pdt⟩, h₂, h⟩ := Option.bind_eq_some_iff.mp h
      obtain ⟨⟨s₃, pt⟩, h₃, h⟩ := Option.bind_eq_some_iff.mp h
      refine Option.bind_eq_some_iff.mpr ⟨(s₁, pdpt), nextTable_mono ih h₁, ?_⟩
      refine Option.bind_eq_some_iff.mpr ⟨(s₂, pdt), nextTable_mono ih h₂, ?_⟩
      exact Option.bind_eq_some_iff.mpr ⟨(s₃, pt), nextTable_mono ih h₃, h⟩

theorem mapPage_mono {fuel fuel' : ℕ} {s s' : Vm} {a : U64} {fl : U32}
    (h : mapPage fuel s a fl = some s') (hle : fuel ≤ fuel') :
    mapPage fuel' s a fl = some s' := by
  induction hle with
  | refl => exact h
  | step _ ih => exact mapPage_succ ih

theorem MapsPage.unique {s s₁ s₂ : Vm} {a : U64} {fl : U32} (h₁ : MapsPage s a fl s₁)
    (h₂ : MapsPage s a fl s₂) : s₁ = s₂ := by
  obtain ⟨fuel₁, h₁⟩ := h₁
  obtain ⟨fuel₂, h₂⟩ := h₂
  have hmore₁ := mapPage_mono h₁ (Nat.le_add_right fuel₁ fuel₂)
  have hmore₂ := mapPage_mono h₂ (Nat.le_add_left fuel₂ fuel₁)
  exact Option.some.inj (hmore₁.symm.trans hmore₂)

/-! ## Page 0 without frames -/

/-- The address of a `struct MappingTable` on a page boundary. Nothing makes the tables
lie on one: those of the walk do, since their entries are masked, and the root where the
value taken from `CR3` does. -/
abbrev MappingTable : Type := {t : U64 // PageAligned t}

def frameZero : MappingTable := ⟨0, by decide⟩

/-- The table, or the page, that entry 0 of a table leads to. -/
def Vm.slot (s : Vm) (t : MappingTable) : Option MappingTable :=
  if present (s.entry t 0) then some ⟨s.entry t 0 &&& pageAddrMask, pageAligned_mask _⟩
  else none

def enteredZero (fl : U32) : MappingTable :=
  ⟨mkEntry 0 fl &&& pageAddrMask, pageAligned_mask _⟩

theorem Vm.slot_eq_none {s : Vm} {t : MappingTable} :
    s.slot t = none ↔ present (s.entry t 0) = false := by
  unfold slot
  split
  · rename_i hp
    simp [hp]
  · rename_i hp
    simp [Bool.eq_false_iff.mpr hp]

theorem Vm.slot_eq_some {s : Vm} {t u : MappingTable} : s.slot t = some u ↔
    present (s.entry t 0) = true ∧ s.entry t 0 &&& pageAddrMask = u := by
  unfold slot
  split
  · rename_i hp
    simp [hp, Subtype.ext_iff]
  · rename_i hp
    simp [hp]

theorem Vm.slot_of_mkEntry {s : Vm} {t : MappingTable} {fl : U32} (hpr : HasPresent fl)
    (h : s.entry t 0 = mkEntry 0 fl) : s.slot t = some (enteredZero fl) := by
  rw [Vm.slot_eq_some, h]
  exact ⟨present_mkEntry hpr, rfl⟩

theorem slot_newTable {s : Vm} {fl : U32} (hpr : HasPresent fl)
    (hnone : takeFrame s.pmm.gmmap = none) (t : MappingTable) :
    (newTable s t 0 fl).1 = 0 ∧
      (newTable s t 0 fl).2.slot = SlotWalk.link frameZero (enteredZero fl) s.slot t := by
  have hfst : s.pmmAlloc.1 = 0 := by rw [Vm.pmmAlloc_of_none hnone]
  refine ⟨hfst, funext fun u => ?_⟩
  have halloc : PageAligned s.pmmAlloc.1 := by
    rw [hfst]
    decide
  have hentry := entry_newTable halloc t.2 u.2 0 0 fl
  rw [hfst] at hentry
  by_cases hut : u = t
  · subst hut
    rw [SlotWalk.link_self]
    exact Vm.slot_of_mkEntry hpr (by rw [hentry, if_pos ⟨rfl, rfl⟩])
  · have hne : ¬ (u.1 = t.1 ∧ (0 : Fin 512) = 0) := fun h => hut (Subtype.ext h.1)
    rw [if_neg hne] at hentry
    by_cases huz : u = frameZero
    · have hu0 : u.1 = 0 := congrArg Subtype.val huz
      rw [if_pos hu0] at hentry
      subst huz
      rw [SlotWalk.link, Function.update_of_ne hut, Function.update_self, Vm.slot_eq_none,
        hentry]
      exact present_zero
    · have hu0 : u.1 ≠ 0 := fun h => huz (Subtype.ext h)
      rw [if_neg hu0] at hentry
      rw [SlotWalk.link_of_ne hut huz, Vm.slot, Vm.slot]
      simp only [hentry]

def leafZero (fl : U32) (s : Vm) (t : U64) : Vm :=
  if present (s.entry t 0) then s else s.setEntry t 0 (mkEntry 0 fl)

/-- The rest of the walk for page 0: this many levels, and the leaf. -/
def descend (recur : Vm → U64 → U32 → Option Vm) (fl : U32) : ℕ → Vm → U64 → Option Vm
  | 0, s, t => some (leafZero fl s t)
  | k + 1, s, t => (nextTable recur s t 0 fl).bind fun r => descend recur fl k r.1 r.2

theorem mapPage_zero_eq {fl : U32} (hpr : HasPresent fl) (fuel : ℕ) (s : Vm) :
    mapPage (fuel + 1) s 0 fl = descend (mapPage fuel) fl 3 s s.pml4 := by
  rw [mapPage, hpr.or_present]
  have hidx : pml4Idx 0 = 0 ∧ pdptIdx 0 = 0 ∧ pdIdx 0 = 0 ∧ ptIdx 0 = 0 := by decide
  obtain ⟨h4, h3, h2, h1⟩ := hidx
  simp only [descend, leafZero, h4, h3, h2, h1]
  refine Option.bind_congr fun r₁ _ => Option.bind_congr fun r₂ _ =>
    Option.bind_congr fun r₃ _ => ?_
  split <;> rfl

section Levels

variable {recur : Vm → U64 → U32 → Option Vm} {fl : U32} {s s' : Vm} {k m : ℕ}
variable {t b : MappingTable}

theorem descend_of_walk (h : SlotWalk.walk s.slot k t = some b) :
    descend recur fl k s t = some (leafZero fl s b) := by
  induction k generalizing t with
  | zero =>
      obtain rfl := Option.some.inj h
      rfl
  | succ k ih =>
      obtain ⟨c, hc, h⟩ := Option.bind_eq_some_iff.mp h
      obtain ⟨hp, hcv⟩ := Vm.slot_eq_some.mp hc
      rw [descend, nextTable, if_pos hp, Option.bind_some, hcv]
      exact ih h

/-- At a gap the recursive call comes first. If it leaves the rest of the levels present,
then so does this one. -/
theorem descend_of_gap (hmk : m < k) (hwalk : SlotWalk.walk s.slot m t = some b)
    (hb : s.slot b = none)
    (hrec : recur (newTable s b 0 fl).2 (newTable s b 0 fl).1 fl = some s')
    (hrest : (SlotWalk.walk s'.slot (k - m) b).isSome) :
    ∃ u : MappingTable, descend recur fl k s t = some (leafZero fl s' u) := by
  induction m generalizing k t with
  | zero =>
      obtain rfl := Option.some.inj hwalk
      obtain ⟨k, rfl⟩ := Nat.exists_eq_add_of_lt hmk
      obtain ⟨u, hu⟩ := Option.isSome_iff_exists.mp hrest
      rw [Nat.zero_add, Nat.sub_zero] at hu
      obtain ⟨c, hc, hu⟩ := Option.bind_eq_some_iff.mp hu
      have habs : ¬ present (s.entry t 0) = true := by
        rw [Vm.slot_eq_none.mp hb]
        decide
      refine ⟨u, ?_⟩
      rw [Nat.zero_add, descend, nextTable, if_neg habs]
      simp only [hrec, Option.map_some, Option.bind_some, (Vm.slot_eq_some.mp hc).2]
      exact descend_of_walk hu
  | succ m ih =>
      obtain ⟨k, rfl⟩ : ∃ j, k = j + 1 := ⟨k - 1, by omega⟩
      obtain ⟨c, hc, hwalk⟩ := Option.bind_eq_some_iff.mp hwalk
      obtain ⟨hp, hcv⟩ := Vm.slot_eq_some.mp hc
      rw [Nat.add_sub_add_right] at hrest
      rw [descend, nextTable, if_pos hp, Option.bind_some, hcv]
      exact ih (by omega) hwalk hrest

end Levels

/-- What a call for page 0 leaves when there are no frames. -/
structure ZeroMapped (fl : U32) (root : MappingTable) (s s' : Vm) : Prop where
  levels : (SlotWalk.walk s'.slot 3 root).isSome
  kept : SlotWalk.Kept frameZero (enteredZero fl) s.slot s'.slot

section Exhausted

variable {fl : U32} (hpr : HasPresent fl)

include hpr

theorem zeroMapped_leaf {root t : MappingTable} {s s' : Vm} (h : ZeroMapped fl root s s') :
    ZeroMapped fl root s (leafZero fl s' t) := by
  unfold leafZero
  split
  · exact h
  · rename_i habs
    have hslot : (s'.setEntry t 0 (mkEntry 0 fl)).slot =
        Function.update s'.slot t (some (enteredZero fl)) := by
      funext u
      have hentry := Vm.entry_setEntry s' t.2 u.2 0 0 (mkEntry 0 fl)
      by_cases hut : u = t
      · subst hut
        rw [Function.update_self]
        exact Vm.slot_of_mkEntry hpr (by rw [hentry, if_pos ⟨rfl, rfl⟩])
      · rw [if_neg fun h => hut (Subtype.ext h.1)] at hentry
        rw [Function.update_of_ne hut, Vm.slot, Vm.slot]
        simp only [hentry]
    have hb : s'.slot t = none := Vm.slot_eq_none.mpr (Bool.eq_false_iff.mpr habs)
    obtain ⟨c, hc⟩ := Option.isSome_iff_exists.mp h.levels
    refine ⟨?_, by rw [hslot]; exact h.kept.trans (SlotWalk.kept_update hb)⟩
    rw [hslot, SlotWalk.walk_mono (fun u v hu => ?_) hc]
    · rfl
    · rwa [Function.update_of_ne (by rintro rfl; exact absurd (hb.symm.trans hu) (by simp))]

/-- A call takes as many calls inside it as it takes links to complete the levels. -/
theorem mapPage_zero_of_closes {k : ℕ} {root : MappingTable} {s : Vm} (hroot : s.pml4 = root)
    (hnone : takeFrame s.pmm.gmmap = none)
    (h : SlotWalk.Closes frameZero (enteredZero fl) 3 root k s.slot) :
    ∃ s', mapPage (k + 1) s 0 fl = some s' ∧ ZeroMapped fl root s s' := by
  generalize hslot : s.slot = slot at h
  induction h generalizing s with
  | complete hall =>
      subst hslot
      obtain ⟨b, hb⟩ := Option.isSome_iff_exists.mp hall
      rw [mapPage_zero_eq hpr, hroot]
      exact ⟨_, descend_of_walk hb, zeroMapped_leaf hpr ⟨hall, SlotWalk.Kept.refl _ _ _⟩⟩
  | @gap k m b slot hm hwalk hb _ ih =>
      subst hslot
      obtain ⟨hfst, hlink⟩ := slot_newTable hpr hnone b
      have hgmmap : takeFrame (newTable s b 0 fl).2.pmm.gmmap = none := by
        rw [gmmap_newTable, Vm.pmmAlloc_of_none hnone, hnone]
      have hpml4 : (newTable s b 0 fl).2.pml4 = root := hroot
      obtain ⟨s', hcall, hmapped⟩ := ih hpml4 hgmmap hlink
      have hkept := hmapped.kept
      rw [hlink] at hkept
      rw [← hfst] at hcall
      obtain ⟨u, hu⟩ := descend_of_gap hm hwalk hb hcall (hkept.rest hwalk hb hm hmapped.levels)
      rw [mapPage_zero_eq hpr, hroot]
      exact ⟨_, hu, zeroMapped_leaf hpr
        ⟨hmapped.levels, (SlotWalk.kept_link hb).trans hkept⟩⟩

theorem mapPage_zero_returns {s : Vm} (hroot : PageAligned s.pml4)
    (hnone : takeFrame s.pmm.gmmap = none) : ∃ s', mapPage 9 s 0 fl = some s' := by
  let root : MappingTable := ⟨s.pml4, hroot⟩
  have hpml4 : s.pml4 = root := rfl
  obtain ⟨s', hcall, -⟩ := mapPage_zero_of_closes hpr hpml4 hnone (SlotWalk.closes _ _ 3 _ _)
  exact ⟨s', hcall⟩

end Exhausted

/-! ## While frames are left -/

/-- A root table on a page boundary, and at most `n` frames still to be handed out. -/
def Ready (s : Vm) (n : ℕ) : Prop :=
  PageAligned s.pml4 ∧ ∃ pool, HandsOut s.pmm.gmmap pool ∧ pool.length ≤ n

theorem Ready.mono {s : Vm} {n m : ℕ} (h : Ready s n) (hle : n ≤ m) : Ready s m := by
  obtain ⟨hroot, pool, hout, hlen⟩ := h
  exact ⟨hroot, pool, hout, hlen.trans hle⟩

theorem ready_newTable {s : Vm} {n : ℕ} (h : Ready s n) (t : U64) (i : Fin 512) (fl : U32) :
    (takeFrame (newTable s t i fl).2.pmm.gmmap = none ∧ (newTable s t i fl).1 = 0 ∧
      Ready (newTable s t i fl).2 n) ∨ ∃ m < n, Ready (newTable s t i fl).2 m := by
  obtain ⟨hroot, pool, hout, hlen⟩ := h
  cases hout with
  | done hnone =>
      have hgmmap : (newTable s t i fl).2.pmm.gmmap = s.pmm.gmmap := by
        rw [gmmap_newTable, Vm.pmmAlloc_of_none hnone]
      refine Or.inl ⟨by rw [hgmmap, hnone], ?_, hroot, [], ?_, hlen⟩
      · rw [newTable_eq, Vm.pmmAlloc_of_none hnone]
      · rw [hgmmap]
        exact .done hnone
  | @page _ gmmap f rest hsome hrest =>
      refine Or.inr ⟨rest.length, hlen, hroot, rest, ?_, Nat.le_refl _⟩
      rw [gmmap_newTable, Vm.pmmAlloc_of_some hsome]
      exact hrest

theorem ready_mapPage {s s' : Vm} {n : ℕ} {fuel : ℕ} {a : U64} {fl : U32}
    (h : Ready s n) (hcall : mapPage fuel s a fl = some s') : Ready s' n := by
  refine mapPage_preserves (R := fun s s' => ∀ n, Ready s n → Ready s' n)
    (fun _ _ h => h) (fun _ _ _ h h' n hn => h' n (h n hn)) ?_ (fun _ _ _ _ _ h => h)
    fuel hcall n h
  intro s t i fl n h
  rcases ready_newTable h t i fl with ⟨-, -, hready⟩ | ⟨m, hm, hready⟩
  · exact hready
  · exact hready.mono (by omega)

theorem nextTable_returns {n fuel : ℕ} {fl : U32} (hpr : HasPresent fl) (hfuel : 9 ≤ fuel)
    (ih : ∀ m < n, ∀ s a, Ready s m → ∃ s', mapPage fuel s a fl = some s') {s : Vm}
    (h : Ready s n) (t : U64) (i : Fin 512) :
    ∃ s' t', nextTable (mapPage fuel) s t i fl = some (s', t') ∧ Ready s' n := by
  by_cases hp : present (s.entry t i) = true
  · exact ⟨s, _, by rw [nextTable, if_pos hp], h⟩
  · have hrec : ∃ s', mapPage fuel (newTable s t i fl).2 (newTable s t i fl).1 fl =
        some s' := by
      rcases ready_newTable h t i fl with ⟨hnone, hfst, hready⟩ | ⟨m, hm, hready⟩
      · rw [hfst]
        obtain ⟨s', hcall⟩ := mapPage_zero_returns hpr hready.1 hnone
        exact ⟨s', mapPage_mono hcall hfuel⟩
      · exact ih m hm _ _ hready
    have hready : Ready (newTable s t i fl).2 n := by
      rcases ready_newTable h t i fl with ⟨-, -, hready⟩ | ⟨m, hm, hready⟩
      · exact hready
      · exact hready.mono (by omega)
    obtain ⟨s', hcall⟩ := hrec
    refine ⟨s', s'.entry t i &&& pageAddrMask, ?_, ready_mapPage hready hcall⟩
    rw [nextTable, if_neg hp]
    exact Option.map_eq_some_iff.mpr ⟨s', hcall, rfl⟩

/-- Every call of `map_page` returns, nested at most ten calls deeper than frames are left. -/
theorem mapPage_of_ready (n : ℕ) {s : Vm} (h : Ready s n) (a : U64) (fl : U32) :
    ∃ s', mapPage (n + 10) s a fl = some s' := by
  induction n using Nat.strongRecOn generalizing s a fl with
  | ind n ih =>
      have hpr := hasPresent_or fl
      have hless : ∀ m < n, ∀ s a, Ready s m →
          ∃ s', mapPage (n + 9) s a (fl ||| pageBitPPresent) = some s' := by
        intro m hm s a h
        obtain ⟨s', hcall⟩ := ih m hm h a (fl ||| pageBitPPresent)
        exact ⟨s', mapPage_mono hcall (by omega)⟩
      have hlevel := fun {s} (h : Ready s n) => nextTable_returns hpr (by omega) hless h
      obtain ⟨s₁, pdpt, h₁, hr₁⟩ := hlevel h s.pml4 (pml4Idx a)
      obtain ⟨s₂, pdt, h₂, hr₂⟩ := hlevel hr₁ pdpt (pdptIdx a)
      obtain ⟨s₃, pt, h₃, -⟩ := hlevel hr₂ pdt (pdIdx a)
      exact ⟨_, mapPage_of_levels h₁ h₂ h₃⟩

/-- **`map_page` returns** from a root table on a page boundary: over any memory and any
memory map of whole pages its calls are nested at most ten deeper than there are frames to
hand out. -/
theorem mapPage_nesting {s : Vm} (hroot : PageAligned s.pml4)
    (hm : PageMultiple s.pmm.gmmap) (a : U64) (fl : U32) :
    ∃ pool s', HandsOut s.pmm.gmmap pool ∧ mapPage (pool.length + 10) s a fl = some s' := by
  have hout := handsOut_usablePages hm
  obtain ⟨s', hcall⟩ := mapPage_of_ready _ ⟨hroot, _, hout, Nat.le_refl _⟩ a fl
  exact ⟨_, s', hout, hcall⟩

def bareVm : Vm where
  mem := fun _ => 0
  pml4 := 0
  cr3 := 0
  pmm := ⟨[], 0, 0, 0⟩
  trace := []

theorem mapPage_nesting_bareVm : ∃ pool s', HandsOut bareVm.pmm.gmmap pool ∧
    mapPage (pool.length + 10) bareVm 0x5000 pageBitRwWritable = some s' :=
  mapPage_nesting (by decide) (fun e he => absurd he List.not_mem_nil) _ _

/-! A root table that is not on a page boundary, at address 8: its entry 0 is entry 1 of
frame 0. -/

/-- No frames are left, and of the two entries that a walk for page 0 meets first one is
absent: the root's, or the one of frame 0 that it leads to. -/
structure Alternates (s : Vm) : Prop where
  pml4 : s.pml4 = 8
  exhausted : takeFrame s.pmm.gmmap = none
  gap : present (s.entry 8 0) = false ∨
    s.entry 8 0 = mkEntry 0 pageBitPPresent ∧ present (s.entry 0 0) = false

/-- The table made for one of the two is frame 0, which zeroes the other. -/
theorem entry_newTable_zero {s : Vm} (hnone : takeFrame s.pmm.gmmap = none) {t u : U64}
    (hu : ∀ x, Within (Vm.entryAddr u 0) 8 x → Within 0 pageSize x)
    (htu : Apart (Vm.entryAddr t 0) 8 (Vm.entryAddr u 0) 8) (fl : U32) :
    (newTable s t 0 fl).1 = 0 ∧
      (newTable s t 0 fl).2.entry t 0 = mkEntry 0 fl ∧
      (newTable s t 0 fl).2.entry u 0 = 0 := by
  rw [newTable_eq, Vm.pmmAlloc_of_none hnone]
  refine ⟨rfl, load64_store64 _ _ _ (by decide), ?_⟩
  exact (load64_store64_apart htu).trans (load64_fill_zero hu)

theorem nextTable_eq_none {recur : Vm → U64 → U32 → Option Vm} {s : Vm} {t : U64} {i : Fin 512}
    {fl : U32} (habs : present (s.entry t i) = false)
    (hrec : recur (newTable s t i fl).2 (newTable s t i fl).1 fl = none) :
    nextTable recur s t i fl = none := by
  rw [nextTable, if_neg (Bool.eq_false_iff.mp habs)]
  simp only [hrec, Option.map_none]

/-- Such a call leaves the same state with the other entry absent, and none comes to an end. -/
theorem mapPage_of_alternates (fuel : ℕ) {s : Vm} (h : Alternates s) :
    mapPage fuel s 0 pageBitPPresent = none := by
  have hapart : Apart (Vm.entryAddr 0 0) 8 (Vm.entryAddr 8 0) 8 :=
    apart_of_le (by decide) (by decide)
  have hinside : ∀ x, Within (Vm.entryAddr 8 0) 8 x → Within 0 pageSize x := by
    intro x hx
    rw [within_iff (by decide)] at hx ⊢
    rw [show (Vm.entryAddr 8 0).toNat = 8 by decide] at hx
    rw [show (0 : U64).toNat = 0 by rfl, pageSize]
    omega
  have hpr : HasPresent pageBitPPresent := hasPresent_or 0
  induction fuel generalizing s with
  | zero => rfl
  | succ fuel ih =>
      have hkept : ∀ t, takeFrame (newTable s t 0 pageBitPPresent).2.pmm.gmmap = none := by
        intro t
        rw [gmmap_newTable, Vm.pmmAlloc_of_none h.exhausted, h.exhausted]
      rw [mapPage_zero_eq hpr, h.pml4, descend]
      rcases h.gap with hroot | ⟨hroot, hnext⟩
      · obtain ⟨hfst, hentered, hlost⟩ := entry_newTable_zero h.exhausted
          (t := 8) (u := 0) (fun x hx => Nat.lt_of_lt_of_le hx (by decide)) hapart.symm
          pageBitPPresent
        have hother : Alternates (newTable s 8 0 pageBitPPresent).2 :=
          ⟨h.pml4, hkept _, Or.inr ⟨hentered, by rw [hlost]; rfl⟩⟩
        rw [nextTable_eq_none hroot (by rw [hfst, ih hother]), Option.bind_none]
      · have hzero : s.entry 8 0 &&& pageAddrMask = 0 := by
          rw [hroot]
          decide
        obtain ⟨hfst, hentered, hlost⟩ := entry_newTable_zero h.exhausted
          (t := 0) (u := 8) hinside hapart pageBitPPresent
        have hother : Alternates (newTable s 0 0 pageBitPPresent).2 :=
          ⟨h.pml4, hkept _, Or.inl (by rw [hlost]; rfl)⟩
        rw [nextTable, if_pos (by rw [hroot]; decide), Option.bind_some, hzero, descend,
          nextTable_eq_none hnext (by rw [hfst, ih hother]), Option.bind_none]

def offsetVm : Vm := { bareVm with pml4 := 8 }

theorem offsetVm_unbounded : ¬ ∃ c, ∀ (s : Vm) (pool : List U64) (a : U64) (fl : U32),
    PageMultiple s.pmm.gmmap → HandsOut s.pmm.gmmap pool →
      ∃ s', mapPage (pool.length + c) s a fl = some s' := by
  rintro ⟨c, hclaim⟩
  obtain ⟨s', hcall⟩ := hclaim offsetVm [] 0 pageBitPPresent
    (fun e he => absurd he List.not_mem_nil) (.done rfl)
  have hentry : offsetVm.entry 8 0 = 0 := load64_zero _
  have hstart : Alternates offsetVm := ⟨rfl, rfl, Or.inl (by rw [hentry]; rfl)⟩
  rw [mapPage_of_alternates _ hstart] at hcall
  exact absurd hcall (by simp)

theorem mapPage_returns {s : Vm} {pool : List U64} (hroot : PageAligned s.pml4)
    (hout : HandsOut s.pmm.gmmap pool) (fl : U32) (a : U64) : ∃ s', MapsPage s a fl s' := by
  obtain ⟨s', hcall⟩ := mapPage_of_ready pool.length ⟨hroot, pool, hout, Nat.le_refl _⟩ a fl
  exact ⟨s', _, hcall⟩

end FacelessOS
