import FacelessOS.Memory.Exhaustion
import FacelessOS.Memory.PageLifetime
import FacelessOS.Memory.TableFrames

/-!
# Page tables that map themselves

`vmm.c` edits the tables through pointers equal to their physical addresses, also those
frames that it has just taken and not yet mapped. With the tables loaded this works for
pages that are mapped to themselves. The bootloader maps all memory so, and the memory
functions keep it (`stores_land`): in every run whose `unmap_page` calls leave the pages of
tables and free frames alone, every byte they store is mapped to itself, and writable,
before the call begins.
-/

namespace FacelessOS

open ByteStore RadixTree Runs

/-- A store to the virtual address `x` is a store to the physical one. -/
def Lands (s : Vm) (x : U64) : Prop :=
  ∃ e, s.translate (pageOf x) = some e ∧ e &&& pageAddrMask = x &&& pageAddrMask ∧
    s.Allows pageBitRwWritable (pageOf x)

/-- This frame is a table, or one still to be handed out. -/
def TableOrFree (s : Vm) (f : U64) : Prop :=
  IsTable s f ∨ ∃ pool, HandsOut s.pmm.gmmap pool ∧ f ∈ pool

/-- Tables and free frames are mapped to themselves. -/
def TablesLand (s : Vm) : Prop := ∀ f, TableOrFree s f → Lands s f

/-- The condition on a step: `unmap_page` takes out no page of a table or a free frame. -/
def SparesFrames (s : Vm) (op : VmOp) : Prop := ∀ f, TableOrFree s f → ¬ op.Unmaps (pageOf f)

/-! ## Bytes of one frame -/

theorem tableIdx_of_within {f x : U64} (hf : PageAligned f) (hx : Within f pageSize x)
    {shift : ℕ} (hshift : 12 ≤ shift) : tableIdx x shift = tableIdx f shift := by
  obtain ⟨k, rfl⟩ := Nat.exists_eq_add_of_le hshift
  apply Fin.ext
  rw [tableIdx_val, tableIdx_val, pow_add, ← Nat.div_div_eq_div_mul,
    ← Nat.div_div_eq_div_mul]
  rw [within_frame hf] at hx
  rw [PageAligned] at hf
  unfold pageSize at hf hx
  have hpage : x.toNat / 2 ^ 12 = f.toNat / 2 ^ 12 := by omega
  rw [hpage]

theorem pageOf_of_within {f x : U64} (hf : PageAligned f) (hx : Within f pageSize x) :
    pageOf x = pageOf f := by
  have hidx := fun {shift : ℕ} (h : 12 ≤ shift) => tableIdx_of_within hf hx h
  unfold pageOf pml4Idx pdptIdx pdIdx ptIdx
  rw [hidx (by decide), hidx (by decide), hidx (by decide), hidx (by decide)]

theorem mask_of_within {f x : U64} (hf : PageAligned f) (hx : Within f pageSize x) :
    x &&& pageAddrMask = f &&& pageAddrMask := by
  rw [within_frame hf] at hx
  rw [PageAligned] at hf
  unfold pageSize at hf hx
  apply BitVec.eq_of_toNat_eq
  rw [toNat_pageAddrMask, toNat_pageAddrMask]
  have hpage : x.toNat / 0x1000 = f.toNat / 0x1000 := by omega
  rw [hpage]

theorem Lands.of_within {s : Vm} {f x : U64} (hf : PageAligned f) (hx : Within f pageSize x)
    (h : Lands s f) : Lands s x := by
  unfold Lands
  rwa [pageOf_of_within hf hx, mask_of_within hf hx]

/-! ## Where the stores of a call are -/

/-- The stores between the two states lie in tables of the second one. -/
def StoresIn (s s' : Vm) : Prop :=
  ∃ l, s'.trace = l ++ s.trace ∧ ∀ addr n, .stored addr n ∈ l →
    ∃ q t, q.length ≤ 3 ∧ s'.table q = some t ∧ ∀ x, Within addr n x → Within t pageSize x

namespace StoresIn

variable {s s' s'' : Vm}

theorem refl (s : Vm) : StoresIn s s :=
  ⟨[], rfl, fun _ _ hmem => absurd hmem List.not_mem_nil⟩

theorem trans (h : StoresIn s s') (h' : StoresIn s' s'')
    (hkeep : ∀ q t, q.length ≤ 3 → s'.table q = some t → s''.table q = some t) :
    StoresIn s s'' := by
  obtain ⟨l, hl, hin⟩ := h
  obtain ⟨l', hl', hin'⟩ := h'
  refine ⟨l' ++ l, by rw [hl', hl, List.append_assoc], fun addr n hmem => ?_⟩
  rcases List.mem_append.mp hmem with hmem | hmem
  · exact hin' addr n hmem
  · obtain ⟨q, t, hq, ht, hx⟩ := hin addr n hmem
    exact ⟨q, t, hq, hkeep q t hq ht, hx⟩

theorem setEntry {q : List (Fin 512)} {t : U64} {i : Fin 512} {e : U64} (hq : q.length ≤ 3)
    (ht : (s.setEntry t i e).table q = some t) (hta : PageAligned t) :
    StoresIn s (s.setEntry t i e) := by
  refine ⟨[.stored (Vm.entryAddr t i) 8], rfl, fun addr n hmem => ?_⟩
  obtain ⟨rfl, rfl⟩ := MemEvent.stored.inj (List.mem_singleton.mp hmem)
  exact ⟨q, t, hq, ht, fun x hx => within_frame_of_entry hta hx⟩

end StoresIn

def StoresSpec (recur : Vm → U64 → U32 → Option Vm) (fl : U32) : Prop :=
  ∀ (s : Vm) (pool : List U64) (a : U64) (s' : Vm), PageTree s pool →
    (∀ x, ClearPath s x) → recur s a fl = some s' → s'.nulls = s.nulls → StoresIn s s'

theorem nextTable_stores {recur : Vm → U64 → U32 → Option Vm} {fl : U32}
    (hrec : StoresSpec recur fl) (hspec : MapSpec recur fl)
    (hmono : ∀ {s a s'}, recur s a fl = some s' → s.trace <:+ s'.trace)
    (hfl : VmmFlags fl) (hpr : HasPresent fl) {s s' : Vm} {pool : List U64} {t t' : U64}
    {p : List (Fin 512)} {i : Fin 512} (h : PageTree s pool) (hclear : ∀ x, ClearPath s x)
    (hp : p.length < 3) (ht : s.table p = some t)
    (hnext : nextTable recur s t i fl = some (s', t')) (hnull : s'.nulls = s.nulls) :
    StoresIn s s' := by
  rcases nextTable_cases hnext with ⟨-, rfl, -⟩ | ⟨habs, hcall, -⟩
  · exact .refl _
  · cases hout : h.handsOut with
    | done hnone =>
        have hcount : (newTable s t i fl).2.nulls = s.nulls + 1 := by
          rw [Vm.nulls, newTable_trace, hnone]
          simp [Vm.nulls]
        have := Vm.nulls_le (hmono hcall)
        omega
    | @page _ gmmap f pool hsome hrest =>
        have hframe := h.pool_frame f List.mem_cons_self
        have hta := Vm.table_aligned h.root_aligned ht
        obtain ⟨hfst, hn⟩ : (newTable s t i fl).1 = f ∧ NewTable s t i fl f gmmap _ :=
          newTable_spec hsome hframe.aligned hta
        rw [hfst] at hcall
        have htree := hn.pageTree h hrest hp ht habs hfl hpr
        have hlink := hn.grown h hp ht habs hfl hpr
        have hcount : (newTable s t i fl).2.nulls = s.nulls := by
          rw [Vm.nulls, newTable_trace, hsome]
          simp [Vm.nulls]
        have hslot := hn.table h hp ht habs hfl hpr (p ++ [i]) (by simp; omega)
        rw [if_pos rfl] at hslot
        have hclear' : ∀ x, ClearPath (newTable s t i fl).2 x := fun x =>
          hlink.clearPath hfl (hclear x)
        -- the new table and the entry that points to it
        have hnew : StoresIn s (newTable s t i fl).2 := by
          refine ⟨[_, _, _, _], newTable_trace s t i fl, fun addr n hmem => ?_⟩
          simp only [List.mem_cons, MemEvent.stored.injEq, reduceCtorEq, List.not_mem_nil,
            or_false] at hmem
          rcases hmem with ⟨rfl, rfl⟩ | ⟨rfl, rfl⟩ | ⟨rfl, rfl⟩
          · exact ⟨p, t, by omega, (hlink.keep p t (by omega) ht).1,
              fun x hx => within_frame_of_entry hta hx⟩
          · exact ⟨p ++ [i], f, by simp; omega, hslot, fun x hx => by rwa [hfst] at hx⟩
          · exact ⟨p ++ [i], f, by simp; omega, hslot, fun x hx => by rwa [hfst] at hx⟩
        obtain ⟨used, rest, -, -, hgrown⟩ := hspec _ pool f s' htree (hclear' f) hcall
          (hnull.trans hcount.symm) fun g _ => hclear' g
        exact hnew.trans (hrec _ pool f s' htree hclear' hcall (hnull.trans hcount.symm))
          fun q u hq hu => (hgrown.keep q u hq hu).1

/-- **Every store of a call lies in a table of the state it leaves.** -/
theorem mapPage_stores (fuel : ℕ) {fl : U32} (hfl : VmmFlags fl) (hpr : HasPresent fl) :
    StoresSpec (mapPage fuel) fl := by
  induction fuel with
  | zero => intro s pool a s' _ _ h; exact absurd h (by simp [mapPage])
  | succ fuel ih =>
      intro s pool a s' h hclear hcall hnull
      obtain ⟨s₁, pdpt, s₂, pdt, s₃, pt, h₁, h₂, h₃, hend⟩ := mapPage_cases hcall
      rw [hpr.or_present] at h₁ h₂ h₃ hend
      have hspec := mapPage_spec fuel hfl hpr
      have hto₄ : s₃.trace <:+ s'.trace := by
        rcases hend with ⟨-, rfl⟩ | ⟨-, rfl⟩
        · exact List.suffix_refl _
        · exact List.suffix_cons _ _
      have hn₁ := Vm.nulls_le (nextTable_trace h₁)
      have hn₂ := Vm.nulls_le (nextTable_trace h₂)
      have hn₃ := Vm.nulls_le (nextTable_trace h₃)
      have hn₄ := Vm.nulls_le hto₄
      -- a level: its stores, and what the next one starts from
      have hlevel : ∀ {s s' : Vm} {t t' : U64} {p : List (Fin 512)} {i : Fin 512}
          {pool : List U64}, PageTree s pool → (∀ x, ClearPath s x) → NeedsTable a (p ++ [i]) →
          s.table p = some t → nextTable (mapPage fuel) s t i fl = some (s', t') →
          s'.nulls = s.nulls → StoresIn s s' ∧ s'.table (p ++ [i]) = some t' ∧
            (∃ pool', PageTree s' pool') ∧ (∀ x, ClearPath s' x) ∧
            ∀ q t, q.length ≤ 3 → s.table q = some t → s'.table q = some t := by
        intro s s' t t' p i pool h hclear hp ht hnext hnull
        have hlen := hp.length_le
        rw [List.length_append, List.length_singleton] at hlen
        obtain ⟨used, pool', -, htree, hgrown, htable⟩ := nextTable_grown hspec mapPage_trace
          hfl hpr h (by omega) ht (hclear a p i hp t ht) hnext hnull fun f _ => hclear f
        exact ⟨nextTable_stores ih hspec mapPage_trace hfl hpr h hclear (by omega) ht hnext
            hnull,
          htable, ⟨pool', htree⟩, fun x => hgrown.clearPath hfl (hclear x),
          fun q t hq ht => (hgrown.keep q t hq ht).1⟩
      obtain ⟨hin₁, table₁, ⟨pool₁, tree₁⟩, clear₁, -⟩ :=
        hlevel h hclear (p := []) ⟨[_, _], rfl⟩ rfl h₁ (by omega)
      obtain ⟨hin₂, table₂, ⟨pool₂, tree₂⟩, clear₂, keep₂⟩ :=
        hlevel tree₁ clear₁ (p := [pml4Idx a]) ⟨[_], rfl⟩ table₁ h₂ (by omega)
      obtain ⟨hin₃, table₃, ⟨pool₃, tree₃⟩, -, keep₃⟩ :=
        hlevel tree₂ clear₂ (p := [pml4Idx a, pdptIdx a]) ⟨[], rfl⟩ table₂ h₃ (by omega)
      have hin := (hin₁.trans hin₂ keep₂).trans hin₃ keep₃
      have table₃' : s₃.table (pageOf a).upper = some pt := table₃
      rcases hend with ⟨-, rfl⟩ | ⟨-, rfl⟩
      · exact hin
      · have htable := table_setLeaf tree₃ (Page.length_upper _) table₃' (ptIdx a)
          (mkEntry a fl)
        refine hin.trans (.setEntry (by simp) ((htable _ (by simp)).trans table₃')
          (Vm.table_aligned tree₃.root_aligned table₃')) fun q t hq ht => ?_
        exact (htable q hq).trans ht

/-! ## Steps and runs -/

section Step

variable {s s' : Vm} {op : VmOp} {pool : List U64} (hstep : VmStep s op s')
  (h : WellFormed s pool) (hpool : ∀ f ∈ pool, f.toNat < 2 ^ 52)

include hstep h hpool

/-- **One step** stores into tables of the state it leaves. -/
theorem VmStep.storesIn : StoresIn s s' := by
  have htree := h.pageTree hpool
  cases hstep with
  | @mapPage _ a fl _ hfl hcall hnull =>
      obtain ⟨fuel, hcall⟩ := hcall
      exact mapPage_stores fuel hfl.or_present (hasPresent_or fl) s pool a s' htree h.clearPath
        (by rw [mapPage_or_present]; exact hcall) hnull
  | @unmapPage a ha hup =>
      obtain ⟨pt, hpt⟩ := Option.isSome_iff_exists.mp hup
      rw [unmapPage_of_table ha hpt]
      split
      · refine .setEntry (by simp) ((table_setLeaf htree (Page.length_upper _) hpt _ _ _
          (by simp)).trans hpt) (Vm.table_aligned htree.root_aligned hpt)
      · exact .refl s

theorem VmStep.tableOrFree {f : U64} (hf : TableOrFree s' f) : TableOrFree s f := by
  obtain ⟨used, rest, rfl, hrest, hframes⟩ := hstep.takesInOrder pool h.handsOut
  have hused : s.newFrames s' = used := by
    rw [Vm.newFrames_of_append hframes, List.reverse_reverse]
  rcases hf with htable | ⟨pool', hout, hf⟩
  · rcases ((hstep.tablesGain h hpool).gain f).mp htable with hold | hnew
    · exact Or.inl hold
    · rw [hused] at hnew
      exact Or.inr ⟨_, h.handsOut, List.mem_append_left _ hnew⟩
  · rw [hout.unique hrest] at hf
    exact Or.inr ⟨_, h.handsOut, List.mem_append_right _ hf⟩

theorem VmStep.lands {f : U64} (hf : Lands s f) (hspare : ¬ op.Unmaps (pageOf f)) :
    Lands s' f := by
  obtain ⟨e, he, hmask, hallows⟩ := hf
  obtain ⟨he', hwalk⟩ := hstep.keeps_walk h hpool he hspare
  refine ⟨e, he', hmask, ?_⟩
  unfold Vm.Allows at hallows ⊢
  rwa [hwalk]

/-- Tables and free frames that are spared stay mapped to themselves. -/
theorem VmStep.tablesLand (hland : TablesLand s) (hspare : SparesFrames s op) :
    TablesLand s' := by
  intro f hf
  have hold := hstep.tableOrFree h hpool hf
  exact hstep.lands h hpool (hland f hold) (hspare f hold)

theorem VmStep.newStores_land (hland : TablesLand s) {addr : U64} {n : ℕ}
    (hmem : .stored addr n ∈ s.newEvents s') {x : U64} (hx : Within addr n x) : Lands s x := by
  obtain ⟨l, hl, hin⟩ := hstep.storesIn h hpool
  rw [Vm.newEvents_of_append hl] at hmem
  obtain ⟨q, t, hq, ht, hwithin⟩ := hin addr n hmem
  have hold := hstep.tableOrFree h hpool (Or.inl ⟨q, hq, ht⟩)
  obtain ⟨pool₂, -, hwf'⟩ := hstep.wellFormed h hpool
  exact (hland t hold).of_within (Vm.table_aligned hwf'.root_aligned ht) (hwithin x hx)

end Step

theorem tablesLand_run {s₀ s : Vm} {pool : List U64} {ops : List VmOp}
    (hrun : Run (Guarded SparesFrames VmStep) s₀ ops s) (h : WellFormed s₀ pool)
    (hpool : ∀ f ∈ pool, f.toNat < 2 ^ 52) (hland : TablesLand s₀) :
    ∃ rest, WellFormed s rest ∧ (∀ f ∈ rest, f.toNat < 2 ^ 52) ∧ TablesLand s :=
  hrun.guarded_invariant
    (P := fun s => ∃ rest, WellFormed s rest ∧ (∀ f ∈ rest, f.toNat < 2 ^ 52) ∧ TablesLand s)
    ⟨pool, h, hpool, hland⟩
    fun s op s' ⟨pool₁, hwf, hlow, hland⟩ hspare hstep => by
      obtain ⟨pool₂, hsuf, hwf'⟩ := hstep.wellFormed hwf hlow
      exact ⟨pool₂, hwf', fun f hf => hlow f (hsuf.mem hf),
        hstep.tablesLand hwf hlow hland hspare⟩

/-- **Every store lands where it is meant to.** In every run from tables and free frames
that are mapped to themselves, whose `unmap_page` calls spare them, they stay so; and
whatever call comes next, each byte it stores is mapped to itself before the call. -/
theorem stores_land {s₀ s s' : Vm} {pool : List U64} {ops : List VmOp} {op : VmOp}
    (h : WellFormed s₀ pool) (hpool : ∀ f ∈ pool, f.toNat < 2 ^ 52) (hland : TablesLand s₀)
    (hrun : Run (Guarded SparesFrames VmStep) s₀ ops s) (hstep : VmStep s op s') :
    TablesLand s ∧ ∀ addr n, .stored addr n ∈ s.newEvents s' →
      ∀ x, Within addr n x → Lands s x := by
  obtain ⟨pool₁, hwf, hlow, hland⟩ := tablesLand_run hrun h hpool hland
  exact ⟨hland, fun addr n hmem x hx => hstep.newStores_land hwf hlow hland hmem hx⟩

/-- A page that a call maps for writing, where its way allows that, is mapped to itself. -/
theorem Grown.lands {fl : U32} {used pages : List U64} {s s' : Vm} {x : U64}
    (h : Grown (fl ||| pageBitPPresent) used pages s s') (hfl : VmmFlags fl)
    (hlow : ∀ y ∈ pages, y.toNat < 2 ^ 47) (hx : x ∈ pages)
    (hold : s.translate (pageOf x) = none) (hwrite : fl &&& pageBitRwWritable ≠ 0#32)
    (hupper : UpperAllows s pageBitRwWritable x) : Lands s' x := by
  obtain ⟨e, he⟩ := Option.isSome_iff_exists.mp (h.mapped x hx)
  refine ⟨e, he, ?_, (h.allows_new hx hold List.mem_cons_self).mpr ⟨hwrite, hupper⟩⟩
  rcases h.translate_new he with hold' | ⟨y, hy, hyx, rfl⟩
  · rw [hold] at hold'
    exact absurd hold' (by simp)
  · have hlowx := hlow x hx
    have hlowy := hlow y hy
    rw [mkEntry_and_mask y hfl.or_present, mask_eq_of_pageOf_eq (by omega) (by omega) hyx]

/-- Two calls make tables that map themselves, the root among them. -/
theorem emptyVm_selfMapped : ∃ s pt, Run VmStep emptyVm
    [.mapPage 0x5000 pageBitRwWritable, .mapPage 0x1000 pageBitRwWritable] s ∧
    s.table (pageOf 0x6000).upper = some pt ∧ TablesLand s ∧ Lands s 0x5000 := by
  have hrun : (mapPage 6 emptyVm 0x5000 pageBitRwWritable).map
      (fun s => (s.nulls, emptyVm.newFrames s)) = some (0, [0x2000, 0x3000, 0x4000]) := by
    decide +kernel
  obtain ⟨s₁, hcall₁, heq⟩ := Option.map_eq_some_iff.mp hrun
  obtain ⟨hnull₁, hframes⟩ := Prod.mk.inj heq
  have hfl : VmmFlags pageBitRwWritable := by decide
  have hlow : ∀ f ∈ ([0x2000, 0x3000, 0x4000] : List U64), f.toNat < 2 ^ 52 := by simp
  have hstep₁ : VmStep emptyVm (.mapPage 0x5000 pageBitRwWritable) s₁ :=
    .mapPage (by decide) hfl ⟨6, hcall₁⟩ hnull₁
  obtain ⟨pool₁, hsuf, hwf₁⟩ := hstep₁.wellFormed emptyVm_wellFormed hlow
  obtain ⟨used, pool', hgrown₁, -, -, hmapped₁⟩ := emptyVm_grown hfl ⟨6, hcall₁⟩ hnull₁
  obtain rfl : used = [0x2000, 0x3000, 0x4000] := by rw [← hgrown₁.newFrames, hframes]
  have hupper₁ : ∀ b, UpperAllows s₁ pageBitRwWritable b := by
    intro b q i hpre t ht hp
    have hlen := hpre.length_le
    rw [List.length_append, List.length_singleton, Page.length_upper] at hlen
    rcases hgrown₁.entries q t i (by omega) ht hp with ⟨-, hold⟩ | ⟨x, hx, -⟩
    · rw [hold, emptyVm_entry] at hp
      exact absurd hp (by decide)
    · rw [hx]
      exact (hasBit_mkEntry List.mem_cons_self x).mpr (by decide)
  -- the second call finds all its tables
  obtain ⟨-, ⟨pt, hpt⟩, -⟩ := emptyVm_first hstep₁
  have hpt₁ : s₁.table (pageOf 0x1000).upper = some pt := hpt
  have hcall : MapsPage s₁ 0x1000 pageBitRwWritable _ := ⟨1, mapPage_of_table hpt₁ 0 _⟩
  have hnull := (hcall.frames_of_table hpt₁).1
  have hstep : VmStep s₁ (.mapPage 0x1000 pageBitRwWritable) _ :=
    .mapPage (by decide) hfl hcall hnull
  have hlow₁ : ∀ f ∈ pool₁, f.toNat < 2 ^ 52 := fun f hf => hlow f (hsuf.mem hf)
  obtain ⟨used, pool', -, hnew, -, hgrown⟩ := hwf₁.mapPage_grown hlow₁ hfl hcall hnull
  rw [newFrames_of_same (hcall.frames_of_table hpt₁).2] at hnew
  obtain rfl := hnew
  -- what the first call mapped
  have hkept : ∀ x ∈ ([0x5000, 0x2000, 0x3000, 0x4000] : List U64), Lands _ x := fun x hx =>
    hstep.lands hwf₁ hlow₁ (hgrown₁.lands hfl (by simp) hx (emptyVm_translate _) (by decide)
      (emptyVm_upperAllows _ _)) fun hno => hno
  refine ⟨_, pt, (Run.start.snoc hstep₁).snoc hstep, (hgrown.keep _ pt (by simp) hpt).1,
    fun f hf => ?_, hkept _ List.mem_cons_self⟩
  -- the tables are the root and the three frames there were
  rcases hstep₁.tableOrFree emptyVm_wellFormed hlow (hstep.tableOrFree hwf₁ hlow₁ hf) with
    ⟨q, -, hq⟩ | ⟨pool, hout, hf⟩
  · have hroot : f = 0x1000 := (emptyVm_table hq).2
    rw [hroot]
    have hnone : s₁.translate (pageOf 0x1000) = none := by
      by_contra hne
      rcases hmapped₁ _ hne with hpage | hpage | hpage | hpage <;> revert hpage <;> decide
    exact hgrown.lands hfl (by simp) List.mem_cons_self hnone (by decide) (hupper₁ _)
  · rw [hout.unique emptyVm_wellFormed.handsOut] at hf
    exact hkept f (List.mem_cons_of_mem _ hf)

theorem stores_land_emptyVm : ∃ s s', VmStep s (.mapPage 0x6000 pageBitRwWritable) s' ∧
    TablesLand s ∧ ∀ addr n, .stored addr n ∈ s.newEvents s' →
      ∀ x, Within addr n x → Lands s x := by
  obtain ⟨s, pt, hrun, hpt, hland, -⟩ := emptyVm_selfMapped
  have hlow : ∀ f ∈ ([0x2000, 0x3000, 0x4000] : List U64), f.toNat < 2 ^ 52 := by simp
  obtain ⟨pool, hsuf, hwf⟩ := wellFormed_run hrun emptyVm_wellFormed hlow
  have hcall : MapsPage s 0x6000 pageBitRwWritable _ := ⟨1, mapPage_of_table hpt 0 _⟩
  have hstep : VmStep s (.mapPage 0x6000 pageBitRwWritable) _ :=
    .mapPage (by decide) (by decide) hcall (hcall.frames_of_table hpt).1
  exact ⟨s, _, hstep,
    stores_land hwf (fun f hf => hlow f (hsuf.mem hf)) hland .start hstep⟩

end FacelessOS
