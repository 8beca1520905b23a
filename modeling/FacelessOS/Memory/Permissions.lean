import FacelessOS.Memory.AddressSpace

/-!
# Permissions

A page can be written, or reached from user mode, if all four entries on its walk say so.
`map_page` puts its flags into the entries it makes and leaves those alone that are
present already, so a fresh page gets what was asked for exactly where the entries found
on its way allow it (`freshPermissions_iff`).
-/

namespace FacelessOS

open ByteStore RadixTree Runs

/-! ## The entries of a walk -/

def Page.indices (v : Page) : List (Fin 512) := [v.i4, v.i3, v.i2, v.i1]

/-- The entries that the processor reads to translate a page. -/
def Vm.walk (s : Vm) (v : Page) : List U64 :=
  let e4 := s.entry s.pml4 v.i4
  let e3 := s.entry (e4 &&& pageAddrMask) v.i3
  let e2 := s.entry (e3 &&& pageAddrMask) v.i2
  [e4, e3, e2, s.entry (e2 &&& pageAddrMask) v.i1]

def hasBit (bit : U32) (entry : U64) : Bool := entry &&& bit.setWidth 64 ≠ 0#64

/-- Every entry on the walk of a page has this bit. -/
def Vm.Allows (s : Vm) (bit : U32) (v : Page) : Prop := ∀ e ∈ s.walk v, hasBit bit e

instance (s : Vm) (bit : U32) (v : Page) : Decidable (s.Allows bit v) :=
  inferInstanceAs (Decidable (∀ e ∈ s.walk v, _))

/-- The entries already present on the way to the page table of an address have this
bit. -/
def UpperAllows (s : Vm) (bit : U32) (a : U64) : Prop :=
  ∀ (q : List (Fin 512)) (i : Fin 512), q ++ [i] <+: (pageOf a).upper →
    ∀ t, s.table q = some t → present (s.entry t i) → hasBit bit (s.entry t i)

theorem prefix_indices {v : Page} {q : List (Fin 512)} {i : Fin 512}
    (h : q ++ [i] <+: v.indices) :
    (q = [] ∧ i = v.i4) ∨ (q = [v.i4] ∧ i = v.i3) ∨ (q = [v.i4, v.i3] ∧ i = v.i2) ∨
      (q = v.upper ∧ i = v.i1) := by
  unfold Page.indices at h
  rcases q with _ | ⟨j4, _ | ⟨j3, _ | ⟨j2, _ | ⟨j1, q⟩⟩⟩⟩
  · simp_all
  · simp_all
  · simp_all
  · simp_all [Page.upper]
  · have hlen := h.length_le
    simp only [List.length_append, List.length_cons, List.length_nil] at hlen
    omega

theorem prefix_indices_of_upper {v : Page} {q : List (Fin 512)} (h : q <+: v.upper) :
    q <+: v.indices :=
  h.trans ⟨[v.i1], rfl⟩

namespace Vm

variable {s : Vm} {v : Page} {pt : U64}

theorem walk_of_table (hpt : s.table v.upper = some pt) : ∃ pdpt pdt,
    s.table [v.i4] = some pdpt ∧ s.table [v.i4, v.i3] = some pdt ∧
    s.walk v = [s.entry s.pml4 v.i4, s.entry pdpt v.i3, s.entry pdt v.i2,
      s.entry pt v.i1] := by
  obtain ⟨pdt, hpdt, h2⟩ := table_snoc_some (q := [v.i4, v.i3]).mp hpt
  obtain ⟨pdpt, hpdpt, h3⟩ := table_snoc_some (q := [v.i4]).mp hpdt
  obtain ⟨root, hroot, h4⟩ := table_snoc_some (q := []).mp hpdpt
  obtain rfl : s.pml4 = root := Option.some.inj hroot
  refine ⟨pdpt, pdt, hpdpt, hpdt, ?_⟩
  simp only [walk, (tableOf_eq_some.mp h4).2.2, (tableOf_eq_some.mp h3).2.2,
    (tableOf_eq_some.mp h2).2.2]

theorem allows_iff (hpt : s.table v.upper = some pt) {bit : U32} : s.Allows bit v ↔
    ∀ (q : List (Fin 512)) (i : Fin 512), q ++ [i] <+: v.indices →
      ∀ t, s.table q = some t → hasBit bit (s.entry t i) := by
  obtain ⟨pdpt, pdt, hpdpt, hpdt, hwalk⟩ := walk_of_table hpt
  unfold Allows
  rw [hwalk]
  constructor
  · intro h q i hpre t ht
    rcases prefix_indices hpre with ⟨rfl, rfl⟩ | ⟨rfl, rfl⟩ | ⟨rfl, rfl⟩ | ⟨rfl, rfl⟩
    · obtain rfl := Option.some.inj ht
      exact h _ (by simp)
    · obtain rfl := Option.some.inj (hpdpt.symm.trans ht)
      exact h _ (by simp)
    · obtain rfl := Option.some.inj (hpdt.symm.trans ht)
      exact h _ (by simp)
    · obtain rfl := Option.some.inj (hpt.symm.trans ht)
      exact h _ (by simp)
  · intro h e he
    simp only [List.mem_cons, List.not_mem_nil, or_false] at he
    rcases he with rfl | rfl | rfl | rfl
    · exact h [] v.i4 ⟨[v.i3, v.i2, v.i1], rfl⟩ _ rfl
    · exact h [v.i4] v.i3 ⟨[v.i2, v.i1], rfl⟩ _ hpdpt
    · exact h [v.i4, v.i3] v.i2 ⟨[v.i1], rfl⟩ _ hpdt
    · exact h v.upper v.i1 ⟨[], rfl⟩ _ hpt

theorem present_of_translate {e : U64} (he : s.translate v = some e) {q : List (Fin 512)}
    {i : Fin 512} (hpre : q ++ [i] <+: v.indices) : ∃ t, q.length ≤ 3 ∧
      s.table q = some t ∧ present (s.entry t i) = true := by
  obtain ⟨pt, hpt, rfl, hp⟩ := translate_eq_some.mp he
  obtain ⟨pdt, hpdt, h2⟩ := table_snoc_some (q := [v.i4, v.i3]).mp hpt
  obtain ⟨pdpt, hpdpt, h3⟩ := table_snoc_some (q := [v.i4]).mp hpdt
  obtain ⟨root, hroot, h4⟩ := table_snoc_some (q := []).mp hpdpt
  rcases prefix_indices hpre with ⟨rfl, rfl⟩ | ⟨rfl, rfl⟩ | ⟨rfl, rfl⟩ | ⟨rfl, rfl⟩
  · exact ⟨root, by simp, hroot, (tableOf_eq_some.mp h4).1⟩
  · exact ⟨pdpt, by simp, hpdpt, (tableOf_eq_some.mp h3).1⟩
  · exact ⟨pdt, by simp, hpdt, (tableOf_eq_some.mp h2).1⟩
  · exact ⟨pt, by simp, hpt, hp⟩

end Vm

theorem PageTree.allows_of_mem {s s' : Vm} {pool : List U64} (h : PageTree s pool)
    (htable : ∀ q : List (Fin 512), q.length ≤ 3 → s'.table q = s.table q)
    (hmem : ∀ q t, q.length ≤ 3 → s.table q = some t →
      ∀ x, Within t pageSize x → s'.mem x = s.mem x) {bit : U32} {v : Page} {e : U64}
    (he : s.translate v = some e) : s'.Allows bit v ↔ s.Allows bit v := by
  obtain ⟨pt, hpt, -⟩ := Vm.translate_eq_some.mp he
  rw [Vm.allows_iff hpt, Vm.allows_iff ((htable _ (by simp)).trans hpt)]
  refine forall_congr' fun q => forall_congr' fun i => forall_congr' fun hpre => ?_
  obtain ⟨-, hq, -⟩ := Vm.present_of_translate he hpre
  rw [htable q hq]
  refine forall_congr' fun t => forall_congr' fun ht => ?_
  rw [h.entry_of_mem hmem hq ht]

/-! ## The flags of an entry -/

def permissionBits : List U32 := [pageBitRwWritable, pageBitUsUser]

theorem hasBit_mkEntry {bit fl : U32} (hbit : bit ∈ permissionBits) (x : U64) :
    hasBit bit (mkEntry x (fl ||| pageBitPPresent)) = true ↔ fl &&& bit ≠ 0#32 := by
  have hbits : pageAddrMask &&& bit.setWidth 64 = 0#64 ∧ pageBitPPresent &&& bit = 0#32 ∧
      bit.toNat < 2 ^ 32 := by
    simp only [permissionBits, List.mem_cons, List.not_mem_nil, or_false] at hbit
    rcases hbit with rfl | rfl <;> decide
  have hentry : mkEntry x (fl ||| pageBitPPresent) &&& bit.setWidth 64 =
      (fl &&& bit).setWidth 64 := by
    rw [mkEntry, BitVec.and_or_distrib_right, BitVec.and_assoc, hbits.1, BitVec.and_zero,
      BitVec.zero_or, ← BitVec.setWidth_and, BitVec.and_or_distrib_right, hbits.2.1,
      BitVec.or_zero]
  rw [hasBit, decide_eq_true_eq, hentry, not_iff_not]
  constructor
  · intro h
    apply BitVec.eq_of_toNat_eq
    have hnat := congrArg BitVec.toNat h
    rwa [BitVec.toNat_setWidth_of_le (by decide)] at hnat
  · intro h
    rw [h]
    rfl

theorem mkEntry_and_mask (x : U64) {fl : U32} (hfl : VmmFlags fl) :
    mkEntry x fl &&& pageAddrMask = x &&& pageAddrMask := by
  rw [mkEntry, BitVec.and_or_distrib_right, BitVec.and_assoc, BitVec.and_self,
    hfl.and_eq_zero (by rfl), BitVec.or_zero]

/-! ## One call -/

namespace Grown

variable {fl bit : U32} {used pages : List U64} {s s' : Vm}

/-- A page that was mapped keeps its permissions. -/
theorem allows_old (h : Grown fl used pages s s') {v : Page} {e : U64}
    (he : s.translate v = some e) : s'.Allows bit v ↔ s.Allows bit v := by
  obtain ⟨pt, hpt, -⟩ := Vm.translate_eq_some.mp he
  obtain ⟨pt', hpt', -⟩ := Vm.translate_eq_some.mp (h.translate_keep he)
  rw [Vm.allows_iff hpt, Vm.allows_iff hpt']
  have hlevel : ∀ q i, q ++ [i] <+: v.indices → ∃ t, s.table q = some t ∧
      s'.table q = some t ∧ s'.entry t i = s.entry t i := by
    intro q i hpre
    obtain ⟨t, hlen, ht, hp⟩ := Vm.present_of_translate he hpre
    obtain ⟨ht', hkeep⟩ := h.keep q t hlen ht
    exact ⟨t, ht, ht', hkeep i hp⟩
  constructor
  · intro hall q i hpre t ht
    obtain ⟨u, hu, hu', heq⟩ := hlevel q i hpre
    obtain rfl := Option.some.inj (ht.symm.trans hu)
    rw [← heq]
    exact hall q i hpre t hu'
  · intro hall q i hpre t ht
    obtain ⟨u, hu, hu', heq⟩ := hlevel q i hpre
    obtain rfl := Option.some.inj (ht.symm.trans hu')
    rw [heq]
    exact hall q i hpre t hu

/-- A page that becomes mapped gets the permissions of the flags, as far as the entries found
on its way have them. -/
theorem allows_new (h : Grown (fl ||| pageBitPPresent) used pages s s') {x : U64}
    (hx : x ∈ pages) (hold : s.translate (pageOf x) = none) (hbit : bit ∈ permissionBits) :
    s'.Allows bit (pageOf x) ↔ fl &&& bit ≠ 0#32 ∧ UpperAllows s bit x := by
  obtain ⟨e, he⟩ := Option.isSome_iff_exists.mp (h.mapped x hx)
  obtain ⟨pt, hpt, hleaf, hp⟩ := Vm.translate_eq_some.mp he
  rw [Vm.allows_iff hpt]
  constructor
  · intro hall
    constructor
    · rcases h.translate_new he with hold' | ⟨y, -, -, rfl⟩
      · rw [hold] at hold'
        exact absurd hold' (by simp)
      · have hbitleaf := hall (pageOf x).upper (pageOf x).i1 (List.prefix_refl _) pt hpt
        rw [hleaf] at hbitleaf
        exact (hasBit_mkEntry hbit y).mp hbitleaf
    · intro q i hpre t ht hpt
      have hlen := hpre.length_le
      rw [List.length_append, List.length_singleton, Page.length_upper] at hlen
      obtain ⟨ht', hkeep⟩ := h.keep q t (by omega) ht
      rw [← hkeep i hpt]
      exact hall q i (prefix_indices_of_upper hpre) t ht'
  · rintro ⟨hfl, hupper⟩ q i hpre t ht
    obtain ⟨u, hlen, hu, hpres⟩ := Vm.present_of_translate he hpre
    obtain rfl := Option.some.inj (ht.symm.trans hu)
    rcases h.entries q t i hlen ht hpres with ⟨hu, heq⟩ | ⟨y, hy, -⟩
    · rw [heq] at hpres ⊢
      rcases prefix_indices hpre with ⟨rfl, rfl⟩ | ⟨rfl, rfl⟩ | ⟨rfl, rfl⟩ | ⟨rfl, rfl⟩
      · exact hupper [] _ ⟨[_, _], rfl⟩ t hu hpres
      · exact hupper [_] _ ⟨[_], rfl⟩ t hu hpres
      · exact hupper [_, _] _ ⟨[], rfl⟩ t hu hpres
      · -- an old leaf would have mapped the page
        rw [Vm.translate_eq_some.mpr ⟨t, hu, rfl, hpres⟩] at hold
        exact absurd hold (by simp)
    · rw [hy]
      exact (hasBit_mkEntry hbit y).mpr hfl

/-- **The pages that get a permission**: those that had it, and of the pages mapped
those that were not, if the flags and the entries found on their way have it. -/
theorem permitted_iff (h : Grown (fl ||| pageBitPPresent) used pages s s')
    (hbit : bit ∈ permissionBits) (v : Page) :
    ((s'.translate v).isSome = true ∧ s'.Allows bit v) ↔
      ((s.translate v).isSome = true ∧ s.Allows bit v) ∨
      ∃ x ∈ pages, pageOf x = v ∧ fl &&& bit ≠ 0#32 ∧ s.translate (pageOf x) = none ∧
        UpperAllows s bit x := by
  cases hold : s.translate v with
  | some e =>
      -- a page that was mapped is as before
      rw [h.translate_keep hold, h.allows_old hold]
      constructor
      · exact fun hpage => Or.inl hpage
      · rintro (hpage | ⟨x, -, rfl, -, hnone, -⟩)
        · exact hpage
        · rw [hold] at hnone
          exact absurd hnone (by simp)
  | none =>
      constructor
      · rintro ⟨hsome, hallows⟩
        obtain ⟨e, he⟩ := Option.isSome_iff_exists.mp hsome
        rcases h.translate_new he with hold' | ⟨x, hx, rfl, -⟩
        · rw [hold] at hold'
          exact absurd hold' (by simp)
        · obtain ⟨hfl, hupper⟩ := (h.allows_new hx hold hbit).mp hallows
          exact Or.inr ⟨x, hx, rfl, hfl, hold, hupper⟩
      · rintro (⟨hsome, -⟩ | ⟨x, hx, rfl, hfl, -, hupper⟩)
        · exact absurd hsome (by simp)
        · exact ⟨h.mapped x hx, (h.allows_new hx hold hbit).mpr ⟨hfl, hupper⟩⟩

end Grown

theorem WellFormed.mapPage_grown {s s' : Vm} {pool : List U64} {a : U64} {fl : U32}
    (h : WellFormed s pool) (hpool : ∀ f ∈ pool, f.toNat < 2 ^ 52) (hfl : VmmFlags fl)
    (hcall : MapsPage s a fl s') (hnull : s'.nulls = s.nulls) :
    ∃ used pool', pool = used ++ pool' ∧ s.newFrames s' = used ∧ PageTree s' pool' ∧
      Grown (fl ||| pageBitPPresent) used (a :: used) s s' := by
  obtain ⟨fuel, hcall⟩ := hcall
  obtain ⟨used, pool', hsplit, htree, hgrown⟩ := FacelessOS.mapPage_grown (h.pageTree hpool)
    hfl (h.clearPath a) hcall hnull fun f _ => h.clearPath f
  exact ⟨used, pool', hsplit, hgrown.newFrames, htree, hgrown⟩

/-! ## The permissions of a fresh page -/

/-- The page of `a` can be written and reached from user mode as the flags say. -/
def PermissionsAsAsked (s : Vm) (a : U64) (fl : U32) : Prop :=
  ∀ bit ∈ permissionBits, s.Allows bit (pageOf a) ↔ fl &&& bit ≠ 0#32

/-- **A fresh page gets the permissions asked for exactly where its way allows them.** -/
theorem freshPermissions_iff {s₀ s s' : Vm} {pool : List U64} {ops : List VmOp} {a : U64}
    {fl : U32} (h : WellFormed s₀ pool) (hpool : ∀ f ∈ pool, f.toNat < 2 ^ 52)
    (hrun : Run VmStep s₀ ops s) (hstep : VmStep s (.mapPage a fl) s')
    (hfresh : s.translate (pageOf a) = none) :
    PermissionsAsAsked s' a fl ↔
      ∀ bit ∈ permissionBits, fl &&& bit ≠ 0#32 → UpperAllows s bit a := by
  obtain ⟨pool₁, hsuf, hwf⟩ := wellFormed_run hrun h hpool
  have hpool₁ : ∀ f ∈ pool₁, f.toNat < 2 ^ 52 := fun f hf => hpool f (hsuf.mem hf)
  cases hstep with
  | mapPage _ hfl hcall hnull =>
      obtain ⟨used, pool', -, -, -, hgrown⟩ := hwf.mapPage_grown hpool₁ hfl hcall hnull
      have hnew : ∀ bit ∈ permissionBits, (s'.Allows bit (pageOf a) ↔
          fl &&& bit ≠ 0#32 ∧ UpperAllows s bit a) :=
        fun bit hbit => hgrown.allows_new List.mem_cons_self hfresh hbit
      unfold PermissionsAsAsked
      constructor
      · intro hasked bit hbit hflag
        exact ((hnew bit hbit).mp ((hasked bit hbit).mpr hflag)).2
      · intro hupper bit hbit
        rw [hnew bit hbit]
        exact ⟨fun hboth => hboth.1, fun hflag => ⟨hflag, hupper bit hbit hflag⟩⟩

theorem emptyVm_upperAllows (bit : U32) (a : U64) : UpperAllows emptyVm bit a := by
  intro q i _ t _ hp
  rw [emptyVm_entry] at hp
  exact absurd hp (by decide)

theorem emptyVm_translate (v : Page) : emptyVm.translate v = none := by
  cases hv : emptyVm.translate v with
  | none => rfl
  | some e =>
      obtain ⟨pt, hpt, -⟩ := Vm.translate_eq_some.mp hv
      exact absurd (emptyVm_table hpt).1 (by simp [Page.upper])

theorem freshPermissions_iff_emptyVm : ∃ s',
    VmStep emptyVm (.mapPage 0x5000 pageBitRwWritable) s' ∧
    PermissionsAsAsked s' 0x5000 pageBitRwWritable := by
  obtain ⟨s', hcall, hnull⟩ := emptyVm_mapsPage
  have hstep := VmStep.mapPage (by decide) (by decide) hcall hnull
  refine ⟨s', hstep, (freshPermissions_iff emptyVm_wellFormed (by simp) .start hstep
    (emptyVm_translate _)).mpr ?_⟩
  intro bit _ _
  exact emptyVm_upperAllows bit _

theorem emptyVm_grown {s : Vm} {a : U64} {fl : U32} (hfl : VmmFlags fl)
    (hcall : MapsPage emptyVm a fl s) (hnull : s.nulls = emptyVm.nulls) :
    ∃ used pool', Grown (fl ||| pageBitPPresent) used (a :: used) emptyVm s ∧
      PageTree s pool' ∧ (∀ f ∈ used, f ∈ ([0x2000, 0x3000, 0x4000] : List U64)) ∧
      ∀ v, s.translate v ≠ none → v = pageOf a ∨ v = pageOf 0x2000 ∨ v = pageOf 0x3000 ∨
        v = pageOf 0x4000 := by
  obtain ⟨used, pool', hpool, -, htree, hgrown⟩ :=
    emptyVm_wellFormed.mapPage_grown (by simp) hfl hcall hnull
  have hused : ∀ f ∈ used, f ∈ ([0x2000, 0x3000, 0x4000] : List U64) := by
    intro f hf
    rw [hpool]
    exact List.mem_append_left _ hf
  refine ⟨used, pool', hgrown, htree, hused, fun v hv => ?_⟩
  obtain ⟨e, he⟩ := Option.ne_none_iff_exists'.mp hv
  rcases hgrown.translate_new he with hold | ⟨x, hx, rfl, -⟩
  · rw [emptyVm_translate] at hold
    exact absurd hold (by simp)
  · rcases List.mem_cons.mp hx with rfl | hx
    · exact Or.inl rfl
    · have hfree := hused x hx
      simp only [List.mem_cons, List.not_mem_nil, or_false] at hfree
      rcases hfree with rfl | rfl | rfl <;> simp

/-- What a first call with these flags leaves: the page next to `0x5000` has its page
table and no entry, and the entry in `pml4` has the flags. -/
theorem emptyVm_first {s : Vm} {fl : U32}
    (hstep : VmStep emptyVm (.mapPage 0x5000 fl) s) :
    s.translate (pageOf 0x6000) = none ∧ (∃ pt, s.table (pageOf 0x6000).upper = some pt) ∧
      ∀ bit ∈ permissionBits, UpperAllows s bit 0x6000 → fl &&& bit ≠ 0#32 := by
  cases hstep with
  | mapPage _ hfl hcall hnull =>
      obtain ⟨used, pool', hgrown, -, -, hmapped⟩ := emptyVm_grown hfl hcall hnull
      obtain ⟨e, he⟩ := Option.isSome_iff_exists.mp (hgrown.mapped 0x5000 List.mem_cons_self)
      refine ⟨?_, ?_, ?_⟩
      · by_contra hne
        rcases hmapped _ hne with hpage | hpage | hpage | hpage <;> revert hpage <;> decide
      · obtain ⟨pt, hpt, -⟩ := Vm.translate_eq_some.mp he
        exact ⟨pt, hpt⟩
      · intro bit hbit hupper
        obtain ⟨t, -, ht, hp⟩ := Vm.present_of_translate he (q := [])
          (i := (pageOf 0x5000).i4) ⟨[_, _, _], rfl⟩
        rcases hgrown.entries [] t _ (by simp) ht hp with ⟨-, heq⟩ | ⟨x, hx, -⟩
        · rw [heq, emptyVm_entry] at hp
          exact absurd hp (by decide)
        · have hhas := hupper [] _ ⟨[_, _], rfl⟩ t ht hp
          have hsame : (pageOf 0x6000).i4 = (pageOf 0x5000).i4 := by decide
          exact (hasBit_mkEntry hbit x).mp (by rw [← hx, ← hsame]; exact hhas)

/-- The tables of a read-only page keep the page next to it from being writable. -/
theorem emptyVm_not_writable :
    ¬ ∀ (s₀ s s' : Vm) (pool : List U64) (ops : List VmOp) (a : U64) (fl : U32),
      WellFormed s₀ pool → (∀ f ∈ pool, f.toNat < 2 ^ 52) →
      (∀ i : Fin 512, (i : ℕ) < 256 → present (s₀.entry s₀.pml4 i) = false) →
      Run VmStep s₀ ops s → VmStep s (.mapPage a fl) s' →
      s.translate (pageOf a) = none → PermissionsAsAsked s' a fl := by
  intro hclaim
  have hfirst : (mapPage 6 emptyVm 0x5000 pageBitPPresent).map Vm.nulls = some 0 := by
    decide +kernel
  obtain ⟨s₁, hcall₁, hnull₁⟩ := Option.map_eq_some_iff.mp hfirst
  have hstep₁ : VmStep emptyVm (.mapPage 0x5000 pageBitPPresent) s₁ :=
    .mapPage (by decide) (by decide) ⟨6, hcall₁⟩ hnull₁
  obtain ⟨hnone, ⟨pt, hpt⟩, hupper⟩ := emptyVm_first hstep₁
  have hcall₂ : MapsPage s₁ 0x6000 pageBitRwWritable _ := ⟨1, mapPage_of_table hpt 0 _⟩
  have hstep₂ : VmStep s₁ (.mapPage 0x6000 pageBitRwWritable) _ :=
    .mapPage (by decide) (by decide) hcall₂ (hcall₂.frames_of_table hpt).1
  have hasked := hclaim emptyVm s₁ _ _ _ 0x6000 pageBitRwWritable emptyVm_wellFormed
    (by simp) (fun i _ => by rw [emptyVm_entry]; rfl) (Run.start.snoc hstep₁) hstep₂ hnone
  have hallows := (hasked pageBitRwWritable List.mem_cons_self).mpr (by decide)
  have hlow : ∀ f ∈ ([0x2000, 0x3000, 0x4000] : List U64), f.toNat < 2 ^ 52 := by simp
  obtain ⟨pool₁, hsuf, hwf⟩ := hstep₁.wellFormed emptyVm_wellFormed hlow
  obtain ⟨_, _, -, -, -, hgrown⟩ := hwf.mapPage_grown (fun f hf => hlow f (hsuf.mem hf))
    (by decide) hcall₂ (hcall₂.frames_of_table hpt).1
  refine hupper pageBitRwWritable List.mem_cons_self ?_ (by decide)
  exact ((hgrown.allows_new List.mem_cons_self hnone List.mem_cons_self).mp hallows).2

end FacelessOS
