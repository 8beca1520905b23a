import FacelessOS.Memory.Permissions

/-!
# What user mode can reach

A table frame is mapped with the flags of the call that takes it, so a call for a user
page maps its tables for the user as well. Which pages a call opens to user mode is exact
(`Grown.userPage_iff`): of the page asked for and the pages of the frames taken, those
that were not mapped and that the entries found on their way allow. The page tables stay
private in every run of which no call opens a table that way (`tablesPrivate_of_spares`).
-/

namespace FacelessOS

open RadixTree Runs

def UserPage (s : Vm) (v : Page) : Prop :=
  (s.translate v).isSome = true ∧ s.Allows pageBitUsUser v

/-- User mode can reach this frame, through some page. -/
def UserReachable (s : Vm) (f : U64) : Prop :=
  ∃ v e, s.translate v = some e ∧ e &&& pageAddrMask = f ∧ s.Allows pageBitUsUser v

/-- User mode can reach no page table. -/
def TablesPrivate (s : Vm) : Prop :=
  ∀ (q : List (Fin 512)) (t : U64), q.length ≤ 3 → s.table q = some t → ¬ UserReachable s t

/-- Mapping the page of `x` with these flags opens it to user mode. -/
def Opens (s : Vm) (fl : U32) (x : U64) : Prop :=
  fl &&& pageBitUsUser ≠ 0#32 ∧ s.translate (pageOf x) = none ∧
    UpperAllows s pageBitUsUser x

def NoTableFrame (s : Vm) (a : U64) : Prop :=
  (∀ (q : List (Fin 512)) (t : U64), q.length ≤ 3 → s.table q = some t →
    a &&& pageAddrMask ≠ t) ∧
  ∀ pool, HandsOut s.pmm.gmmap pool → a &&& pageAddrMask ∉ pool

/-- The condition on a call of `map_page`: it opens no frame that it takes, and the page
asked for only if that is none of a table. -/
def SparesTables (s : Vm) : VmOp → Prop
  | .mapPage a fl => (Opens s fl a → NoTableFrame s a) ∧
      ∀ s', MapsPage s a fl s' → ∀ f ∈ s.newFrames s', ¬ Opens s fl f
  | .unmapPage _ => False

/-! ## One call -/

namespace Grown

variable {fl : U32} {used pages : List U64} {s s' : Vm}

/-- **The pages that a call opens.** -/
theorem userPage_iff (h : Grown (fl ||| pageBitPPresent) used pages s s') (v : Page) :
    UserPage s' v ↔ UserPage s v ∨ ∃ x ∈ pages, pageOf x = v ∧ Opens s fl x := by
  unfold UserPage Opens
  exact h.permitted_iff (List.mem_cons_of_mem _ List.mem_cons_self) v

theorem userReachable (h : Grown (fl ||| pageBitPPresent) used pages s s')
    (hfl : VmmFlags fl) {f : U64} (hf : UserReachable s' f) :
    UserReachable s f ∨ ∃ x ∈ pages, x &&& pageAddrMask = f ∧ Opens s fl x := by
  obtain ⟨v, e, he, rfl, hallows⟩ := hf
  cases hold : s.translate v with
  | some e' =>
      obtain rfl := Option.some.inj ((h.translate_keep hold).symm.trans he)
      exact Or.inl ⟨v, e', hold, rfl, (h.allows_old hold).mp hallows⟩
  | none =>
      rcases h.translate_new he with hold' | ⟨x, hx, rfl, rfl⟩
      · rw [hold] at hold'
        exact absurd hold' (by simp)
      · have hus : pageBitUsUser ∈ permissionBits :=
          List.mem_cons_of_mem _ List.mem_cons_self
        obtain ⟨hus, hupper⟩ := (h.allows_new hx hold hus).mp hallows
        exact Or.inr ⟨x, hx, (mkEntry_and_mask x hfl.or_present).symm, hus, hold, hupper⟩

end Grown

structure FramesPrivate (s : Vm) (pool : List U64) : Prop where
  wellFormed : WellFormed s pool
  frames : ∀ f ∈ pool, f.toNat < 2 ^ 52
  tables : TablesPrivate s
  free : ∀ f ∈ pool, ¬ UserReachable s f

/-- **One call that spares the tables** keeps them private. -/
theorem FramesPrivate.step {s s' : Vm} {pool : List U64} {op : VmOp}
    (h : FramesPrivate s pool) (hspare : SparesTables s op) (hstep : VmStep s op s') :
    ∃ pool', FramesPrivate s' pool' := by
  obtain ⟨pool₁, hsuf, hwf⟩ := hstep.wellFormed h.wellFormed h.frames
  cases hstep with
  | unmapPage _ _ => exact hspare.elim
  | @mapPage _ a fl _ hfl hcall hnull =>
      obtain ⟨hpage, hframes⟩ := hspare
      obtain ⟨used, pool', hpool, hnew, -, hgrown⟩ :=
        h.wellFormed.mapPage_grown h.frames hfl hcall hnull
      -- a frame that becomes reachable is that of the page asked for
      have hopened : ∀ f, UserReachable s' f → UserReachable s f ∨
          (a &&& pageAddrMask = f ∧ NoTableFrame s a) := by
        intro f hf
        rcases hgrown.userReachable hfl hf with hold | ⟨x, hx, rfl, hopen⟩
        · exact Or.inl hold
        · rcases List.mem_cons.mp hx with rfl | hx
          · exact Or.inr ⟨rfl, hpage hopen⟩
          · exact absurd hopen (hframes s' hcall x (hnew ▸ hx))
      have hfree : ∀ f ∈ pool, ¬ UserReachable s' f := by
        intro f hf hreach
        rcases hopened f hreach with hold | ⟨rfl, hno⟩
        · exact h.free f hf hold
        · exact hno.2 pool h.wellFormed.handsOut hf
      refine ⟨pool₁, hwf, fun f hf => h.frames f (hsuf.mem hf), ?_,
        fun f hf => hfree f (hsuf.mem hf)⟩
      intro q t hq ht hreach
      rcases hgrown.tables q t hq ht with hold | hused
      · rcases hopened t hreach with hreach | ⟨rfl, hno⟩
        · exact h.tables q t hq hold hreach
        · exact hno.1 q _ hq hold rfl
      · exact hfree t (by rw [hpool]; exact List.mem_append_left _ hused) hreach

/-! ## Runs -/

/-- **Page tables stay private where no call opens one.** In every run of calls that
spare the tables, from tables and free frames that user mode cannot reach, it reaches no
table; and whatever call comes next, user mode reaches afterwards exactly the pages it
did and those that the call opens. -/
theorem tablesPrivate_of_spares {s₀ s : Vm} {pool : List U64} {ops : List VmOp}
    (h : WellFormed s₀ pool) (hpool : ∀ f ∈ pool, f.toNat < 2 ^ 52)
    (htables : TablesPrivate s₀) (hfree : ∀ f ∈ pool, ¬ UserReachable s₀ f)
    (hrun : Run (Guarded SparesTables VmStep) s₀ ops s) :
    TablesPrivate s ∧ ∀ a fl s', VmStep s (.mapPage a fl) s' → ∀ v,
      UserPage s' v ↔ UserPage s v ∨
        ∃ x ∈ a :: s.newFrames s', pageOf x = v ∧ Opens s fl x := by
  obtain ⟨pool₁, hprivate⟩ := hrun.guarded_invariant (P := fun s => ∃ pool, FramesPrivate s pool)
    ⟨pool, h, hpool, htables, hfree⟩
    fun s op s' ⟨pool, hs⟩ hspare hstep => hs.step hspare hstep
  refine ⟨hprivate.tables, fun a fl s' hstep v => ?_⟩
  cases hstep with
  | mapPage _ hfl hcall hnull =>
      obtain ⟨used, pool', -, hnew, -, hgrown⟩ :=
        hprivate.wellFormed.mapPage_grown hprivate.frames hfl hcall hnull
      rw [hnew]
      exact hgrown.userPage_iff v

theorem emptyVm_private (f : U64) : ¬ UserReachable emptyVm f := by
  rintro ⟨v, e, he, -⟩
  rw [emptyVm_translate] at he
  exact absurd he (by simp)

theorem tablesPrivate_of_spares_emptyVm : ∃ s',
    VmStep emptyVm (.mapPage 0x5000 pageBitRwWritable) s' ∧ TablesPrivate s' := by
  obtain ⟨s', hcall, hnull⟩ := emptyVm_mapsPage
  have hstep : VmStep emptyVm (.mapPage 0x5000 pageBitRwWritable) s' :=
    .mapPage (by decide) (by decide) hcall hnull
  have hspare : SparesTables emptyVm (.mapPage 0x5000 pageBitRwWritable) :=
    ⟨fun hopen => absurd rfl hopen.1, fun _ _ _ _ hopen => absurd rfl hopen.1⟩
  have hguard : Guarded SparesTables VmStep emptyVm _ s' := ⟨hspare, hstep⟩
  exact ⟨s', hstep, (tablesPrivate_of_spares emptyVm_wellFormed (by simp)
    (fun _ t _ _ => emptyVm_private t) (fun f _ => emptyVm_private f)
    (Run.start.snoc hguard)).1⟩

/-- A first call for a user page opens its page table. -/
theorem emptyVm_tableOpened {s : Vm}
    (hstep : VmStep emptyVm (.mapPage 0x5000 pageBitUsUser) s) : ¬ TablesPrivate s := by
  intro hprivate
  have hlow : ∀ f ∈ ([0x2000, 0x3000, 0x4000] : List U64), f.toNat < 2 ^ 47 := by simp
  cases hstep with
  | mapPage _ hfl hcall hnull =>
      obtain ⟨used, pool', hgrown, -, hfree, -⟩ := emptyVm_grown hfl hcall hnull
      have hpages : ∀ x ∈ (0x5000 : U64) :: used, x.toNat < 2 ^ 47 := by
        intro x hx
        rcases List.mem_cons.mp hx with rfl | hx
        · decide
        · exact hlow x (hfree x hx)
      obtain ⟨e, he⟩ := Option.isSome_iff_exists.mp (hgrown.mapped 0x5000 List.mem_cons_self)
      obtain ⟨pt, hpt, -⟩ := Vm.translate_eq_some.mp he
      have hused : pt ∈ used := by
        rcases hgrown.tables _ pt (by simp) hpt with hold | hused
        · exact absurd (emptyVm_table hold).1 (by simp [Page.upper])
        · exact hused
      have hopen : Opens emptyVm pageBitUsUser pt :=
        ⟨by decide, emptyVm_translate _, emptyVm_upperAllows _ _⟩
      obtain ⟨hsome, hallows⟩ := (hgrown.userPage_iff (pageOf pt)).mpr
        (Or.inr ⟨pt, List.mem_cons_of_mem _ hused, rfl, hopen⟩)
      obtain ⟨e', he'⟩ := Option.isSome_iff_exists.mp hsome
      refine hprivate _ pt (by simp) hpt ⟨_, e', he', ?_, hallows⟩
      rcases hgrown.translate_new he' with hold | ⟨y, hy, hpage, rfl⟩
      · rw [emptyVm_translate] at hold
        exact absurd hold (by simp)
      · have hy47 := hpages y hy
        have hpt47 := hpages pt (List.mem_cons_of_mem _ hused)
        rw [mkEntry_and_mask y hfl.or_present,
          mask_eq_of_pageOf_eq (by omega) (by omega) hpage]
        exact (emptyVm_wellFormed.pageTree (frames_of_low hlow)).pool_frame pt
          (hfree pt hused)

/-- A call for a user page that is none of a table breaks their privacy. -/
theorem emptyVm_opened :
    ¬ ∀ (s₀ s : Vm) (pool : List U64) (ops : List VmOp), WellFormed s₀ pool →
      (∀ f ∈ pool, f.toNat < 2 ^ 52) → TablesPrivate s₀ →
      (∀ f ∈ pool, ¬ UserReachable s₀ f) →
      Run (Guarded (fun s op => ∃ a fl, op = .mapPage a fl ∧ NoTableFrame s a) VmStep)
        s₀ ops s → TablesPrivate s := by
  intro hclaim
  have hrun : (mapPage 6 emptyVm 0x5000 pageBitUsUser).map Vm.nulls = some 0 := by
    decide +kernel
  obtain ⟨s', hcall, hnull⟩ := Option.map_eq_some_iff.mp hrun
  have hstep : VmStep emptyVm (.mapPage 0x5000 pageBitUsUser) s' :=
    .mapPage (by decide) (by decide) ⟨6, hcall⟩ hnull
  have hno : NoTableFrame emptyVm 0x5000 := by
    refine ⟨fun q t _ ht => ?_, fun pool hout => ?_⟩
    · rw [(emptyVm_table ht).2]
      decide
    · rw [hout.unique emptyVm_wellFormed.handsOut]
      decide
  have hguard : Guarded (fun s op => ∃ a fl, op = .mapPage a fl ∧ NoTableFrame s a) VmStep
      emptyVm (.mapPage 0x5000 pageBitUsUser) s' := ⟨⟨_, _, rfl, hno⟩, hstep⟩
  exact emptyVm_tableOpened hstep (hclaim emptyVm s' _ _ emptyVm_wellFormed (by simp)
    (fun _ t _ _ => emptyVm_private t) (fun f _ => emptyVm_private f)
    (Run.start.snoc hguard))

end FacelessOS
