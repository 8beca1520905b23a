import FacelessOS.Libkern.Strings

/-!
# `strncmp` (`string.c`)

The loop goes on while both pointers are other than `NULL` and fewer than `n` characters
were compared: it looks at the pointers where the terminators are meant. So it compares `n`
characters whatever they are (`strncmp_result`), and a `NULL` pointer equals every string
(`strncmp_null`). On terminated strings it is right but for equal ones that end before the
`n` characters do, and for pointers that come to `NULL` (`strncmpRespects_iff`).
-/

namespace FacelessOS

open ByteStore

/-- What `strncmp` returns, and the addresses it reads. -/
structure CompareRun where
  result : U8
  reads : List U64

def strncmpLoop (mem : Store 64) : ℕ → U64 → U64 → List U64 → CompareRun
  | 0, _, _, reads => ⟨1#8, reads⟩
  | left + 1, s1, s2, reads =>
      if s1 ≠ 0#64 ∧ s2 ≠ 0#64 then
        if mem s1 ≠ mem s2 then ⟨0#8, reads ++ [s1, s2]⟩
        else strncmpLoop mem left (s1 + 1#64) (s2 + 1#64) (reads ++ [s1, s2])
      else ⟨1#8, reads⟩

def strncmp (mem : Store 64) (s1 s2 : U64) (n : U32) : CompareRun :=
  strncmpLoop mem n.toNat s1 s2 []

/-! ## Pointers -/

/-- The pointer stays clear of `NULL` for this many characters. -/
def Clear (p : U64) (n : ℕ) : Prop := ∀ k < n, p + BitVec.ofNat 64 k ≠ 0#64

theorem ptr_add_succ (p : U64) (k : ℕ) :
    p + BitVec.ofNat 64 (k + 1) = p + 1#64 + BitVec.ofNat 64 k := by
  rw [Nat.add_comm, BitVec.ofNat_add, BitVec.add_assoc]

theorem strAt_succ (mem : Store 64) (p : U64) (k : ℕ) :
    strAt mem p (k + 1) = strAt mem (p + 1#64) k :=
  congrArg mem (ptr_add_succ p k)

theorem clear_succ {p : U64} {n : ℕ} : Clear p (n + 1) ↔ p ≠ 0#64 ∧ Clear (p + 1#64) n := by
  constructor
  · intro h
    refine ⟨?_, fun k hk => ?_⟩
    · have := h 0 (Nat.succ_pos n)
      rwa [BitVec.add_zero] at this
    · rw [← ptr_add_succ]
      exact h (k + 1) (Nat.succ_lt_succ hk)
  · rintro ⟨hp, hrest⟩ k hk
    cases k with
    | zero => rwa [BitVec.add_zero]
    | succ k =>
        rw [ptr_add_succ]
        exact hrest k (Nat.lt_of_succ_lt_succ hk)

theorem clear_of_le {p : U64} {n : ℕ} (hp : p ≠ 0#64) (h : p.toNat + n ≤ 2 ^ 64) : Clear p n := by
  intro k hk hzero
  have hpos : 0 < p.toNat := by
    rcases Nat.eq_zero_or_pos p.toNat with h0 | h0
    · exact absurd (BitVec.eq_of_toNat_eq h0) hp
    · exact h0
  have := congrArg BitVec.toNat hzero
  rw [BitVec.toNat_add, BitVec.toNat_ofNat, BitVec.toNat_ofNat, Nat.mod_eq_of_lt (a := k) (by omega),
    Nat.mod_eq_of_lt (by omega)] at this
  omega

def Unstopped (s1 s2 : U64) (n : ℕ) : Prop := Clear s1 n ∧ Clear s2 n

theorem Unstopped.mono {s1 s2 : U64} {m n : ℕ} (h : Unstopped s1 s2 n) (hmn : m ≤ n) :
    Unstopped s1 s2 m :=
  ⟨fun k hk => h.1 k (Nat.lt_of_lt_of_le hk hmn), fun k hk => h.2 k (Nat.lt_of_lt_of_le hk hmn)⟩

theorem unstopped_zero (s1 s2 : U64) : Unstopped s1 s2 0 :=
  ⟨fun k hk => absurd hk (Nat.not_lt_zero k), fun k hk => absurd hk (Nat.not_lt_zero k)⟩

theorem unstopped_succ {s1 s2 : U64} {n : ℕ} : Unstopped s1 s2 (n + 1) ↔
    (s1 ≠ 0#64 ∧ s2 ≠ 0#64) ∧ Unstopped (s1 + 1#64) (s2 + 1#64) n := by
  rw [Unstopped, clear_succ, clear_succ, Unstopped]
  exact and_and_and_comm

/-! ## The run -/

/-- What is read for the first `m` characters of both strings. -/
def charReads (s1 s2 : U64) (m : ℕ) : List U64 :=
  (List.range m).flatMap fun k => [s1 + BitVec.ofNat 64 k, s2 + BitVec.ofNat 64 k]

theorem charReads_succ (s1 s2 : U64) (m : ℕ) :
    charReads s1 s2 (m + 1) = [s1, s2] ++ charReads (s1 + 1#64) (s2 + 1#64) m := by
  rw [charReads, List.range_succ_eq_map, List.flatMap_cons, List.flatMap_map, BitVec.add_zero,
    BitVec.add_zero]
  refine congrArg ([s1, s2] ++ ·) (congrArg (List.flatMap · (List.range m)) (funext fun k => ?_))
  rw [ptr_add_succ s1, ptr_add_succ s2]

theorem length_charReads (s1 s2 : U64) (m : ℕ) : (charReads s1 s2 m).length = 2 * m := by
  induction m generalizing s1 s2 with
  | zero => rfl
  | succ m ih =>
      rw [charReads_succ, List.length_append, ih, List.length_cons, List.length_singleton]
      omega

/-- The first difference of two strings. -/
structure FirstDifference (s s' : Str) (d : ℕ) : Prop where
  differ : s d ≠ s' d
  first : ∀ k < d, s k = s' k

theorem FirstDifference.unique {s s' : Str} {d d' : ℕ} (h : FirstDifference s s' d)
    (h' : FirstDifference s s' d') : d = d' := by
  rcases Nat.lt_trichotomy d d' with hlt | heq | hlt
  · exact absurd (h'.first d hlt) h.differ
  · exact heq
  · exact absurd (h.first d' hlt) h'.differ

/-- What `strncmp` returns after `m` of at most `n` characters: they agree, and it has come to
the end or to `NULL`, or the last one is the first difference. -/
inductive Compares (mem : Store 64) (s1 s2 : U64) (n m : ℕ) : U8 → Prop where
  | agree : (∀ k < m, strAt mem s1 k = strAt mem s2 k) →
      (m = n ∨ ¬ Unstopped s1 s2 (m + 1)) → Compares mem s1 s2 n m 1#8
  | differ {d : ℕ} : m = d + 1 → FirstDifference (strAt mem s1) (strAt mem s2) d →
      Compares mem s1 s2 n m 0#8

theorem Compares.cons {mem : Store 64} {s1 s2 : U64} {n m : ℕ} {r : U8}
    (h : Compares mem (s1 + 1#64) (s2 + 1#64) n m r)
    (heq : mem s1 = mem s2) : Compares mem s1 s2 (n + 1) (m + 1) r := by
  have hcons {l : ℕ} (hl : ∀ k < l, strAt mem (s1 + 1#64) k = strAt mem (s2 + 1#64) k) :
      ∀ k < l + 1, strAt mem s1 k = strAt mem s2 k := by
    intro k hk
    cases k with
    | zero => rwa [strAt, strAt, BitVec.add_zero, BitVec.add_zero]
    | succ k =>
        rw [strAt_succ, strAt_succ]
        exact hl k (Nat.lt_of_succ_lt_succ hk)
  cases h with
  | agree hall hend =>
      refine .agree (hcons hall) (hend.imp (congrArg (· + 1)) fun hstop hun => hstop ?_)
      exact (unstopped_succ.mp hun).2
  | @differ d hm hdiff =>
      refine .differ (congrArg (· + 1) hm) ⟨?_, hcons hdiff.first⟩
      rw [strAt_succ, strAt_succ]
      exact hdiff.differ

theorem strncmpLoop_cases (mem : Store 64) (left : ℕ) (s1 s2 : U64) (reads : List U64) :
    ∃ m ≤ left, (strncmpLoop mem left s1 s2 reads).reads = reads ++ charReads s1 s2 m ∧
      Unstopped s1 s2 m ∧ Compares mem s1 s2 left m (strncmpLoop mem left s1 s2 reads).result := by
  induction left generalizing s1 s2 reads with
  | zero =>
      exact ⟨0, Nat.le_refl 0, (List.append_nil reads).symm, unstopped_zero s1 s2,
        .agree (fun k hk => absurd hk (Nat.not_lt_zero k)) (Or.inl rfl)⟩
  | succ left ih =>
      rw [strncmpLoop]
      by_cases hptr : s1 ≠ 0#64 ∧ s2 ≠ 0#64
      · rw [if_pos hptr]
        by_cases heq : mem s1 = mem s2
        · rw [if_neg (not_not_intro heq)]
          obtain ⟨m, hm, hreads, hun, hcmp⟩ := ih (s1 + 1#64) (s2 + 1#64) (reads ++ [s1, s2])
          refine ⟨m + 1, Nat.succ_le_succ hm, ?_, unstopped_succ.mpr ⟨hptr, hun⟩,
            hcmp.cons heq⟩
          rw [hreads, charReads_succ, List.append_assoc]
        · rw [if_pos heq]
          refine ⟨1, Nat.succ_le_succ (Nat.zero_le left), ?_,
            unstopped_succ.mpr ⟨hptr, unstopped_zero _ _⟩, .differ (Nat.zero_add 1).symm
              ⟨?_, fun k hk => absurd hk (Nat.not_lt_zero k)⟩⟩
          · rw [charReads_succ]
            rfl
          · rwa [strAt, strAt, BitVec.add_zero, BitVec.add_zero]
      · rw [if_neg hptr]
        exact ⟨0, Nat.zero_le _, (List.append_nil reads).symm, unstopped_zero s1 s2,
          .agree (fun k hk => absurd hk (Nat.not_lt_zero k))
            (Or.inr fun hun => hptr (unstopped_succ.mp hun).1)⟩

theorem strncmp_cases (mem : Store 64) (s1 s2 : U64) (n : U32) :
    ∃ m ≤ n.toNat, (strncmp mem s1 s2 n).reads = charReads s1 s2 m ∧ Unstopped s1 s2 m ∧
      Compares mem s1 s2 n.toNat m (strncmp mem s1 s2 n).result :=
  strncmpLoop_cases mem n.toNat s1 s2 []

theorem strncmp_ne_zero {mem : Store 64} {s1 s2 : U64} {n : U32} :
    (strncmp mem s1 s2 n).result ≠ 0#8 ↔ (strncmp mem s1 s2 n).result = 1#8 := by
  obtain ⟨m, -, -, -, hcmp⟩ := strncmp_cases mem s1 s2 n
  generalize (strncmp mem s1 s2 n).result = r at hcmp
  cases hcmp with
  | agree _ _ => decide
  | differ _ _ => decide

/-- A `NULL` pointer compares equal to everything. -/
theorem strncmp_null (mem : Store 64) (s2 : U64) (n : U32) :
    (strncmp mem 0#64 s2 n).result = 1#8 := by
  obtain ⟨m, -, -, hun, hcmp⟩ := strncmp_cases mem 0#64 s2 n
  generalize (strncmp mem 0#64 s2 n).result = r at hcmp
  cases hcmp with
  | agree _ _ => rfl
  | differ hm _ => exact absurd rfl (unstopped_succ.mp (hm ▸ hun)).1.1

theorem strncmp_result {mem : Store 64} {s1 s2 : U64} {n : U32} (h1 : Clear s1 n.toNat)
    (h2 : Clear s2 n.toNat) : (strncmp mem s1 s2 n).result = 1#8 ↔
      ∀ k < n.toNat, strAt mem s1 k = strAt mem s2 k := by
  obtain ⟨m, hm, -, -, hcmp⟩ := strncmp_cases mem s1 s2 n
  generalize (strncmp mem s1 s2 n).result = r at hcmp
  cases hcmp with
  | agree hall hend =>
      rcases Nat.eq_or_lt_of_le hm with rfl | hlt
      · exact iff_of_true rfl hall
      · have hun : Unstopped s1 s2 n.toNat := ⟨h1, h2⟩
        exact absurd (hun.mono hlt) (hend.resolve_left (Nat.ne_of_lt hlt))
  | @differ d hmd hdiff =>
      exact iff_of_false (by decide) fun hall => hdiff.differ (hall d (by omega))

/-! ## Terminated strings -/

/-- `strncmp` returns 1 when the strings agree on their first `n` characters, or are equal and
end before, and reads neither behind its terminator. -/
structure StrncmpRespects (mem : Store 64) (s1 s2 : U64) (n : U32) (l1 l2 : List U8) : Prop where
  result_iff : (strncmp mem s1 s2 n).result = 1#8 ↔ l1.take n.toNat = l2.take n.toNat
  reads_inside : ∃ m ≤ l1.length + 1, m ≤ l2.length + 1 ∧
    (strncmp mem s1 s2 n).reads = charReads s1 s2 m

section Terminated

variable {mem : Store 64} {s1 s2 : U64} {n : U32} {l1 l2 : List U8}

theorem take_eq_iff_strAt (h1 : (strAt mem s1).Holds l1) (h2 : (strAt mem s2).Holds l2) (n : ℕ) :
    l1.take n = l2.take n ↔
      ∀ k < n, k ≤ l1.length → k ≤ l2.length → strAt mem s1 k = strAt mem s2 k := by
  simpa only [Nat.zero_add] using Buffer.HoldsAt.take_eq_iff (n := n) h1 h2

theorem exists_firstDifference (h1 : (strAt mem s1).Holds l1) (h2 : (strAt mem s2).Holds l2)
    {n : ℕ} (hne : l1.take n ≠ l2.take n) :
    ∃ d < n, d ≤ l1.length ∧ d ≤ l2.length ∧ FirstDifference (strAt mem s1) (strAt mem s2) d := by
  have hex : ∃ d, strAt mem s1 d ≠ strAt mem s2 d ∧ d < n ∧ d ≤ l1.length ∧ d ≤ l2.length := by
    by_contra hnone
    refine hne ((take_eq_iff_strAt h1 h2 n).mpr fun k hk hk1 hk2 => ?_)
    by_contra hdiff
    exact hnone ⟨k, hdiff, hk, hk1, hk2⟩
  obtain ⟨hdiff, hd, hd1, hd2⟩ := Nat.find_spec hex
  refine ⟨Nat.find hex, hd, hd1, hd2, hdiff, fun k hk => ?_⟩
  by_contra hne
  exact Nat.find_min hex hk ⟨hne, by omega, by omega, by omega⟩

theorem Compares.of_take_eq {n m : ℕ} {r : U8} (h : Compares mem s1 s2 n m r)
    (h1 : (strAt mem s1).Holds l1) (h2 : (strAt mem s2).Holds l2) (heq : l1.take n = l2.take n)
    (hm : m ≤ n) (hm1 : m ≤ l1.length + 1) (hm2 : m ≤ l2.length + 1) : r = 1#8 := by
  cases h with
  | agree _ _ => rfl
  | @differ d hmd hdiff =>
      exact absurd ((take_eq_iff_strAt h1 h2 n).mp heq d (by omega) (by omega) (by omega))
        hdiff.differ

theorem Compares.of_firstDifference {n m d : ℕ} {r : U8} (h : Compares mem s1 s2 n m r)
    (hfirst : FirstDifference (strAt mem s1) (strAt mem s2) d) (hd : d < n)
    (hroom : Unstopped s1 s2 (d + 1)) : r = 0#8 ∧ m = d + 1 := by
  cases h with
  | agree hall hend =>
      -- the run passes no difference and is not stopped before one
      have hmd : m ≤ d := Nat.le_of_not_lt fun hlt => hfirst.differ (hall d hlt)
      rcases hend with hend | hstop
      · omega
      · exact absurd (hroom.mono (by omega)) hstop
  | @differ d' hmd hdiff =>
      obtain rfl := hdiff.unique hfirst
      exact ⟨rfl, hmd⟩

/-- `strncmp` respects the terminators exactly when it does not go on behind two equal strings
and meets no `NULL` up to the first difference of two others. -/
theorem strncmpRespects_iff (h1 : (strAt mem s1).Holds l1) (h2 : (strAt mem s2).Holds l2) :
    StrncmpRespects mem s1 s2 n l1 l2 ↔
      (l1 = l2 → Unstopped s1 s2 (l1.length + 2) → n.toNat ≤ l1.length + 1) ∧
        (l1.take n.toNat ≠ l2.take n.toNat →
          ∀ d, FirstDifference (strAt mem s1) (strAt mem s2) d → Unstopped s1 s2 (d + 1)) := by
  obtain ⟨m, hm, hreads, hun, hcmp⟩ := strncmp_cases mem s1 s2 n
  constructor
  · rintro ⟨hresult, m', hm1, hm2, hreads'⟩
    obtain rfl : m = m' := by
      have hlen := congrArg List.length (hreads.symm.trans hreads')
      rw [length_charReads, length_charReads] at hlen
      omega
    generalize (strncmp mem s1 s2 n).result = r at hcmp hresult
    cases hcmp with
    | agree hall hend =>
        refine ⟨fun hl hroom => ?_, fun hne => absurd (hresult.mp rfl) hne⟩
        rcases hend with hend | hstop
        · omega
        · exact absurd (hroom.mono (by omega)) hstop
    | @differ d hmd hdiff =>
        have hne : l1.take n.toNat ≠ l2.take n.toNat := fun heq => by
          have := hresult.mpr heq
          exact absurd this (by decide)
        refine ⟨fun hl => absurd (hl ▸ rfl) hne, fun _ d' hd' => ?_⟩
        rw [← hdiff.unique hd', ← hmd]
        exact hun
  · rintro ⟨hequal, hdiffer⟩
    by_cases heq : l1.take n.toNat = l2.take n.toNat
    · -- the characters that count agree
      have hbound : m ≤ l1.length + 1 ∧ m ≤ l2.length + 1 := by
        by_cases hl : l1 = l2
        · subst hl
          by_cases hroom : Unstopped s1 s2 (l1.length + 2)
          · have := hequal rfl hroom
            omega
          · by_contra hlong
            exact hroom (hun.mono (by omega))
        · have := Buffer.le_length_of_take_eq heq hl
          omega
      have hone := hcmp.of_take_eq h1 h2 heq hm hbound.1 hbound.2
      exact ⟨iff_of_true hone heq, m, hbound.1, hbound.2, hreads⟩
    · obtain ⟨d, hd, hd1, hd2, hfirst⟩ := exists_firstDifference h1 h2 heq
      obtain ⟨hzero, rfl⟩ := hcmp.of_firstDifference hfirst hd (hdiffer heq d hfirst)
      refine ⟨?_, d + 1, by omega, by omega, hreads⟩
      rw [hzero]
      exact iff_of_false (by decide) heq

end Terminated

end FacelessOS
