import FacelessOS.Lib.ForwardCopy
import FacelessOS.Libkern.Strings

/-!
# `strncpy` in memory (`string.c`)

The loop reads `src[i]` before it looks at `i < len`, and it never writes the terminator. The
two strings may overlap. So the copy respects terminator and bound exactly when the
terminator of `src` comes below `len`, a zero was in its place in `dst` before, and `dst`
does not begin inside `src` (`strncpyRespects_iff`).
-/

namespace FacelessOS

open ByteStore ForwardCopy

/-- The terminator is at this index, which is the length of the string. -/
def Str.EndsAt (s : Str) (t : ℕ) : Prop := s t = 0#8 ∧ ∀ j < t, s j ≠ 0#8

theorem Str.EndsAt.unique {s : Str} {t t' : ℕ} (h : s.EndsAt t) (h' : s.EndsAt t') : t = t' := by
  rcases Nat.lt_trichotomy t t' with hlt | heq | hlt
  · exact absurd h.1 (h'.2 t hlt)
  · exact heq
  · exact absurd h'.1 (h.2 t' hlt)

namespace Libkern

/-- `strncpy` in memory, where the strings may overlap: the pointer it returns and the
copy. -/
def strncpy (mem : Store 64) (dst src len : U64) : U64 × CopyRun (Store 64) :=
  (dst, strncpyLoop (fun m => strAt m src)
    (fun m i v => Function.update m (dst + BitVec.ofNat 64 i) v) len.toNat 0 ⟨mem, [], []⟩)

/-! ## The loop -/

variable {mem : Store 64} {dst src len : U64} {c : CopyRun (Store 64)} {k : ℕ}

/-- After `k` rounds, each of which came to a character. -/
structure Rounds (mem : Store 64) (dst src : U64) (k : ℕ) (c : CopyRun (Store 64)) : Prop where
  mem_eq : c.mem = copyUp mem dst src k
  reads : ∀ i, i ∈ c.reads ↔ i < k
  writes : ∀ i, i ∈ c.writes ↔ i < k
  passed : ∀ j < k, strAt (copyUp mem dst src j) src j ≠ 0#8

theorem Rounds.start : Rounds mem dst src 0 ⟨mem, [], []⟩ where
  mem_eq := rfl
  reads i := iff_of_false List.not_mem_nil (Nat.not_lt_zero i)
  writes i := iff_of_false List.not_mem_nil (Nat.not_lt_zero i)
  passed j hj := absurd hj (Nat.not_lt_zero j)

theorem Rounds.step (h : Rounds mem dst src k c) (hne : strAt c.mem src k ≠ 0#8) :
    Rounds mem dst src (k + 1)
      { mem := Function.update c.mem (dst + BitVec.ofNat 64 k) (strAt c.mem src k)
        reads := k :: k :: c.reads
        writes := k :: c.writes } where
  mem_eq := by
    rw [copyUp, ← h.mem_eq]
    rfl
  reads i := by
    rw [List.mem_cons, List.mem_cons, h.reads]
    omega
  writes i := by
    rw [List.mem_cons, h.writes]
    omega
  passed j hj := by
    rcases Nat.lt_succ_iff_lt_or_eq.mp hj with hj | rfl
    · exact h.passed j hj
    · rwa [← h.mem_eq]

theorem strncpyLoop_rounds {left n : ℕ} (hn : k + left = n) (h : Rounds mem dst src k c) :
    ∃ m c', m ≤ n ∧ Rounds mem dst src m c' ∧
      strncpyLoop (fun m => strAt m src)
        (fun m i v => Function.update m (dst + BitVec.ofNat 64 i) v) left k c =
          { c' with reads := m :: c'.reads } ∧
      (m = n ∨ strAt c'.mem src m = 0#8) := by
  induction left generalizing k c with
  | zero => exact ⟨k, c, by omega, h, rfl, Or.inl hn⟩
  | succ left ih =>
      rw [strncpyLoop]
      by_cases hzero : strAt c.mem src k = 0#8
      · rw [if_pos hzero]
        exact ⟨k, c, by omega, h, rfl, Or.inr hzero⟩
      · rw [if_neg hzero]
        exact ih (by omega) (h.step hzero)

/-- What a call of `strncpy` does: `m` characters are copied, and `src` is read up to index
`m`, which is `len` or where a zero is read. -/
structure Copies (mem : Store 64) (dst src len : U64) (m : ℕ) : Prop where
  le : m ≤ len.toNat
  mem_eq : (strncpy mem dst src len).2.mem = copyUp mem dst src m
  reads : ∀ i, i ∈ (strncpy mem dst src len).2.reads ↔ i ≤ m
  writes : ∀ i, i ∈ (strncpy mem dst src len).2.writes ↔ i < m
  passed : ∀ j < m, strAt (copyUp mem dst src j) src j ≠ 0#8
  stop : m = len.toNat ∨ strAt (copyUp mem dst src m) src m = 0#8

theorem exists_copies (mem : Store 64) (dst src len : U64) : ∃ m, Copies mem dst src len m := by
  obtain ⟨m, c, hm, hrounds, hrun, hstop⟩ :=
    strncpyLoop_rounds (Nat.zero_add len.toNat) (@Rounds.start mem dst src)
  refine ⟨m, hm, ?_, fun i => ?_, fun i => ?_, hrounds.passed, ?_⟩
  · rw [strncpy, hrun]
    exact hrounds.mem_eq
  · rw [strncpy, hrun, List.mem_cons, hrounds.reads]
    omega
  · rw [strncpy, hrun]
    exact hrounds.writes i
  · rwa [← hrounds.mem_eq]

/-! ## Terminator and bound -/

/-- `strncpy` reads `src` below `len` and up to its terminator, copies the characters that
come before both, terminates `dst` if the terminator comes below `len`, and writes below
`len` only. -/
structure StrncpyRespects (mem : Store 64) (dst src len : U64) : Prop where
  reads_below : ∀ i ∈ (strncpy mem dst src len).2.reads, i < len.toNat
  reads_inside : ∀ i ∈ (strncpy mem dst src len).2.reads,
    ∀ t, (strAt mem src).EndsAt t → i ≤ t
  copies : ∀ i < len.toNat, (∀ t, (strAt mem src).EndsAt t → i < t) →
    strAt (strncpy mem dst src len).2.mem dst i = strAt mem src i
  terminates : ∀ t, (strAt mem src).EndsAt t → t < len.toNat →
    strAt (strncpy mem dst src len).2.mem dst t = 0#8
  writes_below : ∀ i ∈ (strncpy mem dst src len).2.writes, i < len.toNat

theorem copyUp_behind (mem : Store 64) (dst src : U64) {m : ℕ} (hm : m < 2 ^ 64) :
    copyUp mem dst src m (dst + BitVec.ofNat 64 m) = mem (dst + BitVec.ofNat 64 m) :=
  copyUp_outside fun j hj h => Nat.ne_of_gt hj (offset_inj hm (by omega) h)

theorem Copies.eq_length {m t : ℕ} (h : Copies mem dst src len m) (ht : (strAt mem src).EndsAt t)
    (htlen : t < len.toNat) (hapart : dst = src ∨ t < (dst - src).toNat) : m = t := by
  have hlen := len.isLt
  rcases Nat.lt_trichotomy m t with hlt | heq | hlt
  · -- the loop does not stop at a character
    have hzero := h.stop.resolve_left (by omega)
    have hchar := copyUp_ahead mem (Nat.le_refl m) (show m < 2 ^ 64 by omega)
      (hapart.imp_right (Nat.lt_trans hlt))
    exact absurd (hchar.symm.trans hzero) (ht.2 m hlt)
  · exact heq
  · -- nor does it pass the terminator
    have hzero := copyUp_ahead mem (Nat.le_refl t) (show t < 2 ^ 64 by omega) hapart
    exact absurd (hzero.trans ht.1) (h.passed t hlt)

/-- A copy that respects terminator and bound ends at the terminator of `src`, which it
leaves alone, and the byte in its place in `dst` is a zero. -/
theorem StrncpyRespects.ends {m : ℕ} (h : StrncpyRespects mem dst src len)
    (hcopies : Copies mem dst src len m) :
    (strAt mem src).EndsAt m ∧ m < len.toNat ∧ strAt mem dst m = 0#8 ∧
      (dst = src ∨ m < (dst - src).toNat) := by
  have hlen := len.isLt
  have hlast := (hcopies.reads m).mpr (Nat.le_refl m)
  have hbelow := h.reads_below m hlast
  have hstop := hcopies.stop.resolve_left (Nat.ne_of_lt hbelow)
  -- copies write no zeros, so what reads as zero was one before
  have hzero : strAt mem src m = 0#8 := by
    by_contra hne
    exact @copyUp_preserves 64 U8 mem dst src _ m (fun b => b ≠ 0#8) hcopies.passed hne hstop
  have hinside : ∀ j < m, strAt mem src j ≠ 0#8 := by
    intro j
    induction j using Nat.strong_induction_on with
    | _ j ih =>
        intro hj hjzero
        have hends : (strAt mem src).EndsAt j := ⟨hjzero, fun i hi => ih i hi (by omega)⟩
        exact absurd (h.reads_inside m hlast j hends) (Nat.not_le_of_lt hj)
  have hends : (strAt mem src).EndsAt m := ⟨hzero, hinside⟩
  refine ⟨hends, hbelow, ?_, ?_⟩
  · have hterm := h.terminates m hends hbelow
    rw [hcopies.mem_eq] at hterm
    rwa [strAt, copyUp_behind mem dst src (by omega)] at hterm
  · by_contra hover
    obtain ⟨hne, hdist⟩ := not_or.mp hover
    have hpos : (dst - src).toNat ≠ 0 := fun h0 => hne (by bv_omega)
    -- the terminator of `src` was overwritten with a character
    have hmeet := (@offset_eq_iff 64 dst src m (m - (dst - src).toNat) (by omega) (by omega)).mpr
      (by omega)
    have hwritten := @copyUp_get 64 U8 mem dst src (m - (dst - src).toNat) m (by omega) (by omega)
    rw [← hmeet] at hwritten
    exact hcopies.passed _ (by omega) (hwritten.symm.trans hstop)

/-- `strncpy` respects terminator and bound exactly when the terminator of `src` comes below
`len`, `dst` has a zero in its place already, and `dst` does not begin inside `src`. -/
theorem strncpyRespects_iff : StrncpyRespects mem dst src len ↔
    ∃ t, (strAt mem src).EndsAt t ∧ t < len.toNat ∧ strAt mem dst t = 0#8 ∧
      (dst = src ∨ t < (dst - src).toNat) := by
  have hlen := len.isLt
  obtain ⟨m, hcopies⟩ := exists_copies mem dst src len
  constructor
  · exact fun h => ⟨m, h.ends hcopies⟩
  · rintro ⟨t, hends, htlen, hzero, hapart⟩
    obtain rfl := hcopies.eq_length hends htlen hapart
    refine ⟨fun i hi => ?_, fun i hi t' ht' => ?_, fun i _ hbefore => ?_, fun t' ht' _ => ?_,
      fun i hi => ?_⟩
    · exact Nat.lt_of_le_of_lt ((hcopies.reads i).mp hi) htlen
    · rw [← hends.unique ht']
      exact (hcopies.reads i).mp hi
    · have hi := hbefore m hends
      rw [hcopies.mem_eq, strAt, copyUp_get hi (by omega)]
      exact copyUp_ahead mem (Nat.le_refl i) (by omega) (hapart.imp_right (Nat.lt_trans hi))
    · rw [← hends.unique ht', hcopies.mem_eq, strAt, copyUp_behind mem dst src (by omega)]
      exact hzero
    · exact Nat.lt_trans ((hcopies.writes i).mp hi) htlen

end Libkern

end FacelessOS
