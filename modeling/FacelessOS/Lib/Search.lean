import Mathlib.Algebra.Group.Nat.Defs
import Mathlib.Data.Nat.Basic

/-!
# Searches by a counting loop

`for (i = 0; i < bound; ++i)` with a machine counter and a body that may return, over a
state that the body may change. As long as the counter is wide enough for the bound and
what a round returns depends on the counter alone, the loop returns what the first round
does that returns at all (`forLoop_eq_first`, `first_eq_some`, `first_eq_none`).
-/

namespace Search

variable {σ ρ : Type*} {w : ℕ}

/-- The loop from counter `i` on, in at most this many rounds. -/
def forLoop (bound : ℕ) (body : BitVec w → σ → Option ρ × σ) :
    ℕ → BitVec w → σ → Option ρ × σ
  | 0, _, s => (none, s)
  | fuel + 1, i, s =>
      if i.toNat < bound then
        match body i s with
        | (some r, s) => (some r, s)
        | (none, s) => forLoop bound body fuel (i + 1#w) s
      else (none, s)

def firstFrom (hit : BitVec w → Option ρ) : ℕ → ℕ → Option ρ
  | 0, _ => none
  | n + 1, i => (hit (BitVec.ofNat w i)).or (firstFrom hit n (i + 1))

def first (bound : ℕ) (hit : BitVec w → Option ρ) : Option ρ := firstFrom hit bound 0

variable {bound : ℕ} {body : BitVec w → σ → Option ρ × σ} {hit : BitVec w → Option ρ}

theorem forLoop_eq_firstFrom (Inv : σ → Prop) (hbound : bound < 2 ^ w)
    (hbody : ∀ i s, i.toNat < bound → Inv s → (body i s).1 = hit i ∧ Inv (body i s).2)
    {fuel n : ℕ} {i : BitVec w} {s : σ} (hn : i.toNat + n = bound) (hfuel : n ≤ fuel)
    (hs : Inv s) :
    (forLoop bound body fuel i s).1 = firstFrom hit n i.toNat ∧
      Inv (forLoop bound body fuel i s).2 := by
  induction fuel generalizing n i s with
  | zero =>
      obtain rfl : n = 0 := Nat.le_zero.mp hfuel
      exact ⟨rfl, hs⟩
  | succ fuel ih =>
      rw [forLoop]
      cases n with
      | zero =>
          rw [if_neg (by omega)]
          exact ⟨rfl, hs⟩
      | succ n =>
          obtain ⟨hhit, hinv⟩ := hbody i s (by omega) hs
          rw [if_pos (by omega), firstFrom, BitVec.ofNat_toNat, BitVec.setWidth_eq, ← hhit]
          cases hb : body i s with
          | mk result s' =>
              rw [hb] at hinv
              cases result with
              | some r => exact ⟨rfl, hinv⟩
              | none =>
                  have hi : (i + 1#w).toNat = i.toNat + 1 := by
                    rw [BitVec.toNat_add, BitVec.toNat_ofNat, Nat.mod_eq_of_lt (a := 1) (by omega),
                      Nat.mod_eq_of_lt (by omega)]
                  have := ih (n := n) (i := i + 1#w) (by omega) (by omega) hinv
                  rwa [hi] at this

/-- The loop returns the first result and keeps the invariant of the state. -/
theorem forLoop_eq_first (Inv : σ → Prop) (hbound : bound < 2 ^ w)
    (hbody : ∀ i s, i.toNat < bound → Inv s → (body i s).1 = hit i ∧ Inv (body i s).2)
    {fuel : ℕ} {s : σ} (hfuel : bound ≤ fuel) (hs : Inv s) :
    (forLoop bound body fuel 0#w s).1 = first bound hit ∧ Inv (forLoop bound body fuel 0#w s).2 := by
  have hzero : (0#w).toNat = 0 := by rw [BitVec.toNat_ofNat, Nat.zero_mod]
  have := forLoop_eq_firstFrom Inv hbound hbody (i := 0#w) (by rw [hzero, Nat.zero_add]) hfuel hs
  rwa [hzero] at this

/-! ## The first result -/

theorem firstFrom_eq_none {n i : ℕ} :
    firstFrom hit n i = none ↔ ∀ k, i ≤ k → k < i + n → hit (BitVec.ofNat w k) = none := by
  induction n generalizing i with
  | zero => exact iff_of_true rfl fun k hk hlt => by omega
  | succ n ih =>
      rw [firstFrom, Option.or_eq_none_iff, ih]
      constructor
      · rintro ⟨hi, hrest⟩ k hk hlt
        rcases Nat.eq_or_lt_of_le hk with rfl | hk
        · exact hi
        · exact hrest k hk (by omega)
      · exact fun h => ⟨h i (Nat.le_refl _) (by omega), fun k hk hlt => h k (by omega) (by omega)⟩

theorem firstFrom_eq_some {n i : ℕ} {r : ρ} (h : firstFrom hit n i = some r) :
    ∃ k, i ≤ k ∧ k < i + n ∧ hit (BitVec.ofNat w k) = some r ∧
      ∀ j, i ≤ j → j < k → hit (BitVec.ofNat w j) = none := by
  induction n generalizing i with
  | zero => cases h
  | succ n ih =>
      rw [firstFrom] at h
      cases hi : hit (BitVec.ofNat w i) with
      | some r' =>
          rw [hi] at h
          exact ⟨i, Nat.le_refl _, by omega, hi.trans h, fun j hj hlt => by omega⟩
      | none =>
          rw [hi] at h
          obtain ⟨k, hk, hlt, hr, hnone⟩ := ih h
          refine ⟨k, by omega, by omega, hr, fun j hj hjk => ?_⟩
          rcases Nat.eq_or_lt_of_le hj with rfl | hj
          · exact hi
          · exact hnone j hj hjk

theorem first_eq_none (hbound : bound ≤ 2 ^ w) :
    first bound hit = none ↔ ∀ k : BitVec w, k.toNat < bound → hit k = none := by
  rw [first, firstFrom_eq_none]
  constructor
  · intro h k hk
    have := h k.toNat (Nat.zero_le _) (by omega)
    rwa [BitVec.ofNat_toNat, BitVec.setWidth_eq] at this
  · intro h k _ hk
    refine h _ ?_
    rw [BitVec.toNat_ofNat, Nat.mod_eq_of_lt (by omega)]
    omega

theorem first_eq_some (hbound : bound ≤ 2 ^ w) {r : ρ} (h : first bound hit = some r) :
    ∃ k : BitVec w, k.toNat < bound ∧ hit k = some r ∧ ∀ j, j < k → hit j = none := by
  obtain ⟨k, _, hk, hr, hnone⟩ := firstFrom_eq_some h
  have hkn : (BitVec.ofNat w k).toNat = k := by
    rw [BitVec.toNat_ofNat, Nat.mod_eq_of_lt (by omega)]
  refine ⟨BitVec.ofNat w k, by omega, hr, fun j hj => ?_⟩
  have := hnone j.toNat (Nat.zero_le _) (by rw [BitVec.lt_def] at hj; omega)
  rwa [BitVec.ofNat_toNat, BitVec.setWidth_eq] at this

end Search
