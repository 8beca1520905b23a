import Mathlib.Algebra.Group.Nat.Defs
import Mathlib.Data.Nat.Basic
import Mathlib.Logic.Function.Basic

/-!
# Copies that go upwards

`copyUp` copies elements one after the other, the first one first. The source and the
destination may overlap: an element that was copied can be read again further up. What is
written is what the source holds at that moment (`copyUp_get`), and that is what it held at
the start as long as the destination does not begin among the elements passed
(`copyUp_ahead`).
-/

namespace ForwardCopy

variable {w : ℕ} {β : Type*} {m : BitVec w → β} {dst src x : BitVec w} {i j k : ℕ}

/-- Memory after `k` elements were copied. -/
def copyUp (m : BitVec w → β) (dst src : BitVec w) : ℕ → BitVec w → β
  | 0 => m
  | k + 1 => Function.update (copyUp m dst src k) (dst + BitVec.ofNat w k)
      (copyUp m dst src k (src + BitVec.ofNat w k))

theorem offset_inj {p : BitVec w} (hi : i < 2 ^ w) (hj : j < 2 ^ w)
    (h : p + BitVec.ofNat w i = p + BitVec.ofNat w j) : i = j := by
  have hnat := congrArg BitVec.toNat (BitVec.add_right_inj p |>.mp h)
  rwa [BitVec.toNat_ofNat, BitVec.toNat_ofNat, Nat.mod_eq_of_lt hi, Nat.mod_eq_of_lt hj] at hnat

theorem offset_eq_iff (hi : i < 2 ^ w) (hji : j ≤ i) :
    src + BitVec.ofNat w i = dst + BitVec.ofNat w j ↔ (dst - src).toNat = i - j := by
  have hsplit : BitVec.ofNat w i = BitVec.ofNat w (i - j) + BitVec.ofNat w j := by
    rw [← BitVec.ofNat_add, Nat.sub_add_cancel hji]
  have hnat : (BitVec.ofNat w (i - j)).toNat = i - j := by
    rw [BitVec.toNat_ofNat, Nat.mod_eq_of_lt (by omega)]
  rw [hsplit, ← BitVec.add_assoc, BitVec.add_left_inj]
  constructor
  · intro h
    rw [← h, BitVec.add_comm, BitVec.add_sub_cancel, hnat]
  · intro h
    have hdist : BitVec.ofNat w (i - j) = dst - src := BitVec.eq_of_toNat_eq (hnat.trans h.symm)
    rw [hdist, BitVec.add_comm, BitVec.sub_add_cancel]

theorem copyUp_outside (h : ∀ j < k, x ≠ dst + BitVec.ofNat w j) : copyUp m dst src k x = m x := by
  induction k with
  | zero => rfl
  | succ k ih =>
      rw [copyUp, Function.update_of_ne (h k (Nat.lt_succ_self k))]
      exact ih fun j hj => h j (Nat.lt_succ_of_lt hj)

theorem copyUp_get (hjk : j < k) (hk : k ≤ 2 ^ w) :
    copyUp m dst src k (dst + BitVec.ofNat w j) = copyUp m dst src j (src + BitVec.ofNat w j) := by
  induction k with
  | zero => exact absurd hjk (Nat.not_lt_zero j)
  | succ k ih =>
      rw [copyUp]
      rcases Nat.eq_or_lt_of_le (Nat.le_of_lt_succ hjk) with rfl | hlt
      · exact Function.update_self ..
      · rw [Function.update_of_ne fun h => Nat.ne_of_lt hlt (offset_inj (by omega) (by omega) h)]
        exact ih hlt (by omega)

/-- A property of an element is kept by copies of elements that have it. -/
theorem copyUp_preserves {P : β → Prop} (h : ∀ j < k, P (copyUp m dst src j (src + BitVec.ofNat w j)))
    (hx : P (m x)) : P (copyUp m dst src k x) := by
  induction k with
  | zero => exact hx
  | succ k ih =>
      rw [copyUp, Function.update_apply]
      split
      · exact h k (Nat.lt_succ_self k)
      · exact ih fun j hj => h j (Nat.lt_succ_of_lt hj)

theorem copyUp_self : copyUp m dst dst k = m := by
  induction k with
  | zero => rfl
  | succ k ih => rw [copyUp, ih, Function.update_eq_self]

/-- The source ahead is what it was, unless the destination begins among the elements up to
there. -/
theorem copyUp_ahead (m : BitVec w → β) (hk : k ≤ i) (hi : i < 2 ^ w) (hapart : dst = src ∨ i < (dst - src).toNat) :
    copyUp m dst src k (src + BitVec.ofNat w i) = m (src + BitVec.ofNat w i) := by
  rcases hapart with rfl | hapart
  · rw [copyUp_self]
  · refine copyUp_outside fun j hj heq => ?_
    have := (offset_eq_iff hi (by omega)).mp heq
    omega

end ForwardCopy
