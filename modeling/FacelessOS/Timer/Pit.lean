import FacelessOS.Cpu.Lapic
import Mathlib.Algebra.Group.Nat.Defs
import Mathlib.Logic.Function.Iterate

/-!
# Waiting for timer interrupts (`pit.c`, `irq.c`)

`irq0` counts the interrupts of the timer in 32 bits. `pit_sleep` adds the ticks to wait to
the counter, in 32 bits as well, and waits until the counter is not below the sum: so the
wait is as long as was asked for exactly where the counter wraps neither before the end nor
after it, or on the way to both (`pollExact_iff`).
-/

namespace FacelessOS

/-- `irq0`: `pit_ticks` afterwards, and the register writes. -/
def irq0 (pitTicks : U32) : U32 × List SmpEvent := (pitTicks + 1#32, lapicSendEoi)

/-- `e_ticks` of `pit_sleep`: the sum is made in 32 bits and stored in 64. -/
def eTicks (pitTicks nTicks : U32) : U64 := (pitTicks + nTicks).setWidth 64

def pitSleepWaits (eTicks : U64) (pitTicks : U32) : Bool := pitTicks.setWidth 64 < eTicks

def ticksAfter (t : U32) (k : ℕ) : U32 := (fun t => (irq0 t).1)^[k] t

/-- A poll of `pit_sleep(n)`, begun at `t`, after `k` interrupts ends the wait if and only if
these are enough. -/
def PollExact (t n : U32) (k : ℕ) : Prop :=
  pitSleepWaits (eTicks t n) (ticksAfter t k) = false ↔ n.toNat ≤ k

theorem toNat_ticksAfter (t : U32) (k : ℕ) :
    (ticksAfter t k).toNat = (t.toNat + k) % 2 ^ 32 := by
  induction k with
  | zero => rw [ticksAfter, Function.iterate_zero, id, Nat.add_zero, Nat.mod_eq_of_lt t.isLt]
  | succ k ih =>
      have hstep : ticksAfter t (k + 1) = ticksAfter t k + 1#32 :=
        Function.iterate_succ_apply' _ _ _
      have h1 : (1#32).toNat = 1 := rfl
      rw [hstep, BitVec.toNat_add, ih, h1, Nat.mod_add_mod, Nat.add_assoc]

theorem pitSleepWaits_iff (t n : U32) (k : ℕ) :
    pitSleepWaits (eTicks t n) (ticksAfter t k) = false ↔
      (t.toNat + n.toNat) % 2 ^ 32 ≤ (t.toNat + k) % 2 ^ 32 := by
  have hticks := toNat_ticksAfter t k
  have hsum := BitVec.toNat_add t n
  have hmod := Nat.mod_lt (t.toNat + k) (show 0 < 2 ^ 32 by decide)
  unfold pitSleepWaits eTicks
  rw [decide_eq_false_iff_not, BitVec.lt_def, not_lt, BitVec.toNat_setWidth,
    BitVec.toNat_setWidth, hticks, hsum]
  omega

/-- **The poll is exact exactly** where the deadline and the counter have both wrapped, or
neither has. -/
theorem pollExact_iff {t n : U32} {k : ℕ} (hn : n.toNat < 2 ^ 31) (hk : k < 2 ^ 31) :
    PollExact t n k ↔ (t.toNat + n.toNat < 2 ^ 32 ↔ t.toNat + k < 2 ^ 32) := by
  have ht := t.isLt
  unfold PollExact
  rw [pitSleepWaits_iff]
  omega

theorem pollExact_iff_early : PollExact 0xFFFFFF9C#32 10#32 9 :=
  (pollExact_iff (by decide) (by decide)).mpr (by decide)

/-- A wait of 32 ticks that begins 16 ticks before the counter wraps ends at once. -/
theorem pitSleep_ends_early :
    ¬ ∀ (t n : U32) (k : ℕ), n.toNat < 2 ^ 31 → k < 2 ^ 31 → PollExact t n k := by
  intro hclaim
  have hexact := hclaim 0xFFFFFFF0#32 32#32 0 (by decide) (by decide)
  have hends : pitSleepWaits (eTicks 0xFFFFFFF0#32 32#32) (ticksAfter 0xFFFFFFF0#32 0) =
      false := by decide
  exact absurd (hexact.mp hends) (by decide)

end FacelessOS
