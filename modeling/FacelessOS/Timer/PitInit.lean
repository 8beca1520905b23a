import FacelessOS.Basic
import Mathlib.Tactic.IntervalCases

/-!
# Programming the timer (`pit_init` of `pit.c`)

The divisor goes to the timer in two bytes. The timer takes a zero for 65536, so the period
is the quotient that was asked for exactly from 19 Hz to the frequency of the timer itself
(`pitInit_period_iff`).
-/

namespace FacelessOS

structure PortWrite where
  port : U16
  data : U8
deriving DecidableEq, Repr

def pitClockHz : U32 := 1193180

/-- `pit_init`; `none` where the division faults. -/
def pitInit (freqHz : U32) : Option (List PortWrite) :=
  if freqHz = 0#32 then none
  else
    let divisor := pitClockHz / freqHz
    some [⟨0x43, 0x36⟩, ⟨0x40, (divisor &&& 0xFF#32).setWidth 8⟩,
      ⟨0x40, (divisor >>> 8).setWidth 8⟩]

/-! ## The timer -/

/-- Channel 0: the control word, the low byte of a count that waits for its high byte, and
the count. -/
structure PitChannel where
  control : U8
  low : Option U8
  count : U16
deriving DecidableEq, Repr

/-- A store to a port of the timer, which takes counts low byte first. -/
def PitChannel.out (s : PitChannel) (w : PortWrite) : PitChannel :=
  if w.port = 0x43#16 then
    if w.data.extractLsb' 6 2 = 0#2 then { s with control := w.data, low := none } else s
  else if w.port = 0x40#16 then
    match s.low with
    | none => { s with low := some w.data }
    | some low => { s with low := none, count := w.data ++ low }
  else s

/-- The clocks from one interrupt to the next. -/
def PitChannel.period (s : PitChannel) : ℕ := if s.count = 0#16 then 65536 else s.count.toNat

theorem divisor_bytes (divisor : U32) :
    (divisor >>> 8).setWidth 8 ++ (divisor &&& 0xFF#32).setWidth 8 = divisor.setWidth 16 := by
  refine BitVec.eq_of_getLsbD_eq fun i hi => ?_
  simp only [BitVec.getLsbD_append, BitVec.getLsbD_setWidth, BitVec.getLsbD_and,
    BitVec.getLsbD_ushiftRight]
  interval_cases i <;> simp

/-- Whatever the timer did before, `pit_init` leaves the low half of the divisor. -/
theorem out_pitInit {freqHz : U32} {writes : List PortWrite} (h : pitInit freqHz = some writes)
    (s : PitChannel) : writes.foldl PitChannel.out s =
      ⟨0x36, none, (pitClockHz / freqHz).setWidth 16⟩ := by
  unfold pitInit at h
  split at h
  · exact absurd h (by simp)
  · obtain rfl := Option.some.inj h
    rw [← divisor_bytes]
    rfl

theorem pitInit_eq_none {freqHz : U32} : pitInit freqHz = none ↔ freqHz = 0#32 := by
  unfold pitInit
  split
  · next hzero => exact iff_of_true rfl hzero
  · next hpos => exact iff_of_false (by simp) hpos

/-- **The period is the quotient exactly** for these frequencies, whatever the timer was
programmed for before. -/
theorem pitInit_period_iff (freqHz : U32) (s : PitChannel) :
    (∃ writes, pitInit freqHz = some writes ∧
      (writes.foldl PitChannel.out s).period = 1193180 / freqHz.toNat) ↔
    19 ≤ freqHz.toNat ∧ freqHz.toNat ≤ 1193180 := by
  by_cases hzero : freqHz = 0#32
  · refine iff_of_false ?_ ?_
    · rintro ⟨writes, hinit, -⟩
      rw [pitInit_eq_none.mpr hzero] at hinit
      exact absurd hinit (by simp)
    · rw [hzero]
      decide
  obtain ⟨writes, hinit⟩ := Option.ne_none_iff_exists'.mp (mt pitInit_eq_none.mp hzero)
  have hperiod : (∃ writes, pitInit freqHz = some writes ∧
      (writes.foldl PitChannel.out s).period = 1193180 / freqHz.toNat) ↔
      (PitChannel.mk 0x36 none ((pitClockHz / freqHz).setWidth 16)).period =
        1193180 / freqHz.toNat := by
    constructor
    · rintro ⟨writes', hinit', heq⟩
      rwa [out_pitInit hinit'] at heq
    · intro heq
      exact ⟨writes, hinit, by rwa [out_pitInit hinit]⟩
  have hpos : 0 < freqHz.toNat := Nat.pos_of_ne_zero fun h => hzero (BitVec.eq_of_toNat_eq h)
  have hdivisor : (pitClockHz / freqHz).toNat = 1193180 / freqHz.toNat := BitVec.toNat_udiv
  have hcount : ((pitClockHz / freqHz).setWidth 16).toNat = 1193180 / freqHz.toNat % 65536 := by
    rw [BitVec.toNat_setWidth, hdivisor]
  have hcountZero : (pitClockHz / freqHz).setWidth 16 = 0#16 ↔
      1193180 / freqHz.toNat % 65536 = 0 := by
    rw [← hcount, BitVec.toNat_eq]
    rfl
  rw [hperiod, PitChannel.period, hcount]
  simp only [hcountZero]
  -- the quotient is in the range of the counter for these frequencies
  constructor
  · intro heq
    have hrange : 1193180 / freqHz.toNat ≤ 65536 ∧ 0 < 1193180 / freqHz.toNat := by
      split at heq
      · omega
      · omega
    obtain ⟨hle, hlt⟩ := hrange
    have hmul := (Nat.div_lt_iff_lt_mul hpos).mp (Nat.lt_succ_of_le hle)
    have hge := (Nat.le_div_iff_mul_le hpos).mp (Nat.succ_le_of_lt hlt)
    omega
  · rintro ⟨hlow, hhigh⟩
    have hle := Nat.div_le_div_left (a := 1193180) hlow (by decide)
    have hge := Nat.div_pos hhigh hpos
    rw [if_neg (by omega)]
    omega

end FacelessOS
