import Mathlib.Algebra.Group.Nat.Defs
import Mathlib.Data.Nat.Basic

/-!
# Machine types

The kernel is freestanding x86-64 C: every integer is a fixed-width word, and
unsigned arithmetic wraps. The words keep their C names in the docstrings of
the fields and functions that use them.
-/

namespace FacelessOS

abbrev U8 : Type := BitVec 8
abbrev U16 : Type := BitVec 16
abbrev U32 : Type := BitVec 32
abbrev U64 : Type := BitVec 64

def pageSize : ℕ := 0x1000

def PageAligned (p : U64) : Prop := p.toNat % pageSize = 0

instance (p : U64) : Decidable (PageAligned p) := inferInstanceAs (Decidable (_ = _))

/-- One call of `log`: the format and the register-wide variadic arguments. -/
structure LogCall where
  fmt : String
  args : List U64
deriving DecidableEq, Repr

def dbgPurple : String := "\x1b[0;35m"
def dbgCyan : String := "\x1b[0;36m"
def dbgYellow : String := "\x1b[0;33m"
def dbgRed : String := "\x1b[0;31m"
def kinfo : String := "\x1b[0;32m"

/-! ## Numbers as words -/

theorem toNat_ofNat {w k : ℕ} (hk : k < 2 ^ w) : (BitVec.ofNat w k).toNat = k := by
  rw [BitVec.toNat_ofNat, Nat.mod_eq_of_lt hk]

theorem msb_ofNat {k : ℕ} (hk : k < 2 ^ 31) : (BitVec.ofNat 32 k).msb = false := by
  rw [BitVec.msb_eq_false_iff_two_mul_lt, toNat_ofNat (by omega)]
  omega

theorem toInt_ofNat {k : ℕ} (hk : k < 2 ^ 31) : (BitVec.ofNat 32 k).toInt = k := by
  rw [BitVec.toInt_eq_toNat_of_msb (msb_ofNat hk), toNat_ofNat (by omega)]

theorem slt_ofNat {k n : ℕ} (hk : k < 2 ^ 31) (hn : n < 2 ^ 31) :
    (BitVec.ofNat 32 k).slt (BitVec.ofNat 32 n) = true ↔ k < n := by
  rw [BitVec.slt_iff_toInt_lt, toInt_ofNat hk, toInt_ofNat hn, Int.ofNat_lt]

theorem signExtend_ofNat {k : ℕ} (hk : k < 2 ^ 31) :
    (BitVec.ofNat 32 k).signExtend 64 = BitVec.ofNat 64 k := by
  rw [BitVec.signExtend_eq_setWidth_of_msb_false (msb_ofNat hk)]
  refine BitVec.eq_of_toNat_eq ?_
  rw [BitVec.toNat_setWidth, toNat_ofNat (by omega), BitVec.toNat_ofNat]

end FacelessOS
