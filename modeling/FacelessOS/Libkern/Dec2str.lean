import FacelessOS.Lib.Numeral
import FacelessOS.Libkern.Strings

/-!
# The numeral that `dec2str` returns

The digit loop writes the numeral backwards, as `Numeral.digits` lists it. What the buffer
held before does not matter: `decText` is the string returned (`dec2str_holds`). It is the
canonical numeral of every `int` but the most negative one, which its negation leaves
negative, so that no digit is written (`dec2str_decimal_iff`).
-/

namespace FacelessOS

open Buffer

variable {fuel : ℕ} {buf : Str} {l : List U8}

/-! ## Decimal digits -/

def decGlyph (d : ℕ) : U8 := BitVec.ofNat 8 d + ascii '0'

def decDigits (n : ℕ) : List U8 := Numeral.digits 10 decGlyph n

theorem decGlyph_range {d : ℕ} (hd : d < 10) :
    (decGlyph d).toNat = 48 + d := by
  have h : (BitVec.ofNat 8 d + 48#8).toNat = 48 + d := by bv_omega
  exact h

theorem decStep {v : ℕ} (hv : v < 2 ^ 31) :
    (BitVec.ofNat 32 v).sdiv 10#32 = BitVec.ofNat 32 (v / 10) ∧
    ((BitVec.ofNat 32 v).srem 10#32).setWidth 8 = BitVec.ofNat 8 (v % 10) := by
  have hn : (BitVec.ofNat 32 v).toNat = v := toNat_ofNat (by omega)
  have hmsb := msb_ofNat hv
  have h10 : (10#32).msb = false := rfl
  constructor
  · rw [BitVec.sdiv_eq, hmsb, h10]
    refine BitVec.eq_of_toNat_eq ?_
    rw [BitVec.udiv_eq, BitVec.toNat_udiv, hn, BitVec.toNat_ofNat, BitVec.toNat_ofNat,
      Nat.mod_eq_of_lt (by omega), Nat.mod_eq_of_lt (a := v / 10) (by omega)]
  · rw [BitVec.srem_eq, hmsb, h10]
    refine BitVec.eq_of_toNat_eq ?_
    have hmod : v % 10 < 10 := Nat.mod_lt _ (by omega)
    simp only [BitVec.toNat_setWidth, BitVec.toNat_umod, hn, BitVec.toNat_ofNat]

theorem decLoop_nat {v : ℕ} (hv : v < 2 ^ 31) (hfuel : v < 10 ^ fuel)
    (hroom : l.length + (decDigits v).length < 256) :
    decLoop fuel (BitVec.ofNat 32 v) (written buf l).1 (written buf l).2 =
      written buf (l ++ decDigits v) := by
  induction fuel generalizing v l with
  | zero =>
      have hv0 : v = 0 := by simpa using hfuel
      rw [hv0, decDigits, Numeral.digits_zero, List.append_nil]
      rfl
  | succ fuel ih =>
      rw [decLoop]
      rcases Nat.eq_zero_or_pos v with rfl | hpos
      · rw [if_neg (by decide), decDigits, Numeral.digits_zero, List.append_nil]
      · have hslt : (0#32).slt (BitVec.ofNat 32 v) = true := by
          rw [BitVec.slt_iff_toInt_lt, toInt_ofNat hv]
          exact Int.natCast_pos.mpr hpos
        have hdig : decDigits v = decGlyph (v % 10) :: decDigits (v / 10) :=
          Numeral.digits_pos (by omega) hpos
        rw [hdig, List.length_cons] at hroom
        have hrest := ih (v := v / 10) (l := l ++ [decGlyph (v % 10)]) (by omega)
          (by rw [Nat.pow_succ] at hfuel; omega) (by simp; omega)
        rw [← written_push (by omega), List.append_assoc] at hrest
        rw [if_pos hslt, (decStep hv).1, (decStep hv).2, hdig]
        exact hrest

/-- The loop on any `int`: a negative one has no digits for it. -/
theorem decLoop_eq {number : U32} (hroom : l.length ≤ 240) :
    decLoop 10 number (written buf l).1 (written buf l).2 =
      written buf (l ++ decDigits number.toInt.toNat) := by
  by_cases hpos : 0 < number.toInt
  · have hv : number.toInt.toNat < 2 ^ 31 := by
      have := BitVec.toInt_lt (x := number)
      omega
    have hnum : number = BitVec.ofNat 32 number.toInt.toNat := by
      refine BitVec.eq_of_toInt_eq ?_
      rw [toInt_ofNat hv]
      omega
    have hlen : (decDigits number.toInt.toNat).length ≤ 10 :=
      Numeral.length_digits (by omega) (by omega)
    conv_lhs => rw [hnum]
    exact decLoop_nat hv (by omega) (by omega)
  · have hslt : ¬(0#32).slt number = true := by
      rw [BitVec.slt_iff_toInt_lt]
      exact hpos
    have hzero : number.toInt.toNat = 0 := by omega
    rw [decLoop, if_neg hslt, hzero, decDigits, Numeral.digits_zero, List.append_nil]

/-! ## The decimal text -/

/-- The magnitude whose digits are written: `-number` of a negative `number`, which is
negative still for the most negative one. -/
def decMagnitude (number : U32) : ℕ :=
  (if number.slt 0#32 then -number else number).toInt.toNat

def decWritten (number : U32) : List U8 :=
  (if number = 0#32 then [ascii '0'] else decDigits (decMagnitude number)) ++
    (if number.slt 0#32 then [ascii '-'] else [])

def decText (number : U32) : List U8 := (decWritten number).reverse

theorem zero_not_mem_decDigits {n : ℕ} : 0#8 ∉ decDigits n := by
  intro h
  obtain ⟨d, hd, h0⟩ := Numeral.mem_digits (by omega) h
  have := decGlyph_range hd
  rw [h0, BitVec.toNat_ofNat] at this
  omega

theorem zero_not_mem_decWritten {number : U32} : 0#8 ∉ decWritten number := by
  have h := zero_not_mem_decDigits (n := decMagnitude number)
  have hminus : 0#8 ≠ ascii '-' := by decide
  have hzero : 0#8 ≠ ascii '0' := by decide
  rw [decWritten, List.mem_append]
  rintro (hm | hm)
  · split at hm
    · exact hzero (List.mem_singleton.mp hm)
    · exact h hm
  · split at hm
    · exact hminus (List.mem_singleton.mp hm)
    · cases hm

/-- Something is written: a digit, or the sign of a number that has none. -/
theorem length_decWritten (number : U32) :
    0 < (decWritten number).length ∧ (decWritten number).length ≤ 11 := by
  have hlt := BitVec.toInt_lt (x := if number.slt 0#32 then -number else number)
  have hlen : (decDigits (decMagnitude number)).length ≤ 10 :=
    Numeral.length_digits (by omega) (by rw [decMagnitude]; omega)
  rw [decWritten, List.length_append]
  by_cases hzero : number = 0#32
  · rw [if_pos hzero, hzero]
    decide
  · rw [if_neg hzero]
    by_cases hneg : number.slt 0#32 = true
    · rw [if_pos hneg]
      simp only [List.length_singleton]
      omega
    · have hne : (decDigits (decMagnitude number)).length ≠ 0 := by
        rw [ne_eq, List.length_eq_zero_iff, decDigits, Numeral.digits_eq_nil, decMagnitude,
          if_neg hneg]
        rw [BitVec.slt_iff_toInt_lt] at hneg
        have hnum : number.toInt ≠ 0 := fun h => hzero (BitVec.eq_of_toInt_eq h)
        have : (0#32).toInt = 0 := rfl
        omega
      rw [if_neg hneg]
      simp only [List.length_nil]
      omega

theorem dec2str_holds (decString : Str) (number : U32) :
    (dec2str decString number).Holds (decText number) := by
  obtain ⟨hpos, hlen⟩ := length_decWritten number
  have hholds := @written_holds decString _ zero_not_mem_decWritten hpos (by omega)
  have hloop (n : U32) : decLoop 10 n 0#8 decString = written decString (decDigits n.toInt.toNat) :=
    decLoop_eq (l := []) (Nat.zero_le _)
  by_cases hzero : number = 0#32
  · subst hzero
    exact hholds
  · by_cases hneg : number.slt 0#32 = true
    · have hw : decWritten number = decDigits (-number).toInt.toNat ++ [ascii '-'] := by
        rw [decWritten, if_neg hzero, if_pos hneg, decMagnitude, if_pos hneg]
      rw [hw, List.length_append, List.length_singleton] at hlen
      rw [hw, ← written_push (by omega)] at hholds
      simp only [dec2str, if_neg hzero, hneg, if_true, hloop]
      rw [decText, hw]
      exact hholds
    · have hw : decWritten number = decDigits number.toInt.toNat := by
        rw [decWritten, if_neg hzero, if_neg hneg, decMagnitude, if_neg hneg, List.append_nil]
      rw [hw] at hholds
      simp only [dec2str, if_neg hzero, hneg, hloop]
      rw [decText, hw]
      exact hholds

/-! ## Canonical decimal numerals -/

def decDigit (d : U8) : ℕ := d.toNat - (ascii '0').toNat

/-- The canonical decimal numeral of `n`: a sign exactly when `n` is negative, then digits
without a leading zero, but for `0` itself, that stand for the magnitude of `n`. -/
structure IsDecimal (n : ℤ) (digits : List U8) (text : List U8) : Prop where
  sign : text = (if n < 0 then [ascii '-'] else []) ++ digits
  digit : ∀ d ∈ digits, ascii '0' ≤ d ∧ d ≤ ascii '9'
  nonempty : digits ≠ []
  canonical : digits.head? = some (ascii '0') → digits = [ascii '0']
  value : Numeral.value 10 decDigit digits = n.natAbs

theorem decDigit_decGlyph {d : ℕ} (hd : d < 10) : decDigit (decGlyph d) = d := by
  have h0 : (ascii '0').toNat = 48 := rfl
  rw [decDigit, decGlyph_range hd, h0]
  omega

theorem decGlyph_digit {d : ℕ} (hd : d < 10) :
    ascii '0' ≤ decGlyph d ∧ decGlyph d ≤ ascii '9' := by
  have h := decGlyph_range hd
  have h0 : (ascii '0').toNat = 48 := rfl
  have h9 : (ascii '9').toNat = 57 := rfl
  constructor <;> rw [BitVec.le_def] <;> omega

theorem decDigits_canonical {n : ℕ} (hn : n ≠ 0) :
    (decDigits n).reverse.head? ≠ some (ascii '0') := by
  obtain ⟨d, hd, hne, hhead⟩ := @Numeral.head_digits _ 10 n decGlyph (by omega) hn
  intro h
  rw [decDigits, hhead, Option.some_inj] at h
  have hr := decGlyph_range hd
  rw [h, show (ascii '0').toNat = 48 from rfl] at hr
  omega

theorem decMagnitude_eq {number : U32} (hmin : number ≠ 0x80000000#32) :
    decMagnitude number = number.toInt.natAbs := by
  rw [decMagnitude]
  by_cases hneg : number.slt 0#32 = true
  · rw [if_pos hneg, BitVec.toInt_neg_of_ne_intMin hmin]
    rw [BitVec.slt_iff_toInt_lt] at hneg
    have : (0#32).toInt = 0 := rfl
    omega
  · rw [if_neg hneg]
    rw [BitVec.slt_iff_toInt_lt] at hneg
    have : (0#32).toInt = 0 := rfl
    omega

theorem decText_decimal {number : U32} (hmin : number ≠ 0x80000000#32) :
    ∃ digits, IsDecimal number.toInt digits (decText number) := by
  have hsign : (if number.slt 0#32 = true then [ascii '-'] else []) =
      if number.toInt < 0 then [ascii '-'] else [] := by
    have h0 : (0#32).toInt = 0 := rfl
    simp only [BitVec.slt_iff_toInt_lt, h0]
  by_cases hzero : number = 0#32
  · subst hzero
    exact ⟨[ascii '0'], rfl, by decide, by decide, fun _ => rfl, rfl⟩
  · have hmag : decMagnitude number ≠ 0 := by
      rw [decMagnitude_eq hmin]
      intro h
      exact hzero (BitVec.eq_of_toInt_eq (Int.natAbs_eq_zero.mp h))
    refine ⟨(decDigits (decMagnitude number)).reverse, ?_, ?_, ?_, ?_, ?_⟩
    · rw [decText, decWritten, if_neg hzero, List.reverse_append, ← hsign]
      split <;> rfl
    · intro d hd
      obtain ⟨e, he, rfl⟩ := Numeral.mem_digits (by omega) (List.mem_reverse.mp hd)
      exact decGlyph_digit he
    · rw [ne_eq, List.reverse_eq_nil_iff]
      exact fun h => hmag (Numeral.digits_eq_nil.mp h)
    · exact fun h => absurd h (decDigits_canonical hmag)
    · rw [← decMagnitude_eq hmin]
      exact Numeral.value_digits (by omega) fun d hd => decDigit_decGlyph hd

/-- The most negative number is printed as its sign alone. -/
theorem decText_min : decText 0x80000000#32 = [ascii '-'] := by decide +kernel

theorem not_decimal_min (decString : Str) : ¬ ∃ text digits,
    (dec2str decString 0x80000000#32).Holds text ∧
      IsDecimal (0x80000000#32).toInt digits text := by
  rintro ⟨text, digits, htext, hdec⟩
  have hsign := hdec.sign
  rw [htext.unique (dec2str_holds decString _), decText_min] at hsign
  have hnil : [ascii '-'] = [ascii '-'] ++ digits := hsign
  exact hdec.nonempty (List.self_eq_append_right.mp hnil)

/-- `dec2str` returns the canonical decimal numeral of every `int` but the most negative one. -/
theorem dec2str_decimal_iff (decString : Str) (number : U32) :
    (∃ text digits, (dec2str decString number).Holds text ∧
      IsDecimal number.toInt digits text) ↔ number ≠ 0x80000000#32 := by
  constructor
  · rintro h rfl
    exact not_decimal_min decString h
  · intro hmin
    obtain ⟨digits, hdec⟩ := decText_decimal hmin
    exact ⟨_, digits, dec2str_holds decString number, hdec⟩

/-- `dec2str(-2147483648)` is `"-"`. -/
theorem dec2str_not_decimal : ¬ ∀ (decString : Str) (number : U32), ∃ text digits,
    (dec2str decString number).Holds text ∧ IsDecimal number.toInt digits text :=
  fun h => not_decimal_min (fun _ => 0#8) (h (fun _ => 0#8) 0x80000000#32)

end FacelessOS
