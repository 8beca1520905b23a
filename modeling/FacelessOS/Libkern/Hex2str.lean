import FacelessOS.Lib.Numeral
import FacelessOS.Libkern.Strings
import Mathlib.Tactic.IntervalCases

/-!
# The numeral that `hex2str` returns

As in `dec2str` the digits are written backwards. `hexText` is the string returned, whatever
the buffer held (`hex2str_holds`): `0x` and the hexadecimal digits, with a zero in front of
a single one (`hex2str_hexadecimal`).
-/

namespace FacelessOS

open Buffer

variable {fuel : ℕ} {buf : Str} {l : List U8}

/-! ## Hexadecimal digits -/

def hexDigits (n : ℕ) : List U8 := Numeral.digits 16 asciiNumbers n

theorem hexStep {v : ℕ} (hv : v < 2 ^ 32) :
    ((BitVec.ofNat 32 v).setWidth 8 &&& 0x0F#8).toNat = v % 16 ∧
    BitVec.ofNat 32 v >>> 4 = BitVec.ofNat 32 (v / 16) := by
  have hn : (BitVec.ofNat 32 v).toNat = v := toNat_ofNat hv
  constructor
  · rw [BitVec.toNat_and, BitVec.toNat_setWidth, hn, show (0x0F#8).toNat = 2 ^ 4 - 1 from rfl,
      Nat.and_two_pow_sub_one_eq_mod]
    omega
  · refine BitVec.eq_of_toNat_eq ?_
    rw [BitVec.toNat_ushiftRight, hn, BitVec.toNat_ofNat, Nat.shiftRight_eq_div_pow,
      Nat.mod_eq_of_lt (by omega)]

theorem hexLoop_nat {v : ℕ} (hv : v < 2 ^ 32) (hfuel : v < 16 ^ fuel)
    (hroom : l.length + (hexDigits v).length < 256) :
    hexLoop fuel (BitVec.ofNat 32 v) (written buf l).1 (written buf l).2 =
      written buf (l ++ hexDigits v) := by
  induction fuel generalizing v l with
  | zero =>
      have hv0 : v = 0 := by simpa using hfuel
      rw [hv0, hexDigits, Numeral.digits_zero, List.append_nil]
      rfl
  | succ fuel ih =>
      rw [hexLoop]
      rcases Nat.eq_zero_or_pos v with rfl | hpos
      · rw [if_neg (by decide), hexDigits, Numeral.digits_zero, List.append_nil]
      · have hgt : BitVec.ofNat 32 v > 0#32 := by bv_omega
        have hdig : hexDigits v = asciiNumbers (v % 16) :: hexDigits (v / 16) :=
          Numeral.digits_pos (by omega) hpos
        rw [hdig, List.length_cons] at hroom
        have hrest := ih (v := v / 16) (l := l ++ [asciiNumbers (v % 16)]) (by omega)
          (by rw [Nat.pow_succ] at hfuel; omega) (by simp; omega)
        rw [← written_push (by omega), List.append_assoc] at hrest
        simp only [if_pos hgt, (hexStep hv).1, (hexStep hv).2, hdig]
        exact hrest

theorem hexLoop_eq {hexNum : U32} (hroom : l.length ≤ 240) :
    hexLoop 8 hexNum (written buf l).1 (written buf l).2 =
      written buf (l ++ hexDigits hexNum.toNat) := by
  have hv := hexNum.isLt
  have hlen : (hexDigits hexNum.toNat).length ≤ 8 := Numeral.length_digits (by omega) hv
  have h := @hexLoop_nat 8 buf l _ hv hv (by omega)
  rwa [BitVec.ofNat_toNat, BitVec.setWidth_eq] at h

/-! ## The hexadecimal text -/

def hexWritten (hexNum : U32) : List U8 :=
  (if hexNum = 0#32 then [ascii '0'] else hexDigits hexNum.toNat) ++
    (if hexNum < 0x10#32 then [ascii '0'] else []) ++ [ascii 'x', ascii '0']

def hexText (hexNum : U32) : List U8 := (hexWritten hexNum).reverse

theorem asciiNumbers_range {d : ℕ} (hd : d < 16) :
    asciiNumbers d ∈ bytes "0123456789ABCDEF" ∧ asciiNumbers d ≠ 0#8 ∧
      (asciiNumbers d = ascii '0' → d = 0) := by
  interval_cases d <;> decide

theorem zero_not_mem_hexWritten {hexNum : U32} : 0#8 ∉ hexWritten hexNum := by
  have hzero : 0#8 ≠ ascii '0' := by decide
  have hx : 0#8 ≠ ascii 'x' := by decide
  have hdig : 0#8 ∉ hexDigits hexNum.toNat := by
    intro h
    obtain ⟨d, hd, h0⟩ := Numeral.mem_digits (by omega) h
    exact (asciiNumbers_range hd).2.1 h0
  rw [hexWritten, List.mem_append, List.mem_append]
  rintro ((hm | hm) | hm)
  · split at hm
    · exact hzero (List.mem_singleton.mp hm)
    · exact hdig hm
  · split at hm
    · exact hzero (List.mem_singleton.mp hm)
    · cases hm
  · simp [hx, hzero] at hm

theorem length_hexWritten (hexNum : U32) :
    2 ≤ (hexWritten hexNum).length ∧ (hexWritten hexNum).length ≤ 11 := by
  have hlen : (hexDigits hexNum.toNat).length ≤ 8 :=
    Numeral.length_digits (by omega) hexNum.isLt
  rw [hexWritten, List.length_append, List.length_append]
  split <;> split <;> simp only [List.length_cons, List.length_nil] <;> omega

theorem hex2str_holds (hexString : Str) (hexNum : U32) :
    (hex2str hexString hexNum).Holds (hexText hexNum) := by
  have hlen := length_hexWritten hexNum
  have hholds := @written_holds hexString (hexWritten hexNum) zero_not_mem_hexWritten (by omega) (by omega)
  by_cases hzero : hexNum = 0#32
  · subst hzero
    exact hholds
  · have hloop : hexLoop 8 hexNum 0#8 hexString = written hexString (hexDigits hexNum.toNat) :=
      hexLoop_eq (l := []) (Nat.zero_le _)
    simp only [hex2str, if_neg hzero, hloop]
    by_cases hpad : hexNum < 0x10#32
    · have hw : hexWritten hexNum =
          hexDigits hexNum.toNat ++ [ascii '0'] ++ [ascii 'x'] ++ [ascii '0'] := by
        rw [hexWritten, if_neg hzero, if_pos hpad, List.append_assoc _ [ascii 'x']]
        rfl
      rw [hw] at hlen hholds
      simp only [List.length_append, List.length_singleton] at hlen
      rw [← written_push (by simp only [List.length_append, List.length_singleton]; omega),
        ← written_push (by rw [List.length_append, List.length_singleton]; omega),
        ← written_push (by omega)] at hholds
      rw [if_pos hpad, hexText, hw]
      exact hholds
    · have hw : hexWritten hexNum = hexDigits hexNum.toNat ++ [ascii 'x'] ++ [ascii '0'] := by
        rw [hexWritten, if_neg hzero, if_neg hpad, List.append_nil,
          List.append_assoc _ [ascii 'x']]
        rfl
      rw [hw] at hlen hholds
      simp only [List.length_append, List.length_singleton] at hlen
      rw [← written_push (by rw [List.length_append, List.length_singleton]; omega),
        ← written_push (by omega)] at hholds
      rw [if_neg hpad, hexText, hw]
      exact hholds

/-! ## Hexadecimal numerals -/

def hexDigit (d : U8) : ℕ :=
  if d ≤ ascii '9' then d.toNat - (ascii '0').toNat else d.toNat - (ascii 'A').toNat + 10

/-- The numeral of `n` as `hex2str` pads it: `0x`, then uppercase digits that stand for `n`,
two of them below `0x10` and no leading zero from there on. -/
structure IsHexadecimal (n : ℕ) (digits : List U8) (text : List U8) : Prop where
  leader : text = bytes "0x" ++ digits
  digit : ∀ d ∈ digits, d ∈ bytes "0123456789ABCDEF"
  padded : n < 0x10 → digits.length = 2
  canonical : 0x10 ≤ n → digits ≠ [] ∧ digits.head? ≠ some (ascii '0')
  value : Numeral.value 16 hexDigit digits = n

/-- A text is the numeral of one number at most. -/
theorem IsHexadecimal.unique {n m : ℕ} {ds es text : List U8} (hn : IsHexadecimal n ds text)
    (hm : IsHexadecimal m es text) : n = m := by
  have h : ds = es := List.append_cancel_left (hn.leader.symm.trans hm.leader)
  rw [← hn.value, h, hm.value]

theorem hexDigit_asciiNumbers {d : ℕ} (hd : d < 16) : hexDigit (asciiNumbers d) = d := by
  interval_cases d <;> decide

/-- Below `0x10` there is one digit, for zero as well. -/
theorem hexWritten_short {hexNum : U32} (h : hexNum < 0x10#32) :
    hexWritten hexNum = [asciiNumbers hexNum.toNat, ascii '0', ascii 'x', ascii '0'] := by
  have hlt : hexNum.toNat < 16 := BitVec.lt_def.mp h
  rw [hexWritten, if_pos h]
  by_cases hzero : hexNum = 0#32
  · rw [if_pos hzero, hzero]
    rfl
  · have hpos : 0 < hexNum.toNat := by
      rcases Nat.eq_zero_or_pos hexNum.toNat with h0 | h0
      · exact absurd (BitVec.eq_of_toNat_eq h0) hzero
      · exact h0
    rw [if_neg hzero, hexDigits, Numeral.digits_pos (by omega) hpos, Nat.mod_eq_of_lt hlt,
      Nat.div_eq_of_lt hlt, Numeral.digits_zero]
    rfl

theorem hexText_hexadecimal (hexNum : U32) :
    ∃ digits, IsHexadecimal hexNum.toNat digits (hexText hexNum) := by
  by_cases hshort : hexNum < 0x10#32
  · have hlt : hexNum.toNat < 16 := BitVec.lt_def.mp hshort
    refine ⟨[ascii '0', asciiNumbers hexNum.toNat], ?_, ?_, fun _ => rfl, fun h => by omega, ?_⟩
    · rw [hexText, hexWritten_short hshort]
      rfl
    · intro d hd
      rcases List.mem_pair.mp hd with rfl | rfl
      · decide
      · exact (asciiNumbers_range hlt).1
    · have h0 : hexDigit (ascii '0') = 0 := rfl
      rw [Numeral.value_cons_zero h0, Numeral.value, List.foldl_cons, List.foldl_nil,
        hexDigit_asciiNumbers hlt]
      omega
  · have hge : 0x10 ≤ hexNum.toNat := by
      rw [BitVec.lt_def] at hshort
      exact Nat.le_of_not_lt hshort
    have hzero : hexNum ≠ 0#32 := by
      rintro rfl
      exact absurd hge (by decide)
    refine ⟨(hexDigits hexNum.toNat).reverse, ?_, ?_, fun h => by omega, fun _ => ⟨?_, ?_⟩, ?_⟩
    · rw [hexText, hexWritten, if_neg hzero, if_neg hshort, List.append_nil,
        List.reverse_append]
      rfl
    · intro d hd
      obtain ⟨e, he, rfl⟩ := Numeral.mem_digits (by omega) (List.mem_reverse.mp hd)
      exact (asciiNumbers_range he).1
    · rw [ne_eq, List.reverse_eq_nil_iff, hexDigits, Numeral.digits_eq_nil]
      omega
    · obtain ⟨d, hd, hne, hhead⟩ :=
        @Numeral.head_digits _ 16 hexNum.toNat asciiNumbers (by omega) (by omega)
      rw [hexDigits, hhead]
      intro h
      exact hne ((asciiNumbers_range hd).2.2 (Option.some_inj.mp h))
    · exact Numeral.value_digits (by omega) fun d hd => hexDigit_asciiNumbers hd

theorem hexText_injective {n m : U32} (h : hexText n = hexText m) : n = m := by
  obtain ⟨ds, hds⟩ := hexText_hexadecimal n
  obtain ⟨es, hes⟩ := hexText_hexadecimal m
  exact BitVec.eq_of_toNat_eq (hds.unique (h ▸ hes))

/-- `hex2str` returns the padded hexadecimal numeral of its number, and a different one for
every number, whatever the buffer held. -/
theorem hex2str_hexadecimal (hexString : Str) (hexNum : U32) :
    (∃ text digits, (hex2str hexString hexNum).Holds text ∧
      IsHexadecimal hexNum.toNat digits text) ∧
    ∀ (otherString : Str) (otherNum : U32) (text : List U8),
      (hex2str hexString hexNum).Holds text → (hex2str otherString otherNum).Holds text →
        otherNum = hexNum := by
  constructor
  · obtain ⟨digits, hdig⟩ := hexText_hexadecimal hexNum
    exact ⟨_, digits, hex2str_holds hexString hexNum, hdig⟩
  · intro otherString otherNum text h ho
    have hn := h.unique (hex2str_holds hexString hexNum)
    have ho := ho.unique (hex2str_holds otherString otherNum)
    exact hexText_injective (ho.symm.trans hn)

end FacelessOS
