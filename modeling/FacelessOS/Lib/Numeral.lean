import Mathlib.Data.Nat.Digits.Lemmas

/-!
# Positional numerals

The digits of a number in base `b`, least significant first, each written as a glyph
(`digits`), and the value of a numeral that is read from its most significant glyph on
(`value`). Reading what was written gives the number back (`value_digits`), and the numeral
of a number other than zero does not start with the glyph of zero (`head_digits`).
-/

namespace Numeral

variable {α : Type*} {b n : ℕ} {glyph : ℕ → α} {val : α → ℕ}

/-- The glyphs of `n` in base `b`, least significant first. -/
def digits (b : ℕ) (glyph : ℕ → α) (n : ℕ) : List α := (Nat.digits b n).map glyph

/-- What a numeral stands for, its most significant glyph first. -/
def value (b : ℕ) (val : α → ℕ) (l : List α) : ℕ := l.foldl (fun v a => b * v + val a) 0

@[simp] theorem digits_zero : digits b glyph 0 = [] := by simp [digits]

theorem digits_pos (hb : 1 < b) (hn : 0 < n) :
    digits b glyph n = glyph (n % b) :: digits b glyph (n / b) := by
  rw [digits, Nat.digits_def' hb hn]
  rfl

theorem digits_eq_nil : digits b glyph n = [] ↔ n = 0 := by
  rw [digits, List.map_eq_nil_iff, Nat.digits_eq_nil_iff_eq_zero]

theorem length_digits {k : ℕ} (hb : 1 < b) (hn : n < b ^ k) : (digits b glyph n).length ≤ k := by
  rw [digits, List.length_map]
  exact (Nat.digits_length_le_iff hb n).mpr hn

theorem mem_digits {a : α} (hb : 1 < b) (h : a ∈ digits b glyph n) : ∃ d < b, glyph d = a := by
  obtain ⟨d, hd, rfl⟩ := List.mem_map.mp h
  exact ⟨d, Nat.digits_lt_base hb hd, rfl⟩

theorem head_digits (hb : 1 < b) (hn : n ≠ 0) :
    ∃ d < b, d ≠ 0 ∧ (digits b glyph n).reverse.head? = some (glyph d) := by
  have hne : Nat.digits b n ≠ [] := fun h => hn (Nat.digits_eq_nil_iff_eq_zero.mp h)
  refine ⟨(Nat.digits b n).getLast hne, Nat.digits_lt_base hb (List.getLast_mem hne),
    Nat.getLast_digit_ne_zero b hn, ?_⟩
  rw [List.head?_reverse, digits, List.getLast?_map, List.getLast?_eq_getLast_of_ne_nil hne]
  rfl

/-! ## Values -/

theorem value_reverse (l : List α) : value b val l.reverse = Nat.ofDigits b (l.map val) := by
  induction l with
  | nil => rfl
  | cons a l ih =>
      rw [value] at ih ⊢
      rw [List.reverse_cons, List.foldl_append, List.foldl_cons, List.foldl_nil, ih, List.map_cons,
        Nat.ofDigits_cons, Nat.add_comm]

theorem value_digits (hb : 1 < b) (hval : ∀ d < b, val (glyph d) = d) :
    value b val (digits b glyph n).reverse = n := by
  have hmap : (digits b glyph n).map val = Nat.digits b n := by
    rw [digits, List.map_map]
    refine (List.map_congr_left fun d hd => ?_).trans (List.map_id _)
    exact hval d (Nat.digits_lt_base hb hd)
  rw [value_reverse, hmap, Nat.ofDigits_digits]

theorem value_cons_zero {a : α} {l : List α} (ha : val a = 0) :
    value b val (a :: l) = value b val l := by
  rw [value, List.foldl_cons, ha, Nat.mul_zero]
  rfl

end Numeral
