import Mathlib.Data.List.Basic
import Mathlib.Logic.Function.Basic

/-!
# Buffers and terminated strings

A buffer holds an element under every index. Three things are done to it: elements are
written one after the other (`writeFrom`), two are swapped, and the part between two
indices is reversed by swapping its ends until they meet (`reverse`).

A string lies in a buffer from an offset up to a terminator that is none of its
elements (`HoldsAt`). At most one string lies at an offset (`HoldsAt.unique`), and a string
that was written backwards lies there forwards after `reverse` (`holdsAt_reverse`).
-/

namespace Buffer

variable {α : Type*} {s : ℕ → α} {l r : List α} {i j k p : ℕ} {z : α}

/-! ## Writing -/

def writeFrom : (ℕ → α) → ℕ → List α → ℕ → α
  | s, _, [] => s
  | s, i, a :: l => writeFrom (Function.update s i a) (i + 1) l

theorem writeFrom_append :
    writeFrom s i (l ++ r) = writeFrom (writeFrom s i l) (i + l.length) r := by
  induction l generalizing s i with
  | nil => rfl
  | cons a l ih =>
      rw [List.cons_append, writeFrom, ih, List.length_cons, Nat.add_right_comm, Nat.add_assoc]
      rfl

theorem writeFrom_concat {a : α} :
    writeFrom s i (l ++ [a]) = Function.update (writeFrom s i l) (i + l.length) a := by
  rw [writeFrom_append]
  rfl

theorem writeFrom_outside (h : k < i ∨ i + l.length ≤ k) : writeFrom s i l k = s k := by
  induction l generalizing s i with
  | nil => rfl
  | cons a l ih =>
      rw [List.length_cons] at h
      rw [writeFrom, ih (by omega), Function.update_of_ne (by omega)]

theorem writeFrom_get (h : k < l.length) : writeFrom s i l (i + k) = l[k] := by
  induction l generalizing s i k with
  | nil => exact absurd h (Nat.not_lt_zero _)
  | cons a l ih =>
      cases k with
      | zero =>
          rw [writeFrom, writeFrom_outside (by omega)]
          exact Function.update_self ..
      | succ k =>
          have htail := ih (s := Function.update s i a) (i := i + 1) (Nat.lt_of_succ_lt_succ h)
          rw [writeFrom, show i + (k + 1) = i + 1 + k by omega, htail]
          rfl

/-! ## Reversing in place -/

/-- `temp = s[j]; s[j] = s[i]; s[i] = temp;` -/
def swap (s : ℕ → α) (j i : ℕ) : ℕ → α :=
  Function.update (Function.update s j (s i)) i (s j)

theorem swap_get : swap s j i k = if k = i then s j else if k = j then s i else s k := by
  rw [swap]
  split
  · rename_i hk
    rw [hk, Function.update_self]
  · rename_i hk
    rw [Function.update_of_ne hk]
    split
    · rename_i hj
      rw [hj, Function.update_self]
    · rename_i hj
      rw [Function.update_of_ne hj]

/-- `for (; j < i; j++, i--)` swap the two. -/
def reverse : ℕ → ℕ → ℕ → (ℕ → α) → ℕ → α
  | 0, _, _, s => s
  | fuel + 1, j, i, s => if j < i then reverse fuel (j + 1) (i - 1) (swap s j i) else s

/-- Between the two indices the buffer is mirrored, outside it is what it was. -/
theorem reverse_get {fuel : ℕ} (hfuel : i ≤ j + fuel) :
    reverse fuel j i s k = if j ≤ k ∧ k ≤ i then s (j + i - k) else s k := by
  induction fuel generalizing j i s with
  | zero =>
      rw [reverse]
      split
      · rename_i hk
        rw [show j + i - k = k by omega]
      · rfl
  | succ fuel ih =>
      rw [reverse]
      by_cases hji : j < i
      · rw [if_pos hji, ih (by omega)]
        by_cases hin : j + 1 ≤ k ∧ k ≤ i - 1
        · rw [if_pos hin, if_pos ⟨by omega, by omega⟩, swap_get, if_neg (by omega),
            if_neg (by omega), show j + 1 + (i - 1) - k = j + i - k by omega]
        · -- an end, or outside
          rw [if_neg hin, swap_get]
          by_cases hi : k = i
          · rw [if_pos hi, if_pos ⟨by omega, by omega⟩, hi, Nat.add_sub_cancel]
          · rw [if_neg hi]
            by_cases hj : k = j
            · rw [if_pos hj, if_pos ⟨by omega, by omega⟩, hj, Nat.add_sub_cancel_left]
            · rw [if_neg hj, if_neg (by omega)]
      · rw [if_neg hji]
        split
        · rw [show j + i - k = k by omega]
        · rfl

/-! ## Terminated strings -/

/-- From offset `p` on lie the elements of the list, then the terminator `z`. -/
def HoldsAt (z : α) (s : ℕ → α) : ℕ → List α → Prop
  | p, [] => s p = z
  | p, a :: l => s p = a ∧ a ≠ z ∧ HoldsAt z s (p + 1) l

instance decidableHoldsAt [DecidableEq α] (z : α) (s : ℕ → α) :
    (p : ℕ) → (l : List α) → Decidable (HoldsAt z s p l)
  | p, [] => inferInstanceAs (Decidable (s p = z))
  | p, a :: l =>
      have := decidableHoldsAt z s (p + 1) l
      inferInstanceAs (Decidable (s p = a ∧ a ≠ z ∧ HoldsAt z s (p + 1) l))

theorem holdsAt_iff : HoldsAt z s p l ↔
    (∀ k (hk : k < l.length), s (p + k) = l[k]) ∧ s (p + l.length) = z ∧ z ∉ l := by
  induction l generalizing p with
  | nil => simp [HoldsAt]
  | cons a l ih =>
      rw [HoldsAt, ih]
      constructor
      · rintro ⟨ha, hne, hl, hz, hmem⟩
        refine ⟨fun k hk => ?_, ?_, ?_⟩
        · cases k with
          | zero => exact ha
          | succ k =>
              rw [show p + (k + 1) = p + 1 + k by omega]
              exact hl k (Nat.lt_of_succ_lt_succ hk)
        · rw [← hz, List.length_cons, Nat.add_assoc, Nat.add_comm 1]
        · rintro (_ | ⟨_, h⟩)
          · exact hne rfl
          · exact hmem h
      · rintro ⟨hl, hz, hmem⟩
        refine ⟨hl 0 (Nat.zero_lt_succ _), fun h => hmem (h ▸ List.mem_cons_self), fun k hk => ?_,
          ?_, fun h => hmem (List.mem_cons_of_mem _ h)⟩
        · have := hl (k + 1) (Nat.succ_lt_succ hk)
          rwa [List.getElem_cons_succ, Nat.add_comm k 1, ← Nat.add_assoc] at this
        · rwa [List.length_cons, Nat.add_comm l.length, ← Nat.add_assoc] at hz

/-- At most one string lies at an offset. -/
theorem HoldsAt.unique (h : HoldsAt z s p l) (hr : HoldsAt z s p r) : l = r := by
  induction l generalizing p r with
  | nil =>
      cases r with
      | nil => rfl
      | cons b r => exact absurd (hr.1 ▸ h) hr.2.1
  | cons a l ih =>
      cases r with
      | nil => exact absurd (h.1 ▸ hr) h.2.1
      | cons b r => rw [← h.1, ← hr.1, ih h.2.2 hr.2.2]

/-- Two strings agree on their first `n` elements when they do wherever neither has ended
before. -/
theorem HoldsAt.take_eq_iff {s' : ℕ → α} {n : ℕ} (h : HoldsAt z s p l) (hr : HoldsAt z s' p r) :
    l.take n = r.take n ↔ ∀ k < n, k ≤ l.length → k ≤ r.length → s (p + k) = s' (p + k) := by
  induction l generalizing p r n with
  | nil =>
      cases r with
      | nil =>
          refine iff_of_true rfl fun k _ hk _ => ?_
          rw [Nat.le_zero.mp hk]
          exact Eq.trans h hr.symm
      | cons b r =>
          cases n with
          | zero => exact iff_of_true rfl fun k hk => absurd hk (Nat.not_lt_zero k)
          | succ n =>
              refine iff_of_false (List.cons_ne_nil _ _).symm fun hall => hr.2.1 ?_
              have := hall 0 (Nat.succ_pos n) (Nat.le_refl 0) (Nat.zero_le _)
              exact hr.1.symm.trans (this.symm.trans h)
  | cons a l ih =>
      cases n with
      | zero => exact iff_of_true rfl fun k hk => absurd hk (Nat.not_lt_zero k)
      | succ n =>
          cases r with
          | nil =>
              refine iff_of_false (List.cons_ne_nil _ _) fun hall => h.2.1 ?_
              have := hall 0 (Nat.succ_pos n) (Nat.zero_le _) (Nat.le_refl 0)
              exact h.1.symm.trans (this.trans hr)
          | cons b r =>
              rw [List.take_succ_cons, List.take_succ_cons, List.cons.injEq, ih h.2.2 hr.2.2]
              constructor
              · rintro ⟨rfl, hall⟩ k hk hl hr'
                cases k with
                | zero => exact h.1.trans hr.1.symm
                | succ k =>
                    rw [show p + (k + 1) = p + 1 + k by omega]
                    exact hall k (Nat.lt_of_succ_lt_succ hk) (Nat.le_of_succ_le_succ hl)
                      (Nat.le_of_succ_le_succ hr')
              · intro hall
                refine ⟨h.1.symm.trans ((hall 0 (Nat.succ_pos n) (Nat.zero_le _)
                  (Nat.zero_le _)).trans hr.1), fun k hk hl hr' => ?_⟩
                rw [show p + 1 + k = p + (k + 1) by omega]
                exact hall (k + 1) (Nat.succ_lt_succ hk) (Nat.succ_le_succ hl)
                  (Nat.succ_le_succ hr')

theorem le_length_of_take_eq {n : ℕ} (h : l.take n = r.take n) (hne : l ≠ r) :
    n ≤ l.length ∧ n ≤ r.length := by
  have hlen := congrArg List.length h
  rw [List.length_take, List.length_take] at hlen
  by_contra hshort
  refine hne ?_
  rwa [List.take_of_length_le (by omega), List.take_of_length_le (by omega)] at h

theorem split_unique {P : α → Prop} {l l' r r' : List α} {t t' : α} (ht : P t) (ht' : P t')
    (hl : ∀ u ∈ l, ¬ P u) (hl' : ∀ u ∈ l', ¬ P u) (h : l ++ t :: r = l' ++ t' :: r') :
    l = l' ∧ t = t' ∧ r = r' := by
  induction l generalizing l' with
  | nil =>
      cases l' with
      | nil => exact ⟨rfl, List.cons.inj h⟩
      | cons a l' => exact absurd ((List.cons.inj h).1 ▸ ht) (hl' a List.mem_cons_self)
  | cons a l ih =>
      cases l' with
      | nil => exact absurd ((List.cons.inj h).1 ▸ ht') (hl a List.mem_cons_self)
      | cons b l' =>
          obtain ⟨rfl, htail⟩ := List.cons.inj h
          obtain ⟨rfl, hrest⟩ := ih (fun u hu => hl u (List.mem_cons_of_mem _ hu))
            (fun u hu => hl' u (List.mem_cons_of_mem _ hu)) htail
          exact ⟨rfl, hrest⟩

theorem append_cons_cancel {l l' r r' : List α} (hl : z ∉ l) (hl' : z ∉ l')
    (h : l ++ z :: r = l' ++ z :: r') : l = l' ∧ r = r' := by
  obtain ⟨hpre, -, hrest⟩ := split_unique (P := fun u => u = z) rfl rfl
    (fun u hu hz => hl (hz ▸ hu)) (fun u hu hz => hl' (hz ▸ hu)) h
  exact ⟨hpre, hrest⟩

theorem holdsAt_writeFrom (hz : z ∉ l) : HoldsAt z (writeFrom s p (l ++ [z])) p l := by
  rw [holdsAt_iff]
  refine ⟨fun k hk => ?_, ?_, hz⟩
  · rw [writeFrom_get (by simp; omega), List.getElem_append_left hk]
  · rw [writeFrom_get (by simp), List.getElem_concat_length rfl]

/-- A string written backwards, terminated and then reversed in place. -/
theorem holdsAt_reverse {fuel : ℕ} (hz : z ∉ l) (hfuel : l.length ≤ fuel + 1) :
    HoldsAt z (reverse fuel 0 (l.length - 1) (writeFrom s 0 (l ++ [z]))) 0 l.reverse := by
  have hl := holdsAt_iff.mp (holdsAt_writeFrom (s := s) (p := 0) hz)
  rw [holdsAt_iff]
  refine ⟨fun k hk => ?_, ?_, by simpa using hz⟩
  · rw [List.length_reverse] at hk
    rw [reverse_get (by omega), if_pos (by omega), List.getElem_reverse, ← hl.1 _ (by omega)]
    congr 1
    omega
  · rcases List.eq_nil_or_concat l with rfl | ⟨l, a, rfl⟩
    · rw [reverse_get (by simp)]
      simp [writeFrom]
    · rw [List.length_reverse, reverse_get (by omega), if_neg (by simp), hl.2.1]

end Buffer
