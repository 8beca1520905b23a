import Mathlib.Data.List.Induction

/-!
# The last write

A cell of a state that some operations write, and that the others leave alone, holds after a
run what the last of the writes put into it (`foldl_last`).
-/

namespace LastWrite

variable {σ ω α : Type*}

/-- The last operation of this kind. -/
def last (p : ω → Bool) (ops : List ω) : Option ω := (ops.filter p).getLast?

theorem last_concat (p : ω → Bool) (ops : List ω) (op : ω) :
    last p (ops ++ [op]) = if p op then some op else last p ops := by
  unfold last
  rw [List.filter_append]
  cases hop : p op with
  | true =>
      rw [List.filter_cons_of_pos hop, List.filter_nil, if_pos rfl]
      exact List.getLast?_concat
  | false =>
      rw [List.filter_cons_of_neg (Bool.eq_false_iff.mp hop), List.filter_nil, List.append_nil,
        if_neg Bool.false_ne_true]

/-- **The last write wins.** -/
theorem foldl_last {step : σ → ω → σ} {g : σ → α} {p : ω → Bool} {v : ω → α}
    (hset : ∀ s op, g (step s op) = if p op then v op else g s) (s : σ) (ops : List ω) :
    g (ops.foldl step s) = ((last p ops).map v).getD (g s) := by
  induction ops using List.reverseRecOn with
  | nil => rfl
  | append_singleton ops op ih =>
      rw [List.foldl_append, List.foldl_cons, List.foldl_nil, hset, last_concat]
      cases hop : p op with
      | true => rfl
      | false =>
          rw [if_neg Bool.false_ne_true, if_neg Bool.false_ne_true]
          exact ih

end LastWrite
