import Mathlib.Logic.Function.Basic
import Mathlib.Data.Option.Basic
import Mathlib.Data.Nat.Notation

/-!
# Walks that close their gaps

Nodes have one slot each, which is empty or holds another node, and a walk follows the
slots. A gap is closed by `link`: the empty slot gets the node `x`, and at the same time
the slot of the node `z` is emptied, unless it is the one that was filled. What a walk has
passed may break by this at `z` only, and is mended by a link there; `fill` is the state
where it is. So after the first link no walk of a given length meets more than so many
gaps one after another (`walk_fill_link`), and where walks from the root are complete
again, so is what was left of a walk behind its gap (`Kept.rest`).
-/

namespace SlotWalk

variable {T : Type*}

/-- The node that many slots further on. -/
def walk (slot : T → Option T) : ℕ → T → Option T
  | 0, a => some a
  | n + 1, a => (slot a).bind (walk slot n)

variable {slot slot' slot'' : T → Option T} {a b x z : T} {m n k : ℕ}

@[simp] theorem walk_zero : walk slot 0 a = some a := rfl

theorem walk_succ_of_some (h : slot a = some b) : walk slot (n + 1) a = walk slot n b := by
  rw [walk, h, Option.bind_some]

theorem walk_succ_of_none (h : slot a = none) : walk slot (n + 1) a = none := by
  rw [walk, h, Option.bind_none]

theorem walk_add (m n : ℕ) (a : T) :
    walk slot (m + n) a = (walk slot m a).bind (walk slot n) := by
  induction m generalizing a with
  | zero => rw [Nat.zero_add, walk_zero, Option.bind_some]
  | succ m ih =>
      rw [Nat.add_right_comm]
      cases h : slot a with
      | none => rw [walk_succ_of_none h, walk_succ_of_none h, Option.bind_none]
      | some b => rw [walk_succ_of_some h, walk_succ_of_some h, ih]

theorem walk_snoc (h : walk slot m a = some b) : walk slot (m + 1) a = slot b := by
  rw [walk_add, h, Option.bind_some]
  cases hb : slot b with
  | none => rw [walk_succ_of_none hb]
  | some c => rw [walk_succ_of_some hb, walk_zero]

theorem isSome_walk_of_le (hle : m ≤ n) (h : (walk slot n a).isSome) :
    (walk slot m a).isSome := by
  obtain ⟨k, rfl⟩ := Nat.exists_eq_add_of_le hle
  rw [walk_add] at h
  exact Option.isSome_of_isSome_bind h

theorem walk_mono (hkeep : ∀ u v, slot u = some v → slot' u = some v)
    (h : walk slot n a = some b) : walk slot' n a = some b := by
  induction n generalizing a with
  | zero => exact h
  | succ n ih =>
      rw [walk] at h
      obtain ⟨c, hc, h⟩ := Option.bind_eq_some_iff.mp h
      rw [walk_succ_of_some (hkeep a c hc)]
      exact ih h

theorem exists_gap (h : walk slot n a = none) :
    ∃ m < n, ∃ b, walk slot m a = some b ∧ slot b = none := by
  induction n generalizing a with
  | zero => exact absurd h (by simp)
  | succ n ih =>
      cases ha : slot a with
      | none => exact ⟨0, n.succ_pos, a, rfl, ha⟩
      | some c =>
          rw [walk_succ_of_some ha] at h
          obtain ⟨m, hm, b, hwalk, hb⟩ := ih h
          exact ⟨m + 1, by omega, b, by rwa [walk_succ_of_some ha], hb⟩

/-! ## What is kept -/

/-- Filled slots are kept, but for that of `z`, and what is new in a slot is `x`. -/
structure Kept (z x : T) (slot slot' : T → Option T) : Prop where
  keep : ∀ u v, u ≠ z → slot u = some v → slot' u = some v
  fresh : ∀ u, slot u = none ∨ slot u = some x → slot' u = none ∨ slot' u = some x

theorem Kept.refl (z x : T) (slot : T → Option T) : Kept z x slot slot :=
  ⟨fun _ _ _ h => h, fun _ h => h⟩

theorem Kept.trans (h : Kept z x slot slot') (h' : Kept z x slot' slot'') :
    Kept z x slot slot'' :=
  ⟨fun u v hu hv => h'.keep u v hu (h.keep u v hu hv), fun u hu => h'.fresh u (h.fresh u hu)⟩

/-! ## Closing a gap -/

variable [DecidableEq T]

/-- `x` goes into the slot of `t`, and the slot of `z` is emptied before. -/
def link (z x : T) (slot : T → Option T) (t : T) : T → Option T :=
  Function.update (Function.update slot z none) t (some x)

/-- The slots with that of `z` mended. -/
def fill (z x : T) (slot : T → Option T) : T → Option T :=
  Function.update slot z (some x)

/-- The slot of `z` is as `link` leaves it, there or elsewhere. -/
def Reset (z x : T) (slot : T → Option T) : Prop := slot z = none ∨ slot z = some x

theorem link_self (t : T) : link z x slot t t = some x := Function.update_self _ _ _

theorem link_reset (slot : T → Option T) (t : T) : Reset z x (link z x slot t) := by
  unfold Reset link
  by_cases hz : z = t
  · rw [hz, Function.update_self]
    exact Or.inr rfl
  · rw [Function.update_of_ne hz, Function.update_self]
    exact Or.inl rfl

theorem link_of_ne {t u : T} (ht : u ≠ t) (hz : u ≠ z) : link z x slot t u = slot u := by
  unfold link
  rw [Function.update_of_ne ht, Function.update_of_ne hz]

/-- Closing the gap at `z` mends it. -/
theorem link_fill (z x : T) (slot : T → Option T) : link z x slot z = fill z x slot :=
  Function.update_idem _ _ _

theorem fill_of_some (h : slot z = some x) : fill z x slot = slot := by
  unfold fill
  rw [← h, Function.update_eq_self]

theorem slot_le_fill (h : Reset z x slot) (u v : T) (hu : slot u = some v) :
    fill z x slot u = some v := by
  unfold fill
  by_cases huz : u = z
  · subst huz
    rcases h with h | h
    · exact absurd (h.symm.trans hu) (by simp)
    · rw [Function.update_self, ← h, hu]
  · rwa [Function.update_of_ne huz]

theorem walk_fill_link (h : Reset z x slot) (hwalk : walk slot m a = some b)
    (hb : slot b = none) : walk (fill z x (link z x slot b)) (m + 1) a = some x := by
  have hkeep : ∀ u v, slot u = some v → fill z x (link z x slot b) u = some v := by
    intro u v hu
    have hub : u ≠ b := by
      rintro rfl
      exact absurd (hb.symm.trans hu) (by simp)
    have hfill := slot_le_fill h u v hu
    unfold fill at hfill ⊢
    by_cases huz : u = z
    · rwa [huz, Function.update_self] at hfill ⊢
    · rw [Function.update_of_ne huz, link_of_ne hub huz, hu]
  rw [walk_snoc (walk_mono hkeep hwalk)]
  by_cases hbz : b = z
  · subst hbz
    exact Function.update_self _ _ _
  · unfold fill
    rw [Function.update_of_ne hbz, link_self]

theorem le_of_gap (h : Reset z x slot) (hwalk : walk slot m a = some b) (hb : slot b = none)
    (hbz : b ≠ z) (hfill : (walk (fill z x slot) n a).isSome) : n ≤ m := by
  by_contra hlt
  have hnext := isSome_walk_of_le (show m + 1 ≤ n by omega) hfill
  rw [walk_snoc (walk_mono (slot_le_fill h) hwalk)] at hnext
  unfold fill at hnext
  rw [Function.update_of_ne hbz, hb] at hnext
  exact absurd hnext (by simp)

theorem kept_link (hb : slot b = none) : Kept z x slot (link z x slot b) := by
  constructor
  · intro u v huz hu
    rw [link_of_ne (by rintro rfl; exact absurd (hb.symm.trans hu) (by simp)) huz, hu]
  · intro u hu
    by_cases hub : u = b
    · exact Or.inr (by rw [hub, link_self])
    · by_cases huz : u = z
      · rw [huz]
        exact link_reset slot b
      · rwa [link_of_ne hub huz]

theorem kept_update (hb : slot b = none) : Kept z x slot (Function.update slot b (some x)) := by
  constructor
  · intro u v _ hu
    rwa [Function.update_of_ne (by rintro rfl; exact absurd (hb.symm.trans hu) (by simp))]
  · intro u hu
    by_cases hub : u = b
    · exact Or.inr (by rw [hub, Function.update_self])
    · rwa [Function.update_of_ne hub]

/-- Once walks from `a` are complete again, what was left of a walk from `a` behind its
gap at `b` is complete as well. -/
theorem Kept.rest (hkept : Kept z x (link z x slot b) slot') (hwalk : walk slot m a = some b)
    (hb : slot b = none) (hmk : m < k) (hall : (walk slot' k a).isSome) :
    (walk slot' (k - m) b).isSome := by
  induction m generalizing a k with
  | zero =>
      obtain rfl := Option.some.inj hwalk
      exact hall
  | succ m ih =>
      rw [walk] at hwalk
      obtain ⟨c, hc, hwalk⟩ := Option.bind_eq_some_iff.mp hwalk
      obtain ⟨k, rfl⟩ : ∃ j, k = j + 1 := ⟨k - 1, by omega⟩
      have hab : a ≠ b := by
        rintro rfl
        exact absurd (hb.symm.trans hc) (by simp)
      by_cases haz : a = z
      · -- the walk went through `z`: the slots at `z` and at `b` both hold `x` now
        subst haz
        have hslot : slot' a = some x := by
          rcases hkept.fresh a (link_reset slot b) with hnone | hsome
          · rw [walk_succ_of_none hnone] at hall
            exact absurd hall (by simp)
          · exact hsome
        have hslotb := hkept.keep b x (Ne.symm hab) (link_self b)
        rw [walk_succ_of_some hslot] at hall
        rw [show k + 1 - (m + 1) = k - m - 1 + 1 by omega, walk_succ_of_some hslotb]
        exact isSome_walk_of_le (by omega) hall
      · have hslot := hkept.keep a c haz (by rw [link_of_ne hab haz, hc])
        rw [walk_succ_of_some hslot] at hall
        rw [Nat.add_sub_add_right]
        exact ih hwalk (by omega) hall

/-! ## Closing gap after gap -/

/-- The walk of `n` slots from `a` is complete after at most so many links, each at the
gap the walk meets then. -/
inductive Closes (z x : T) (n : ℕ) (a : T) : ℕ → (T → Option T) → Prop where
  | complete {k : ℕ} {slot : T → Option T} : (walk slot n a).isSome → Closes z x n a k slot
  | gap {k m : ℕ} {b : T} {slot : T → Option T} : m < n → walk slot m a = some b →
      slot b = none → Closes z x n a k (link z x slot b) → Closes z x n a (k + 1) slot

theorem Closes.mono {j : ℕ} (h : Closes z x n a k slot) (hle : k ≤ j) :
    Closes z x n a j slot := by
  induction h generalizing j with
  | complete hall => exact .complete hall
  | gap hm hwalk hb _ ih =>
      obtain ⟨j, rfl⟩ := Nat.exists_eq_add_of_le' (Nat.one_le_of_lt hle)
      exact .gap hm hwalk hb (ih (by omega))

theorem closes_of_link
    (h : ∀ m < n, ∀ b, walk slot m a = some b → slot b = none →
      Closes z x n a k (link z x slot b)) : Closes z x n a (k + 1) slot := by
  cases hall : walk slot n a with
  | some c => exact .complete (by rw [hall]; rfl)
  | none =>
      obtain ⟨m, hm, b, hwalk, hb⟩ := exists_gap hall
      exact .gap hm hwalk hb (h m hm b hwalk hb)

/-- All but the last `j` slots of the walk are filled, once that of `z` is mended. -/
structure UpTo (z x : T) (n : ℕ) (a : T) (j : ℕ) (slot : T → Option T) : Prop where
  reset : Reset z x slot
  upTo : (walk (fill z x slot) (n - j) a).isSome

theorem UpTo.link {j : ℕ} (h : UpTo z x n a j slot) (hm : m < n)
    (hwalk : walk slot m a = some b) (hb : slot b = none) (hbz : b ≠ z) :
    ∃ i, j = i + 1 ∧ UpTo z x n a i (link z x slot b) := by
  have hle := le_of_gap h.reset hwalk hb hbz h.upTo
  have hnext : (walk (fill z x (SlotWalk.link z x slot b)) (m + 1) a).isSome := by
    rw [walk_fill_link h.reset hwalk hb]
    rfl
  exact ⟨j - 1, by omega, link_reset _ _, isSome_walk_of_le (by omega) hnext⟩

/-- Once the slot of `z` is mended every link is one of these. -/
theorem UpTo.closes_mended {j : ℕ}
    (hprev : ∀ i, j = i + 1 → ∀ slot, UpTo z x n a i slot → Closes z x n a (2 * i + 1) slot)
    (hz : slot z = some x) (h : UpTo z x n a j slot) : Closes z x n a (2 * j) slot := by
  cases j with
  | zero =>
      refine .complete ?_
      rw [← fill_of_some hz]
      exact h.upTo
  | succ i =>
      refine closes_of_link fun m hm b hwalk hb => ?_
      have hbz : b ≠ z := by
        rintro rfl
        exact absurd (hb.symm.trans hz) (by simp)
      obtain ⟨i', hi', hup⟩ := h.link hm hwalk hb hbz
      obtain rfl := Nat.succ.inj hi'
      exact hprev i rfl _ hup

theorem UpTo.closes {j : ℕ} (h : UpTo z x n a j slot) : Closes z x n a (2 * j + 1) slot := by
  induction j generalizing slot with
  | zero =>
      refine closes_of_link fun m hm b hwalk hb => ?_
      by_cases hbz : b = z
      · subst hbz
        exact .complete (by rw [link_fill]; exact h.upTo)
      · obtain ⟨i, hi, -⟩ := h.link hm hwalk hb hbz
        omega
  | succ j ih =>
      refine closes_of_link fun m hm b hwalk hb => ?_
      by_cases hbz : b = z
      · subst hbz
        have hself : SlotWalk.link b x slot b b = some x := link_self b
        refine UpTo.closes_mended ?_ hself ⟨link_reset _ _, ?_⟩
        · intro i hi slot h
          obtain rfl := Nat.succ.inj hi
          exact ih h
        · rw [fill_of_some hself, link_fill]
          exact h.upTo
      · obtain ⟨i, hi, hup⟩ := h.link hm hwalk hb hbz
        obtain rfl := Nat.succ.inj hi
        exact (ih hup).mono (by omega)

/-- **Every walk is complete after a bounded number of links**, whatever the slots hold. -/
theorem closes (z x : T) (n : ℕ) (a : T) (slot : T → Option T) :
    Closes z x n a (2 * n + 2) slot := by
  refine closes_of_link fun m hm b hwalk hb => UpTo.closes ⟨link_reset _ _, ?_⟩
  rw [Nat.sub_self]
  rfl

end SlotWalk
