import Mathlib.Data.List.Induction
import Mathlib.Data.Option.Basic

/-!
# Radix trees over partial child maps

A radix tree of depth `d` is given by a root node and a partial map `child`
from a node and an index to the node below. Nodes are found by following a list
of indices. The tree shape is one statement: two paths of length at most `d`
that reach the same node are the same path. Two edits are described:

* *relabelling* (`follow_congr`): the child map of every reached node stays as
  it was, so every path reaches what it reached before;
* *linking* (`follow_link`): a fresh childless node is hung into one empty slot,
  so exactly one path is new.
-/

namespace RadixTree

variable {N I : Type*} (child : N → I → Option N)

/-- The node reached from `r` along a list of indices. -/
def follow (r : N) : List I → Option N
  | [] => some r
  | i :: is => (child r i).bind fun t => follow t is

def Reached (r : N) (d : ℕ) (n : N) : Prop :=
  ∃ q : List I, q.length ≤ d ∧ follow child r q = some n

/-- Paths of length at most `d` that reach one node are one path. -/
def TreeShaped (r : N) (d : ℕ) : Prop :=
  ∀ p q : List I, p.length ≤ d → q.length ≤ d →
    ∀ n, follow child r p = some n → follow child r q = some n → p = q

variable {child} {child' : N → I → Option N} {r : N} {d : ℕ}

@[simp] theorem follow_nil : follow child r [] = some r := rfl

theorem follow_append (p q : List I) :
    follow child r (p ++ q) =
      (follow child r p).bind fun t => follow child t q := by
  induction p generalizing r with
  | nil => rfl
  | cons i is ih =>
      rw [List.cons_append, follow, follow]
      cases child r i with
      | none => rfl
      | some t => exact ih

theorem follow_snoc (p : List I) (i : I) :
    follow child r (p ++ [i]) = (follow child r p).bind fun t => child t i := by
  rw [follow_append]
  cases follow child r p with
  | none => rfl
  | some t => cases h : child t i <;> simp [follow, h]

theorem follow_snoc_some {p : List I} {i : I} {n : N} :
    follow child r (p ++ [i]) = some n ↔
      ∃ t, follow child r p = some t ∧ child t i = some n := by
  rw [follow_snoc, Option.bind_eq_some_iff]

theorem TreeShaped.eq_path (h : TreeShaped child r d) {p q : List I} {n : N}
    (hp : p.length ≤ d) (hq : q.length ≤ d) (hpn : follow child r p = some n)
    (hqn : follow child r q = some n) : p = q :=
  h p q hp hq n hpn hqn

/-- One parent slot for every node below the root and none for the root make a
tree. The induction drops the last index of both paths. -/
theorem treeShaped_of_parents
    (hroot : ∀ (p : List I) (i : I), p.length < d →
      follow child r (p ++ [i]) ≠ some r)
    (hparent : ∀ (p q : List I) (i j : I) (s t n : N), p.length < d → q.length < d →
      follow child r p = some s → follow child r q = some t →
      child s i = some n → child t j = some n → s = t ∧ i = j) :
    TreeShaped child r d := by
  intro p
  induction p using List.reverseRecOn with
  | nil =>
      intro q _ hq n hpn hqn
      obtain rfl : r = n := Option.some.inj hpn
      cases q using List.reverseRecOn with
      | nil => rfl
      | append_singleton q j =>
          rw [List.length_append, List.length_singleton] at hq
          exact absurd hqn (hroot q j (by omega))
  | append_singleton p i ih =>
      intro q hp hq n hpn hqn
      rw [List.length_append, List.length_singleton] at hp
      cases q using List.reverseRecOn with
      | nil =>
          obtain rfl : r = n := Option.some.inj hqn
          exact absurd hpn (hroot p i (by omega))
      | append_singleton q j =>
          rw [List.length_append, List.length_singleton] at hq
          obtain ⟨s, hs, hsn⟩ := follow_snoc_some.mp hpn
          obtain ⟨t, ht, htn⟩ := follow_snoc_some.mp hqn
          obtain ⟨rfl, rfl⟩ := hparent p q i j s t n (by omega) (by omega) hs ht hsn htn
          rw [ih q (by omega) (by omega) s hs ht]

theorem follow_congr
    (h : ∀ q t, q.length < d → follow child r q = some t →
      ∀ i, child' t i = child t i) :
    ∀ q : List I, q.length ≤ d → follow child' r q = follow child r q := by
  intro q
  induction q using List.reverseRecOn with
  | nil => intro _; rfl
  | append_singleton q i ih =>
      intro hq
      rw [List.length_append, List.length_singleton] at hq
      rw [follow_snoc, follow_snoc, ih (by omega)]
      cases ht : follow child r q with
      | none => rfl
      | some t => exact h q t (by omega) ht i

section Link

variable [DecidableEq I] {p : List I} {i : I} {t f : N}

/-- Hanging the fresh childless node `f` into slot `i` of the node at `p` makes
exactly the path `p ++ [i]` reach something new. -/
theorem follow_link (htree : TreeShaped child r d) (hp : p.length < d)
    (ht : follow child r p = some t) (hnone : child t i = none)
    (hnew : child' t i = some f)
    (hleaf : ∀ j, child' f j = none)
    (hsame : ∀ q s, q.length < d → follow child r q = some s →
      ∀ j, ¬ (s = t ∧ j = i) → child' s j = child s j) :
    ∀ q : List I, q.length ≤ d → follow child' r q =
      if q = p ++ [i] then some f else follow child r q := by
  intro q
  induction q using List.reverseRecOn with
  | nil => intro _; simp
  | append_singleton q j ih =>
      intro hq
      rw [List.length_append, List.length_singleton] at hq
      rw [follow_snoc, ih (by omega)]
      by_cases hqp : q = p ++ [i]
      · -- below the fresh node there is nothing, before and after
        have hold : follow child r q = none := by
          rw [hqp, follow_snoc, ht]
          exact hnone
        have hlen : q ++ [j] ≠ p ++ [i] := by
          intro heq
          have := congrArg List.length heq
          rw [hqp] at this
          simp at this
        rw [if_pos hqp, if_neg hlen, follow_snoc, hold]
        exact hleaf j
      · rw [if_neg hqp]
        cases hs : follow child r q with
        | none =>
            have hne : q ++ [j] ≠ p ++ [i] := by
              intro heq
              rw [(List.append_inj' heq rfl).1, ht] at hs
              exact absurd hs (by simp)
            rw [if_neg hne, follow_snoc, hs]
            rfl
        | some s =>
            show child' s j = _
            by_cases hslot : s = t ∧ j = i
            · obtain ⟨rfl, rfl⟩ := hslot
              have hq' : q = p := htree.eq_path (by omega) (by omega) hs ht
              rw [if_pos (by rw [hq']), hnew]
            · have hne : q ++ [j] ≠ p ++ [i] := by
                intro heq
                obtain ⟨rfl, hji⟩ := List.append_inj' heq rfl
                rw [ht] at hs
                exact hslot ⟨(Option.some.inj hs).symm, (List.singleton_inj.mp hji)⟩
              rw [if_neg hne, hsame q s (by omega) hs j hslot, follow_snoc, hs]
              rfl

theorem treeShaped_link (htree : TreeShaped child r d)
    (hfresh : ¬ Reached child r d f)
    (hlink : ∀ q : List I, q.length ≤ d → follow child' r q =
      if q = p ++ [i] then some f else follow child r q) :
    TreeShaped child' r d := by
  intro q q' hq hq' n hqn hqn'
  rw [hlink q hq] at hqn
  rw [hlink q' hq'] at hqn'
  split at hqn
  · rename_i hql
    split at hqn'
    · rename_i hql'
      rw [hql, hql']
    · exact absurd ⟨q', hq', by rw [hqn', ← hqn]⟩ hfresh
  · split at hqn'
    · exact absurd ⟨q, hq, by rw [hqn, ← hqn']⟩ hfresh
    · exact htree.eq_path hq hq' hqn hqn'

end Link

end RadixTree
