import Mathlib.Data.List.Nodup

/-!
# Null-terminated linked lists

A list in memory is a node `a`, a function `next` and an end marker `z`.
`Chain next z a l` spells its nodes out as `l`; `Linked next z a b` says that `b`
is one of them without naming the others. Two edits are described: a change of
`next` off the list (`Chain.congr`) and a new node hung behind the last one
(`Chain.snoc`).
-/

namespace LinkedList

variable {A : Type*} {next next' : A → A} {z a b n t : A} {l : List A}

/-- From `a` along `next` the nodes are `l`, and then comes the end marker. -/
inductive Chain (next : A → A) (z : A) : A → List A → Prop where
  | nil : Chain next z z []
  | cons {a : A} {l : List A} : a ≠ z → Chain next z (next a) l → Chain next z a (a :: l)

/-- `b` is a node of the list from `a`. -/
inductive Linked (next : A → A) (z a : A) : A → Prop where
  | head : a ≠ z → Linked next z a a
  | next {b : A} : Linked next z a b → next b ≠ z → Linked next z a (next b)

theorem Linked.tail (ha : a ≠ z) (h : Linked next z (next a) b) : Linked next z a b := by
  induction h with
  | head hz => exact .next (.head ha) hz
  | next _ hz ih => exact .next ih hz

theorem Linked.of_congr (heq : ∀ b, Linked next z a b → next' b = next b)
    (h : Linked next' z a b) : Linked next z a b := by
  induction h with
  | head ha => exact .head ha
  | next _ hz ih =>
      rw [heq _ ih] at hz ⊢
      exact .next ih hz

theorem Chain.next_mem (h : Chain next z a l) (hb : b ∈ l) (hz : next b ≠ z) :
    next b ∈ l := by
  induction h with
  | nil => exact absurd hb List.not_mem_nil
  | @cons a l ha hl ih =>
      rcases List.mem_cons.mp hb with rfl | hb
      · cases hl with
        | nil => exact absurd rfl hz
        | cons _ _ => exact List.mem_cons_of_mem _ List.mem_cons_self
      · exact List.mem_cons_of_mem _ (ih hb)

theorem Chain.linked_iff (h : Chain next z a l) : Linked next z a b ↔ b ∈ l := by
  constructor
  · intro hb
    induction hb with
    | head ha =>
        cases h with
        | nil => exact absurd rfl ha
        | cons _ _ => exact List.mem_cons_self
    | next _ hz ih => exact h.next_mem ih hz
  · intro hb
    induction h with
    | nil => exact absurd hb List.not_mem_nil
    | cons ha _ ih =>
        rcases List.mem_cons.mp hb with rfl | hb
        · exact .head ha
        · exact (ih hb).tail ha

theorem Chain.ne_of_mem (h : Chain next z a l) (hb : b ∈ l) : b ≠ z := by
  induction h with
  | nil => exact absurd hb List.not_mem_nil
  | cons ha _ ih =>
      rcases List.mem_cons.mp hb with rfl | hb
      · exact ha
      · exact ih hb

theorem Chain.congr (h : Chain next z a l) (heq : ∀ b ∈ l, next' b = next b) :
    Chain next' z a l := by
  induction h with
  | nil => exact .nil
  | @cons a l ha _ ih =>
      refine .cons ha ?_
      rw [heq a List.mem_cons_self]
      exact ih fun b hb => heq b (List.mem_cons_of_mem _ hb)

theorem Chain.unique {l' : List A} (h : Chain next z a l) (h' : Chain next z a l') :
    l = l' := by
  induction h generalizing l' with
  | nil =>
      cases h' with
      | nil => rfl
      | cons ha _ => exact absurd rfl ha
  | cons ha _ ih =>
      cases h' with
      | nil => exact absurd rfl ha
      | cons _ hl' => rw [ih hl']

theorem Chain.drop {l' : List A} (h : Chain next z a (l' ++ b :: l)) :
    Chain next z b (b :: l) := by
  induction l' generalizing a with
  | nil =>
      cases h with
      | cons ha hl => exact .cons ha hl
  | cons c l' ih =>
      cases h with
      | cons _ hl => exact ih hl

theorem Chain.next_last (h : Chain next z a (l ++ [t])) : next t = z := by
  cases h.drop with
  | cons _ hl =>
      generalize hnil : next t = c at hl
      cases hl
      rfl

/-- Only the last node is followed by the end marker. -/
theorem Chain.eq_last (h : Chain next z a (l ++ [t])) (hb : b ∈ l ++ [t])
    (hz : next b = z) : b = t := by
  induction l generalizing a with
  | nil => exact List.mem_singleton.mp hb
  | cons c l ih =>
      cases h with
      | cons _ hl =>
          rcases List.mem_cons.mp hb with rfl | hb
          · rw [hz] at hl
            exact absurd (hl.unique .nil) (by simp)
          · exact ih hl hb

/-- No node comes twice: behind it the list would be its own tail. -/
theorem Chain.nodup (h : Chain next z a l) : l.Nodup := by
  induction h with
  | nil => exact List.nodup_nil
  | @cons a l ha hl ih =>
      refine List.nodup_cons.mpr ⟨fun hmem => ?_, ih⟩
      obtain ⟨before, after, rfl⟩ := List.append_of_mem hmem
      have htwice := (Chain.cons ha hl).unique hl.drop
      have hlen := congrArg List.length htwice
      simp only [List.length_cons, List.length_append] at hlen
      omega

theorem Chain.snoc (h : Chain next z a (l ++ [t])) (hn : n ≠ z) (ht : next' t = n)
    (hend : next' n = z) (hsame : ∀ b ∈ l, next' b = next b) :
    Chain next' z a (l ++ [t, n]) := by
  induction l generalizing a with
  | nil =>
      cases h with
      | cons ha _ =>
          refine .cons ha ?_
          rw [ht]
          refine .cons hn ?_
          rw [hend]
          exact .nil
  | cons b l ih =>
      cases h with
      | cons ha hl =>
          refine .cons ha ?_
          rw [hsame b List.mem_cons_self]
          exact ih hl fun c hc => hsame c (List.mem_cons_of_mem _ hc)

end LinkedList
