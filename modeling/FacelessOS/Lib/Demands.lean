import Mathlib.Data.List.Nodup
import Mathlib.Data.List.Perm.Subperm

/-!
# Demands that bring demands with them

A worker makes items that are asked for, each from the next resource of a fixed supply,
and a resource that was used may ask for more items. What is asked for first depends on
the order of work. How many items are made does not: an item is made only for a root or a
resource used before it, so as many items as another order made to the end cover
everything that can be asked for until then (`MadeInOrder.length_le`).
-/

namespace Demands

variable {R I : Type*} {asks : R → I → Prop} {fresh fresh' : I → Prop}
  {roots roots' used supply : List R} {items items' : List I}

/-- These items are made, one from each of the first resources of the supply: each was not
there and is asked for by a root or by a resource used before it. -/
structure MadeInOrder (asks : R → I → Prop) (fresh : I → Prop) (roots supply : List R)
    (items : List I) : Prop where
  nodup : items.Nodup
  fresh : ∀ i ∈ items, fresh i
  asked : ∀ k i, items[k]? = some i → ∃ x ∈ roots ++ supply.take k, asks x i

/-- What the roots and the resources used for these items ask for is there. -/
def Complete (asks : R → I → Prop) (fresh : I → Prop) (roots supply : List R)
    (items : List I) : Prop :=
  ∀ x ∈ roots ++ supply.take items.length, ∀ i, asks x i → fresh i → i ∈ items

namespace MadeInOrder

theorem nil : MadeInOrder asks fresh roots supply [] :=
  ⟨List.nodup_nil, fun i hi => absurd hi List.not_mem_nil, fun k i hi => by simp at hi⟩

theorem singleton {x : R} {i : I} (hx : x ∈ roots) (hask : asks x i) (hi : fresh i) :
    MadeInOrder asks fresh roots supply [i] := by
  refine ⟨List.nodup_singleton i, fun j hj => ?_, fun k j hj => ?_⟩
  · rw [List.mem_singleton.mp hj]
    exact hi
  · rw [List.mem_singleton.mp (List.mem_of_getElem? hj)]
    exact ⟨x, List.mem_append_left _ hx, hask⟩

theorem mono (h : MadeInOrder asks fresh roots supply items)
    (hroots : ∀ x ∈ roots, x ∈ roots') : MadeInOrder asks fresh roots' supply items := by
  refine ⟨h.nodup, h.fresh, fun k i hi => ?_⟩
  obtain ⟨x, hx, hask⟩ := h.asked k i hi
  refine ⟨x, List.mem_append.mpr ?_, hask⟩
  exact (List.mem_append.mp hx).imp_left (hroots x)

theorem append (h : MadeInOrder asks fresh roots (used ++ supply) items)
    (h' : MadeInOrder asks fresh' roots' supply items') (hlen : items.length = used.length)
    (hfresh : ∀ x i, asks x i → fresh' i → fresh i ∧ i ∉ items)
    (hroots : ∀ x ∈ roots', x ∈ roots ++ used) :
    MadeInOrder asks fresh roots (used ++ supply) (items ++ items') := by
  have hnew : ∀ i ∈ items', fresh i ∧ i ∉ items := by
    intro i hi
    obtain ⟨k, hk⟩ := List.mem_iff_getElem?.mp hi
    obtain ⟨x, -, hask⟩ := h'.asked k i hk
    exact hfresh x i hask (h'.fresh i hi)
  refine ⟨List.nodup_append.mpr ⟨h.nodup, h'.nodup, ?_⟩, ?_, ?_⟩
  · rintro i hi j hj rfl
    exact (hnew i hj).2 hi
  · intro i hi
    rcases List.mem_append.mp hi with hi | hi
    · exact h.fresh i hi
    · exact (hnew i hi).1
  · intro k i hi
    rw [List.getElem?_append] at hi
    split at hi
    · exact h.asked k i hi
    · rename_i hk
      obtain ⟨x, hx, hask⟩ := h'.asked _ i hi
      refine ⟨x, ?_, hask⟩
      -- the resources used before are all before the `k`-th
      have htake : (used ++ supply).take k = used ++ supply.take (k - items.length) := by
        rw [List.take_append, List.take_of_length_le (by omega), hlen]
      rw [htake]
      rcases List.mem_append.mp hx with hx | hx
      · have := hroots x hx
        rw [← List.append_assoc]
        exact List.mem_append_left _ this
      · exact List.mem_append_right _ (List.mem_append_right _ hx)

/-- **No order makes more items than one that is complete.** -/
theorem length_le (h : MadeInOrder asks fresh roots supply items)
    (hc : Complete asks fresh roots supply items') : items.length ≤ items'.length := by
  by_contra hlt
  -- one item more than the complete order made, all of them asked for until then
  have hsub : items.take (items'.length + 1) ⊆ items' := by
    intro i hi
    obtain ⟨k, hk⟩ := List.mem_iff_getElem?.mp hi
    rw [List.getElem?_take] at hk
    split at hk
    · rename_i hkn
      obtain ⟨x, hx, hask⟩ := h.asked k i hk
      refine hc x ?_ i hask (h.fresh i (List.mem_of_getElem? hk))
      refine List.mem_append.mpr ((List.mem_append.mp hx).imp_right fun hx => ?_)
      exact (List.take_subset_take_left supply (by omega)) hx
    · exact absurd hk (by simp)
  have hnodup := h.nodup.sublist (List.take_sublist (items'.length + 1) items)
  have := (hnodup.subperm hsub).length_le
  rw [List.length_take] at this
  omega

end MadeInOrder

end Demands
