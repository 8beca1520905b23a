import FacelessOS.Lib.Runs
import Mathlib.Logic.Function.Basic
import Mathlib.Data.Nat.Notation

/-!
# Object stores

What a client is promised by an allocator: objects under pointers, each a row of cells. An
allocation adds an object of the size asked for under a pointer that no other one has, with
any contents, or is refused; a store changes one cell of one object; a release takes an
object away. So a cell keeps what was last stored into it until its object is released,
whatever happens to the others (`reads_back`).
-/

namespace Objects

open Runs

variable {P β : Type*} [DecidableEq P]

inductive Op (P β : Type*) where
  | alloc (size : ℕ)
  | free (p : P)
  | store (p : P) (i : ℕ) (v : β)

/-- The objects that there are, by pointer. -/
abbrev Store (P β : Type*) : Type _ := P → Option (List β)

inductive Step : Store P β → Op P β → Store P β → Prop where
  | alloc {h : Store P β} {p : P} {o : List β} : h p = none →
      Step h (.alloc o.length) (Function.update h p (some o))
  | refused {h : Store P β} {size : ℕ} : Step h (.alloc size) h
  | free {h : Store P β} {p : P} : h p ≠ none → Step h (.free p) (Function.update h p none)
  | store {h : Store P β} {p : P} {o : List β} {i : ℕ} {v : β} : h p = some o →
      i < o.length → Step h (.store p i v) (Function.update h p (some (o.set i v)))

variable {h h' : Store P β} {p : P} {i : ℕ} {o : List β} {op : Op P β} {ops : List (Op P β)}

/-- An operation that leaves this cell alone. -/
def Spares (p : P) (i : ℕ) (op : Op P β) : Prop :=
  op ≠ .free p ∧ ∀ v, op ≠ .store p i v

/-- **One step**: an object stays until it is released, with its size, and a cell of it
keeps its contents until they are stored over. -/
theorem Step.keeps (hstep : Step h op h') (hfree : op ≠ .free p) (hc : h p = some o) :
    ∃ o', h' p = some o' ∧ o'.length = o.length ∧
      ((∀ v, op ≠ .store p i v) → o'[i]? = o[i]?) := by
  cases hstep with
  | @alloc q d hq =>
      have hne : p ≠ q := by
        rintro rfl
        rw [hq] at hc
        exact absurd hc (by simp)
      exact ⟨o, by rw [Function.update_of_ne hne, hc], rfl, fun _ => rfl⟩
  | refused => exact ⟨o, hc, rfl, fun _ => rfl⟩
  | @free q _ =>
      have hne : p ≠ q := by
        rintro rfl
        exact hfree rfl
      exact ⟨o, by rw [Function.update_of_ne hne, hc], rfl, fun _ => rfl⟩
  | @store q d j v hd hj =>
      by_cases hpq : p = q
      · subst hpq
        obtain rfl := Option.some.inj (hc.symm.trans hd)
        refine ⟨o.set j v, Function.update_self .., List.length_set, fun hspare => ?_⟩
        have hij : j ≠ i := by
          rintro rfl
          exact hspare v rfl
        exact List.getElem?_set_ne hij
      · exact ⟨o, by rw [Function.update_of_ne hpq, hc], rfl, fun _ => rfl⟩

/-- **A run** that releases no such object. -/
theorem Run.keeps (hrun : Run Step h ops h') (hc : h p = some o)
    (hfree : ∀ op ∈ ops, op ≠ .free p) :
    ∃ o', h' p = some o' ∧ o'.length = o.length ∧
      ((∀ op ∈ ops, ∀ v, op ≠ .store p i v) → o'[i]? = o[i]?) := by
  induction hrun with
  | start => exact ⟨o, hc, rfl, fun _ => rfl⟩
  | @snoc ops op t u _ hstep ih =>
      obtain ⟨d, hd, hlen, hsame⟩ := ih fun op' hop => hfree op' (List.mem_append_left _ hop)
      obtain ⟨d', hd', hlen', hsame'⟩ :=
        hstep.keeps (i := i) (hfree op (by simp)) hd
      refine ⟨d', hd', hlen'.trans hlen, fun hspare => ?_⟩
      rw [hsame' (hspare op (by simp))]
      exact hsame fun op' hop => hspare op' (List.mem_append_left _ hop)

/-- **What was stored is read back**: after any run that neither releases the object nor
stores over the cell, the cell holds what was stored into it. -/
theorem reads_back {v : β} (hrun : Run Step h (.store p i v :: ops) h')
    (hspare : ∀ op ∈ ops, Spares p i op) : ∃ o, h' p = some o ∧ o[i]? = some v := by
  rw [← List.singleton_append] at hrun
  obtain ⟨t, hstore, hrest⟩ := run_append.mp hrun
  have hstep := run_singleton.mp hstore
  cases hstep with
  | @store _ d _ _ _ hi =>
      have hd : Function.update h p (some (d.set i v)) p = some (d.set i v) :=
        Function.update_self ..
      obtain ⟨o, hc, -, hsame⟩ := Run.keeps (i := i) hrest hd fun op hop => (hspare op hop).1
      refine ⟨o, hc, ?_⟩
      rw [hsame fun op hop => (hspare op hop).2, List.getElem?_set_self hi]

end Objects
