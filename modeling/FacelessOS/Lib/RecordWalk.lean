import Mathlib.Data.List.Basic

/-!
# Walks over length-prefixed records

A table holds records back to back, each naming its own length, and a walk goes
from record to record until a zero length or the end of the table. The walk
reports the reads it makes, so that bounds are statements about its result.

`Ends` says that the records from `p` on are in order up to a zero length,
without mentioning the walk. `Ends.reads` and `ends_of_reads` tie the two
together, and `Ends.walk_congr` compares walks over two tables. A walk to `fin` makes
at most one round for each offset, so that fuel up to `fin` is enough (`walk_fuel`).

`Visits` lists the records a walk comes to, and every walk has its list
(`exists_visits`): a walk that never returns early is a fold over them
(`walk_eq_foldl`), and a search returns at the first hit among them
(`walk_eq_find`). Records that lie back to back up to a zero length (`Tiles`) are
what every walk visits whose end lies no earlier (`Tiles.visits`).
-/

namespace RecordWalk

variable {α β ρ : Type*}

/-- One round of the loop: the new state, what was read, and whether the function
returns. -/
structure Step (α ρ : Type*) where
  val : α
  reads : List ρ
  ret : Bool

/-- `while (p < fin) { if (length of p is 0) break; body; p += length of p; }` -/
def walk (len : ℕ → ℕ) (fin : ℕ) (head : ℕ → ρ) (body : ℕ → α → Step α ρ) :
    ℕ → ℕ → α → α × List ρ
  | 0, _, v => (v, [])
  | fuel + 1, p, v =>
      if p < fin then
        if len p = 0 then (v, [head p])
        else if (body p v).ret then ((body p v).val, head p :: (body p v).reads)
        else
          let (v', reads) := walk len fin head body fuel (p + len p) (body p v).val
          (v', head p :: (body p v).reads ++ reads)
      else (v, [])

/-- The records from `p` on are `ok`, up to a zero length; `adv` is what a record
adds to the state that `ok` may look at. -/
inductive Ends (len : ℕ → ℕ) (ok : ℕ → β → Prop) (adv : ℕ → β → β) : ℕ → β → Prop where
  | stop {p : ℕ} {b : β} : ok p b → len p = 0 → Ends len ok adv p b
  | step {p : ℕ} {b : β} : ok p b → len p ≠ 0 → Ends len ok adv (p + len p) (adv p b) →
      Ends len ok adv p b

/-- The offsets the loop visits before it ends. -/
inductive Visits (len : ℕ → ℕ) (fin : ℕ) : ℕ → List ℕ → Prop where
  | stop {p : ℕ} : fin ≤ p ∨ len p = 0 → Visits len fin p []
  | step {p : ℕ} {qs : List ℕ} : p < fin → len p ≠ 0 → Visits len fin (p + len p) qs →
      Visits len fin p (p :: qs)

variable {len len' : ℕ → ℕ} {fin p : ℕ} {head : ℕ → ρ} {body body' : ℕ → α → Step α ρ}
  {ok : ℕ → β → Prop} {adv : ℕ → β → β} {P : ρ → Prop} {I : β → α → Prop} {b : β} {v : α}

theorem walk_fuel {fuel : ℕ} (hfuel : fin ≤ p + fuel) (more : ℕ) (v : α) :
    walk len fin head body (fuel + more) p v = walk len fin head body fuel p v := by
  induction fuel generalizing p v with
  | zero =>
      cases more with
      | zero => rfl
      | succ more => rw [Nat.zero_add, walk, walk, if_neg (by omega)]
  | succ fuel ih =>
      rw [Nat.add_right_comm, walk, walk]
      split
      · split
        · rfl
        · rename_i hlen
          rw [ih (by omega)]
      · rfl

theorem exists_visits (len : ℕ → ℕ) (fin p : ℕ) : ∃ qs, Visits len fin p qs := by
  generalize hn : fin - p = n
  induction n using Nat.strongRecOn generalizing p with
  | ind n ih =>
      by_cases hend : fin ≤ p ∨ len p = 0
      · exact ⟨[], .stop hend⟩
      · obtain ⟨hp, hne⟩ := not_or.mp hend
        obtain ⟨qs, hqs⟩ := ih (fin - (p + len p)) (by omega) (p + len p) rfl
        exact ⟨p :: qs, .step (by omega) hne hqs⟩

theorem Ends.ok_head (h : Ends len ok adv p b) : ok p b := by
  cases h with
  | stop hok _ => exact hok
  | step hok _ _ => exact hok

/-- Records in order bound the reads of the walk, whatever its fuel and end. -/
theorem Ends.reads (h : Ends len ok adv p b) (hI : I b v)
    (hhead : ∀ q b, ok q b → P (head q))
    (hbody : ∀ q b v, ok q b → len q ≠ 0 → ok (q + len q) (adv q b) → I b v →
      (∀ r ∈ (body q v).reads, P r) ∧ I (adv q b) (body q v).val) (fuel : ℕ) :
    ∀ r ∈ (walk len fin head body fuel p v).2, P r := by
  induction h generalizing fuel v with
  | @stop p b hok hlen =>
      intro r hr
      cases fuel with
      | zero => exact absurd hr List.not_mem_nil
      | succ fuel =>
          rw [walk, if_pos hlen] at hr
          split at hr
          · obtain rfl := List.mem_singleton.mp hr
            exact hhead p b hok
          · exact absurd hr List.not_mem_nil
  | @step p b hok hlen hrest ih =>
      intro r hr
      obtain ⟨hreads, hI'⟩ := hbody p b v hok hlen hrest.ok_head hI
      cases fuel with
      | zero => exact absurd hr List.not_mem_nil
      | succ fuel =>
          rw [walk, if_neg hlen] at hr
          split at hr
          · split at hr
            · rcases List.mem_cons.mp hr with rfl | hr
              · exact hhead p b hok
              · exact hreads r hr
            · rcases List.mem_append.mp hr with hr | hr
              · rcases List.mem_cons.mp hr with rfl | hr
                · exact hhead p b hok
                · exact hreads r hr
              · exact ih hI' fuel r hr
          · exact absurd hr List.not_mem_nil

/-- Bounded reads of a walk that cannot leave the table put its records in order. -/
theorem ends_of_reads (hok : ∀ q b v, I b v → P (head q) →
      (len q ≠ 0 → ∀ r ∈ (body q v).reads, P r) → ok q b)
    (hbody : ∀ q b v, I b v → (body q v).ret = false ∧ I (adv q b) (body q v).val)
    (hfin : ∀ q, P (head q) → q + len q < fin) (fuel : ℕ) (hI : I b v)
    (hp : p < fin) (hfuel : fin ≤ p + fuel)
    (hreads : ∀ r ∈ (walk len fin head body fuel p v).2, P r) : Ends len ok adv p b := by
  induction fuel generalizing p b v with
  | zero => omega
  | succ fuel ih =>
      obtain ⟨hret, hI'⟩ := hbody p b v hI
      rw [walk, if_pos hp] at hreads
      split at hreads
      · rename_i hlen
        have hhead := hreads _ List.mem_cons_self
        exact .stop (hok p b v hI hhead fun hne => absurd hlen hne) hlen
      · rename_i hlen
        rw [hret, if_neg (by decide)] at hreads
        have hhead := hreads _ (List.mem_append_left _ List.mem_cons_self)
        have hrec : ∀ r ∈ (body p v).reads, P r := fun r hr =>
          hreads r (List.mem_append_left _ (List.mem_cons_of_mem _ hr))
        refine .step (hok p b v hI hhead fun _ => hrec) hlen ?_
        exact ih hI' (hfin p hhead) (by omega) fun r hr =>
          hreads r (List.mem_append_right _ hr)

/-- Walks over two tables that agree on the records in order are one walk. -/
theorem Ends.walk_congr (h : Ends len ok adv p b) (hI : I b v)
    (hlen : ∀ q b, ok q b → len' q = len q)
    (hbody : ∀ q b v, ok q b → len q ≠ 0 → ok (q + len q) (adv q b) → I b v →
      body' q v = body q v ∧ I (adv q b) (body q v).val) (fuel : ℕ) :
    walk len' fin head body' fuel p v = walk len fin head body fuel p v := by
  induction h generalizing fuel v with
  | @stop p b hok hz =>
      cases fuel with
      | zero => rfl
      | succ fuel => rw [walk, walk, hlen p b hok, if_pos hz, if_pos hz]
  | @step p b hok hne hrest ih =>
      obtain ⟨heq, hI'⟩ := hbody p b v hok hne hrest.ok_head hI
      cases fuel with
      | zero => rfl
      | succ fuel =>
          rw [walk, walk, hlen p b hok, heq, ih hI' fuel]

theorem walk_stop (hend : fin ≤ p ∨ len p = 0) (fuel : ℕ) :
    (walk len fin head body fuel p v).1 = v := by
  cases fuel with
  | zero => rfl
  | succ fuel =>
      rw [walk]
      split
      · rename_i hp
        rw [if_pos (hend.resolve_left (by omega))]
      · rfl

/-- A walk that never returns early folds its body over the records it visits. -/
theorem walk_eq_foldl {qs : List ℕ} (h : Visits len fin p qs)
    (hret : ∀ q v, (body q v).ret = false) (fuel : ℕ) (hfuel : fin ≤ p + fuel) :
    (walk len fin head body fuel p v).1 = qs.foldl (fun v q => (body q v).val) v := by
  induction h generalizing fuel v with
  | @stop p hend =>
      rw [walk_stop hend]
      rfl
  | @step p qs hp hne _ ih =>
      cases fuel with
      | zero => omega
      | succ fuel =>
          rw [walk, if_pos hp, if_neg hne, hret, if_neg (by decide)]
          exact ih fuel (by omega)

/-- A walk that returns at the first record that `hit` accepts, and changes nothing
before, is a search. -/
theorem walk_eq_find {qs : List ℕ} {hit : ℕ → Bool} {res : ℕ → α} (h : Visits len fin p qs)
    (hhit : ∀ q v, hit q = true → (body q v).ret = true ∧ (body q v).val = res q)
    (hmiss : ∀ q v, hit q = false → (body q v).ret = false ∧ (body q v).val = v)
    (fuel : ℕ) (hfuel : fin ≤ p + fuel) :
    (walk len fin head body fuel p v).1 = ((qs.find? hit).map res).getD v := by
  induction h generalizing fuel with
  | @stop p hend =>
      rw [walk_stop hend]
      rfl
  | @step p qs hp hne _ ih =>
      cases fuel with
      | zero => omega
      | succ fuel =>
          rw [walk, if_pos hp, if_neg hne]
          cases hq : hit p with
          | true =>
              obtain ⟨hret, hval⟩ := hhit p v hq
              rw [if_pos hret, List.find?_cons_of_pos hq]
              exact hval
          | false =>
              obtain ⟨hret, hval⟩ := hmiss p v hq
              rw [hret, if_neg (by decide), hval, List.find?_cons_of_neg (by simp [hq])]
              exact ih fuel (by omega)

/-! ## The records visited -/

/-- The records at these offsets lie back to back from `p` up to `e`. -/
inductive Tiles (len : ℕ → ℕ) (e : ℕ) : ℕ → List ℕ → Prop where
  | nil : Tiles len e e []
  | cons {p : ℕ} {qs : List ℕ} : len p ≠ 0 → Tiles len e (p + len p) qs →
      Tiles len e p (p :: qs)

theorem Tiles.le {e : ℕ} {qs : List ℕ} (h : Tiles len e p qs) : p ≤ e := by
  induction h with
  | nil => exact Nat.le_refl _
  | cons _ _ ih => omega

/-- A zero length behind the records stops a walk where they end. -/
theorem Tiles.visits {e : ℕ} {qs : List ℕ} (h : Tiles len e p qs) (hzero : len e = 0)
    (hfin : e ≤ fin) : Visits len fin p qs := by
  induction h with
  | nil => exact .stop (.inr hzero)
  | @cons p qs hne hrest ih =>
      have hle := hrest.le
      exact .step (by omega) hne ih

end RecordWalk
