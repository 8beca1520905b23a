import FacelessOS.Power.MadtCores
import Mathlib.Data.List.Induction

/-!
# What the walks find out about interrupts

`parse_madt` keeps the address of one I/O APIC, that of the last record it comes to
(`parseMadt_ioApicPtr`). `acpi_remap_irq` returns at the first override of the interrupt
(`acpiRemapIrq_eq_find`).
-/

namespace FacelessOS

open RecordWalk

variable {m : Table} {p : ℕ} {qs : List ℕ}

def ioApics (m : Table) (qs : List ℕ) : List ℕ := qs.filter fun p => m p = apicTypeIoApic

def ioApicAddr (m : Table) (p : ℕ) : U64 := (m.u32 (p + 4)).setWidth 64

def ioApicBase (m : Table) (p : ℕ) : U32 := m.u32 (p + 8)

def Overrides (m : Table) (irq : U32) (p : ℕ) : Prop :=
  m p = apicTypeInterruptOverride ∧ (m (p + 3)).setWidth 32 = irq

instance (m : Table) (irq : U32) (p : ℕ) : Decidable (Overrides m irq p) :=
  inferInstanceAs (Decidable (_ ∧ _))

/-! ## One record -/

theorem parseRecord_ioApicPtr_of_eq (ht : m p = apicTypeIoApic) (st : ParseMadt) :
    (parseRecord m p st).val.acpi.ioApicPtr = ioApicAddr m p := by
  have hne : ¬ apicTypeIoApic = apicTypeLocalApic := by decide
  simp only [parseRecord, ht, if_neg hne, if_true]
  rfl

theorem parseRecord_ioApicPtr_of_ne (ht : m p ≠ apicTypeIoApic) (st : ParseMadt) :
    (parseRecord m p st).val.acpi.ioApicPtr = st.acpi.ioApicPtr := by
  simp only [parseRecord, if_neg ht]
  split
  · unfold localApicRecord
    split <;> rfl
  · split <;> rfl

theorem remapRecord_of_overrides {irq : U32} (h : Overrides m irq p) (v : U32) :
    (remapRecord m irq p v).ret = true ∧ (remapRecord m irq p v).val = m.u32 (p + 4) := by
  rw [remapRecord, if_pos h.1, if_pos h.2]
  exact ⟨rfl, rfl⟩

theorem remapRecord_of_not_overrides {irq : U32} (h : ¬ Overrides m irq p) (v : U32) :
    (remapRecord m irq p v).ret = false ∧ (remapRecord m irq p v).val = v := by
  unfold remapRecord
  split
  · rename_i ht
    rw [if_neg fun hsource => h ⟨ht, hsource⟩]
    exact ⟨rfl, rfl⟩
  · exact ⟨rfl, rfl⟩

/-! ## The walks -/

theorem foldl_parseRecord_ioApicPtr (st : ParseMadt) :
    (qs.foldl (fun st p => (parseRecord m p st).val) st).acpi.ioApicPtr =
      ((ioApics m qs).getLast?.map (ioApicAddr m)).getD st.acpi.ioApicPtr := by
  induction qs using List.reverseRecOn with
  | nil => rfl
  | append_singleton qs p ih =>
      rw [List.foldl_append, List.foldl_cons, List.foldl_nil]
      by_cases ht : m p = apicTypeIoApic
      · have hlast : ioApics m (qs ++ [p]) = ioApics m qs ++ [p] := by
          simp only [ioApics, List.filter_append, List.filter_singleton, ht, decide_true, cond_true]
        rw [parseRecord_ioApicPtr_of_eq ht, hlast, List.getLast?_concat]
        rfl
      · have hsame : ioApics m (qs ++ [p]) = ioApics m qs := by
          simp only [ioApics, List.filter_append, List.filter_singleton, ht, decide_false,
            cond_false, List.append_nil]
        rw [parseRecord_ioApicPtr_of_ne ht, ih, hsame]

theorem parseMadt_ioApicPtr (h : Visits (recordLength m) m.fin sizeofMadt qs) (acpi : Acpi) :
    (parseMadt m acpi).1.acpi.ioApicPtr =
      ((ioApics m qs).getLast?.map (ioApicAddr m)).getD acpi.ioApicPtr := by
  rw [parseMadt, walk_eq_foldl h (parseRecord_ret m) _ (by omega)]
  exact foldl_parseRecord_ioApicPtr _

theorem foldl_parseRecord_localApicAddr (st : ParseMadt) :
    (qs.foldl (fun st p => (parseRecord m p st).val) st).acpi.localApicAddr =
      st.acpi.localApicAddr := by
  induction qs generalizing st with
  | nil => rfl
  | cons p qs ih =>
      rw [List.foldl_cons, ih]
      simp only [parseRecord]
      split
      · unfold localApicRecord
        split <;> rfl
      · split
        · rfl
        · split <;> rfl

theorem parseMadt_localApicAddr (h : Visits (recordLength m) m.fin sizeofMadt qs)
    (acpi : Acpi) : (parseMadt m acpi).1.acpi.localApicAddr = m.lapicAddr.setWidth 64 := by
  rw [parseMadt, walk_eq_foldl h (parseRecord_ret m) _ (by omega)]
  exact foldl_parseRecord_localApicAddr _

theorem acpiRemapIrq_eq_find (h : Visits (recordLength m) m.fin sizeofMadt qs) (irq : U32) :
    (acpiRemapIrq m irq).1 =
      ((qs.find? fun p => decide (Overrides m irq p)).map fun p => m.u32 (p + 4)).getD irq := by
  refine walk_eq_find h (fun p v hp => ?_) (fun p v hp => ?_) _ (by omega)
  · exact remapRecord_of_overrides (of_decide_eq_true hp) v
  · exact remapRecord_of_not_overrides (of_decide_eq_false hp) v

end FacelessOS
