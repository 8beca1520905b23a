import FacelessOS.Power.MadtCores
import Mathlib.Data.List.Induction

/-!
# The core table and the core count

`acpi_cpuids` has 16 entries, and the guard of `parse_madt` lets a seventeenth in: the
walk stays inside the array exactly where it comes to at most 16 cores
(`coreTableBounded_iff`). `cpu_detect_cores` counts in a byte and without a guard; its
count fits the array under the same condition (`coresAgree_iff`).
-/

namespace FacelessOS

open RecordWalk

variable {m : Table} {p i : ℕ} {qs : List ℕ} {st : ParseMadt}

/-! ## Stores into the array -/

def parsedRecords (m : Table) (acpi : Acpi) (qs : List ℕ) : ParseMadt :=
  qs.foldl (fun st p => (parseRecord m p st).val)
    { acpi := { acpi with localApicAddr := m.lapicAddr.setWidth 64 }
      cpuidIdx := 0
      out := [] }

theorem parseMadt_eq_parsedRecords (h : Visits (recordLength m) m.fin sizeofMadt qs)
    (acpi : Acpi) : (parseMadt m acpi).1 = parsedRecords m acpi qs := by
  rw [parseMadt, walk_eq_foldl h (parseRecord_ret m) _ (by omega)]
  rfl

theorem parsedRecords_snoc (m : Table) (acpi : Acpi) (qs : List ℕ) (p : ℕ) :
    parsedRecords m acpi (qs ++ [p]) = (parseRecord m p (parsedRecords m acpi qs)).val := by
  rw [parsedRecords, List.foldl_append]
  rfl

theorem parsedRecords_cpuidIdx (m : Table) (acpi : Acpi) (qs : List ℕ) :
    (parsedRecords m acpi qs).cpuidIdx.toNat =
      min (maxNeededCores + 1) (localApics m qs).length := by
  rw [← ParseMadt.length_cpuids, parsedRecords, foldl_parseRecord_cpuids _ (Nat.zero_le _),
    List.length_take, List.length_append, List.length_map]
  exact congrArg (min _) (Nat.zero_add _)

/-- Whatever the table holds, at most one id too many is stored. -/
theorem parseMadt_cpuidIdx_le (m : Table) (acpi : Acpi) :
    (parseMadt m acpi).1.cpuidIdx.toNat ≤ maxNeededCores + 1 := by
  obtain ⟨qs, hqs⟩ := exists_visits (recordLength m) m.fin sizeofMadt
  rw [parseMadt_eq_parsedRecords hqs, parsedRecords_cpuidIdx]
  exact Nat.min_le_left _ _

theorem parseRecord_acpiCpuids (m : Table) (p : ℕ) (hi : i ≠ st.cpuidIdx.toNat) :
    (parseRecord m p st).val.acpi.acpiCpuids i = st.acpi.acpiCpuids i := by
  simp only [parseRecord]
  split
  · unfold localApicRecord
    split
    · rfl
    · exact Function.update_of_ne hi _ _
  · split
    · rfl
    · split <;> rfl

theorem parsedRecords_acpiCpuids (acpi : Acpi) (hi : (localApics m qs).length ≤ i) :
    (parsedRecords m acpi qs).acpi.acpiCpuids i = acpi.acpiCpuids i := by
  induction qs using List.reverseRecOn with
  | nil => rfl
  | append_singleton qs p ih =>
      have hsplit : localApics m (qs ++ [p]) = localApics m qs ++ localApics m [p] :=
        List.filter_append _ _
      rw [hsplit, List.length_append] at hi
      rw [parsedRecords_snoc]
      by_cases ht : m p = apicTypeLocalApic
      · have hidx := parsedRecords_cpuidIdx m acpi qs
        rw [localApics_cons_of_eq ht, List.length_cons] at hi
        rw [parseRecord_acpiCpuids m p (by omega), ih (by omega)]
      · simp only [parseRecord, if_neg ht]
        split
        · exact ih (by omega)
        · split <;> exact ih (by omega)

/-- The walk that comes to these records stores inside the array, and a full array is
left alone. A store outside would show in one of the earlier contents. -/
structure CoreTableBounded (m : Table) (qs : List ℕ) : Prop where
  stores : ∀ acpi i, maxNeededCores ≤ i →
    (parseMadt m acpi).1.acpi.acpiCpuids i = acpi.acpiCpuids i
  full : ∀ acpi before q after, qs = before ++ q :: after → m q = apicTypeLocalApic →
    maxNeededCores ≤ (localApics m before).length →
    parsedRecords m acpi (before ++ [q]) = parsedRecords m acpi before

theorem parseMadt_seventeenth (h : Visits (recordLength m) m.fin sizeofMadt qs)
    (hmany : maxNeededCores < (localApics m qs).length) (acpi : Acpi) :
    (parseMadt m acpi).1.acpi.acpiCpuids maxNeededCores =
      m ((localApics m qs)[maxNeededCores] + 2) := by
  have hcpuids := congrArg (fun l => l[maxNeededCores]?) (parseMadt_cpuids_take h acpi)
  have hidx := parsedRecords_cpuidIdx m acpi qs
  rw [← parseMadt_eq_parsedRecords h] at hidx
  simp only [ParseMadt.cpuids, List.getElem?_map, List.getElem?_take_of_succ,
    List.getElem?_eq_getElem hmany, Option.map_some] at hcpuids
  rw [List.getElem?_range (by omega)] at hcpuids
  exact Option.some.inj hcpuids

/-- **The core table is written in bounds exactly where it is large enough.** -/
theorem coreTableBounded_iff (h : Visits (recordLength m) m.fin sizeofMadt qs) :
    CoreTableBounded m qs ↔ (localApics m qs).length ≤ maxNeededCores := by
  constructor
  · intro hbounded
    by_contra hmany
    rw [not_le] at hmany
    -- an earlier content that the store of the seventeenth core changes
    have hkept := hbounded.stores
      ⟨0, fun _ => m ((localApics m qs)[maxNeededCores] + 2) + 1, 0⟩ maxNeededCores
      (Nat.le_refl _)
    rw [parseMadt_seventeenth h hmany] at hkept
    simp at hkept
  · intro hroom
    constructor
    · intro acpi i hi
      rw [parseMadt_eq_parsedRecords h, parsedRecords_acpiCpuids acpi (by omega)]
    · rintro acpi before q after rfl ht hfull
      have hsplit : localApics m (before ++ q :: after) =
          localApics m before ++ localApics m (q :: after) := List.filter_append _ _
      rw [hsplit, localApics_cons_of_eq ht, List.length_append, List.length_cons] at hroom
      omega

/-! A table that names this many cores and nothing else, all with the ids 0. -/

def coreTable (n : ℕ) : Table := fun o =>
  if o = 4 then BitVec.ofNat 8 (44 + 8 * n)
  else if 44 ≤ o ∧ o < 44 + 8 * n ∧ (o - 44) % 8 = 1 then 8 else 0

def coreOffsets (e n : ℕ) : List ℕ := List.range' (e - 8 * n) n 8

theorem coreTable_length {n : ℕ} (hn : n ≤ 26) : (coreTable n).length.toNat = 44 + 8 * n := by
  have hbytes : ∀ o, 5 ≤ o → o < 8 → coreTable n o = 0#8 := by
    intro o h5 h8
    rw [coreTable, if_neg (by omega), if_neg (by omega)]
    rfl
  have hlow : coreTable n 4 = BitVec.ofNat 8 (44 + 8 * n) := if_pos rfl
  rw [Table.length, Table.u32, hbytes 7 (by omega) (by omega), hbytes 6 (by omega) (by omega),
    hbytes 5 (by omega) (by omega), hlow]
  simp only [BitVec.toNat_append, BitVec.toNat_ofNat, Nat.zero_mod, Nat.zero_shiftLeft,
    Nat.zero_or]
  omega

theorem coreTable_recordLength {n k : ℕ} (hk : k < n) :
    recordLength (coreTable n) (44 + 8 * k) = 8 := by
  rw [recordLength, coreTable, if_neg (by omega), if_pos ⟨by omega, by omega, by omega⟩]
  rfl

theorem coreTable_tiles {n k : ℕ} (hk : k ≤ n) :
    Tiles (recordLength (coreTable n)) (44 + 8 * n) (44 + 8 * (n - k))
      (coreOffsets (44 + 8 * n) k) := by
  induction k with
  | zero => exact .nil
  | succ k ih =>
      have hlen := coreTable_recordLength (n := n) (k := n - (k + 1)) (by omega)
      have hnext : 44 + 8 * (n - (k + 1)) + 8 = 44 + 8 * (n - k) := by omega
      have hoff : 44 + 8 * n - 8 * k = 44 + 8 * (n - k) := by omega
      have hoff' : 44 + 8 * n - 8 * (k + 1) = 44 + 8 * (n - (k + 1)) := by omega
      have hrest := ih (by omega)
      rw [coreOffsets, hoff] at hrest
      rw [coreOffsets, hoff', List.range'_succ, hnext]
      refine .cons (by rw [hlen]; decide) ?_
      rw [hlen, hnext]
      exact hrest

theorem coreTable_records {n : ℕ} (hn : n ≤ 26) :
    MadtRecords (coreTable n) (coreOffsets (44 + 8 * n) n) := by
  constructor
  · have htiles := coreTable_tiles (Nat.le_refl n)
    rw [Nat.sub_self] at htiles
    rw [coreTable_length hn]
    exact htiles
  · rw [coreTable_length hn, recordLength, coreTable, if_neg (by omega), if_neg (by omega)]
    rfl

theorem coreTableBounded_two : CoreTableBounded (coreTable 2) (coreOffsets 60 2) :=
  (coreTableBounded_iff (coreTable_records (n := 2) (by decide)).parse_visits).mpr (by decide)

/-- Seventeen cores: the last store goes behind the array. -/
theorem coreTable_seventeen_outside :
    ¬ ∀ (m : Table) (qs : List ℕ), Visits (recordLength m) m.fin sizeofMadt qs →
      CoreTableBounded m qs := by
  intro hclaim
  have hbounded := hclaim _ _ (coreTable_records (n := 17) (by decide)).parse_visits
  have hkept := hbounded.stores ⟨0, fun _ => 1, 0⟩ 16 (by decide)
  have hzero : (parseMadt (coreTable 17) ⟨0, fun _ => 1, 0⟩).1.acpi.acpiCpuids 16 = 0#8 := by
    decide +kernel
  rw [hzero] at hkept
  exact absurd hkept (by decide)

/-! ## The count -/

/-- The static `ncores` behind this many calls of `cpu_detect_cores`, each of which
returns it. -/
def ncoresAfter (m : Table) : ℕ → U8
  | 0 => 0
  | n + 1 => (cpuDetectCores m (ncoresAfter m n)).1

/-- The entries of `acpi_cpuids` that `cpu_wakeup_cores` reads, in this order. -/
def wakeupReads (ncores : U8) : List ℕ :=
  (List.range ncores.toNat).flatMap fun i => i :: List.range ncores.toNat

theorem mem_wakeupReads {ncores : U8} : i ∈ wakeupReads ncores ↔ i < ncores.toNat := by
  simp only [wakeupReads, List.mem_flatMap, List.mem_range, List.mem_cons]
  constructor
  · rintro ⟨j, hj, rfl | hi⟩
    · exact hj
    · exact hi
  · intro hi
    exact ⟨i, hi, .inl rfl⟩

theorem cpuWakeupCores_congr {lapicId : U32} {ncores : U8} {a b : ℕ → U8}
    (h : ∀ i ∈ wakeupReads ncores, a i = b i) :
    cpuWakeupCores lapicId a ncores = cpuWakeupCores lapicId b ncores := by
  have hstartups : sendStartups lapicId a ncores = sendStartups lapicId b ncores := by
    unfold sendStartups
    refine List.flatMap_congr fun i hi => ?_
    rw [h i (mem_wakeupReads.mpr (List.mem_range.mp hi))]
  unfold cpuWakeupCores
  congr 1
  refine List.flatMap_congr fun i hi => ?_
  rw [h i (mem_wakeupReads.mpr (List.mem_range.mp hi)), hstartups]

/-- A later call returns what the first one did: a count of zero is counted again. -/
theorem ncoresAfter_succ (m : Table) (n : ℕ) : ncoresAfter m (n + 1) = (cpuDetectCores m 0).1 := by
  induction n with
  | zero => rfl
  | succ n ih =>
      rw [ncoresAfter, ih]
      by_cases hzero : (cpuDetectCores m 0).1 = 0
      · rw [hzero, hzero]
      · have hpos : (cpuDetectCores m 0).1 > 0 := (BitVec.pos_iff_ne_zero _).mpr hzero
        rw [cpuDetectCores, if_pos hpos]

/-- After the walk of `parse_madt`, every call of `cpu_detect_cores` returns the number of
entries it filled, and the wake-up reads only entries of the array that hold the id of
their core. -/
structure CoresAgree (m : Table) (acpi : Acpi) (qs : List ℕ) : Prop where
  count : ∀ n, ncoresAfter m (n + 1) = (parseMadt m acpi).1.cpuidIdx
  reads : ∀ n, ∀ i ∈ wakeupReads (ncoresAfter m (n + 1)), i < maxNeededCores ∧
    ∃ p, (localApics m qs)[i]? = some p ∧
      (parseMadt m acpi).1.acpi.acpiCpuids i = m (p + 2)

/-- **Count and table agree exactly on at most 16 cores.** -/
theorem coresAgree_iff (h : MadtRecords m qs) (acpi : Acpi) :
    CoresAgree m acpi qs ↔ (localApics m qs).length ≤ maxNeededCores := by
  have hidx := parsedRecords_cpuidIdx m acpi qs
  rw [← parseMadt_eq_parsedRecords h.parse_visits] at hidx
  constructor
  · intro hagree
    by_contra hmany
    -- the array counts 17 cores at most, and 16 is the last index the count would allow
    have hread : maxNeededCores ∈ wakeupReads (ncoresAfter m 1) := by
      rw [mem_wakeupReads, hagree.count 0]
      omega
    exact absurd (hagree.reads 0 _ hread).1 (Nat.lt_irrefl _)
  · intro hroom
    have hmax : maxNeededCores = 16 := rfl
    have hcount : ∀ n, ncoresAfter m (n + 1) = (parseMadt m acpi).1.cpuidIdx := by
      intro n
      apply BitVec.eq_of_toNat_eq
      rw [ncoresAfter_succ, cpuDetectCores_toNat h.detect_visits (by omega)]
      omega
    refine ⟨hcount, fun n i hi => ?_⟩
    rw [hcount, mem_wakeupReads] at hi
    have hlt : i < (localApics m qs).length := by omega
    refine ⟨by omega, _, List.getElem?_eq_getElem hlt, ?_⟩
    have hcpuids := congrArg (fun l => l[i]?)
      (parseMadt_cpuids h.parse_visits (by omega) acpi)
    simp only [ParseMadt.cpuids, List.getElem?_map, List.getElem?_range hi,
      List.getElem?_eq_getElem hlt, Option.map_some] at hcpuids
    exact Option.some.inj hcpuids

theorem coresAgree_two : CoresAgree (coreTable 2) ⟨0, fun _ => 0, 0⟩ (coreOffsets 60 2) :=
  (coresAgree_iff (coreTable_records (n := 2) (by decide)) _).mpr (by decide)

/-- Seventeen cores: the wake-up reads behind the array. -/
theorem coreTable_seventeen_read :
    ¬ ∀ (m : Table) (acpi : Acpi) (qs : List ℕ), MadtRecords m qs → CoresAgree m acpi qs := by
  intro hclaim
  have hagree := hclaim _ ⟨0, fun _ => 0, 0⟩ _ (coreTable_records (n := 17) (by decide))
  have hread : 16 ∈ wakeupReads (ncoresAfter (coreTable 17) 1) := by decide +kernel
  exact absurd (hagree.reads 0 16 hread).1 (by decide)

end FacelessOS
