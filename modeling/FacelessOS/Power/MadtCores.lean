import FacelessOS.Power.MadtBounds

/-!
# The cores that the walks find

`parse_madt` fills `acpi_cpuids` and `cpu_detect_cores` counts, each in a walk of its
own. Over the records a walk visits, the array becomes the processor ids of the local
APICs in table order, as far as the guard lets them in (`parseMadt_cpuids_take`), and the
counter their number (`cpuDetectCores_toNat`).
-/

namespace FacelessOS

open RecordWalk

variable {m : Table} {p : ℕ} {qs : List ℕ}

def localApics (m : Table) (qs : List ℕ) : List ℕ :=
  qs.filter fun p => m p = apicTypeLocalApic

/-- The entries of `acpi_cpuids` filled so far. -/
def ParseMadt.cpuids (st : ParseMadt) : List U8 :=
  (List.range st.cpuidIdx.toNat).map st.acpi.acpiCpuids

@[simp] theorem ParseMadt.length_cpuids (st : ParseMadt) :
    st.cpuids.length = st.cpuidIdx.toNat := by
  rw [ParseMadt.cpuids, List.length_map, List.length_range]

theorem localApics_cons_of_eq (h : m p = apicTypeLocalApic) :
    localApics m (p :: qs) = p :: localApics m qs :=
  List.filter_cons_of_pos (decide_eq_true h)

theorem localApics_cons_of_ne (h : m p ≠ apicTypeLocalApic) :
    localApics m (p :: qs) = localApics m qs :=
  List.filter_cons_of_neg (by simpa using h)

/-- The records at these offsets fill the table, and a record header with a zero length
follows it. -/
structure MadtRecords (m : Table) (qs : List ℕ) : Prop where
  tiles : Tiles (recordLength m) m.length.toNat sizeofMadt qs
  closed : recordLength m m.length.toNat = 0

theorem MadtRecords.parse_visits (h : MadtRecords m qs) :
    Visits (recordLength m) m.fin sizeofMadt qs := by
  apply h.tiles.visits h.closed
  rw [Table.fin, sizeofMadt]
  omega

theorem MadtRecords.detect_visits (h : MadtRecords m qs) :
    Visits (recordLength m) m.coresFin sizeofMadt qs := by
  apply h.tiles.visits h.closed
  have hle := h.tiles.le
  unfold sizeofMadt at hle
  rw [Table.coresFin, sizeofMadt]
  omega

/-! ## One record -/

theorem localApicRecord_cpuids {st : ParseMadt} (hroom : st.cpuidIdx.toNat ≤ maxNeededCores) :
    (localApicRecord m p st).val.cpuids = st.cpuids ++ [m (p + 2)] := by
  rw [localApicRecord, if_neg (by omega)]
  have hidx : (st.cpuidIdx + 1).toNat = st.cpuidIdx.toNat + 1 := by
    unfold maxNeededCores at hroom
    show (st.cpuidIdx + 1#8).toNat = _
    rw [BitVec.toNat_add, BitVec.toNat_ofNat]
    omega
  simp only [ParseMadt.cpuids, hidx, List.range_succ, List.map_append, List.map_cons,
    List.map_nil, Function.update_self]
  congr 1
  -- the entries below the new one are the old ones
  refine List.map_congr_left fun i hi => ?_
  rw [List.mem_range] at hi
  exact Function.update_of_ne (by omega) _ _

theorem localApicRecord_full {st : ParseMadt} (hfull : maxNeededCores < st.cpuidIdx.toNat) :
    (localApicRecord m p st).val = st := by
  rw [localApicRecord, if_pos hfull]

theorem parseRecord_cpuids_of_ne {st : ParseMadt} (ht : m p ≠ apicTypeLocalApic) :
    (parseRecord m p st).val.cpuids = st.cpuids := by
  simp only [parseRecord, if_neg ht]
  split
  · rfl
  · split <;> rfl

/-! ## The walks -/

/-- The array over a run of records. The guard lets one entry more in than the array
has. -/
theorem foldl_parseRecord_cpuids (st : ParseMadt)
    (hlen : st.cpuids.length ≤ maxNeededCores + 1) :
    (qs.foldl (fun st p => (parseRecord m p st).val) st).cpuids =
      (st.cpuids ++ (localApics m qs).map fun p => m (p + 2)).take (maxNeededCores + 1) := by
  induction qs generalizing st with
  | nil =>
      show st.cpuids = (st.cpuids ++ []).take (maxNeededCores + 1)
      rw [List.append_nil, List.take_of_length_le hlen]
  | cons p qs ih =>
      rw [List.foldl_cons]
      by_cases ht : m p = apicTypeLocalApic
      · rw [localApics_cons_of_eq ht]
        have hval : (parseRecord m p st).val = (localApicRecord m p st).val := by
          rw [parseRecord, if_pos ht]
        rw [ParseMadt.length_cpuids] at hlen
        by_cases hfull : maxNeededCores < st.cpuidIdx.toNat
        · have hstep : (parseRecord m p st).val = st := hval.trans (localApicRecord_full hfull)
          have hlen' : st.cpuids.length = maxNeededCores + 1 := by
            rw [ParseMadt.length_cpuids]
            omega
          rw [hstep, ih st (by omega), List.take_left' hlen', List.take_left' hlen']
        · have hstep : (parseRecord m p st).val.cpuids = st.cpuids ++ [m (p + 2)] := by
            rw [hval]
            exact localApicRecord_cpuids (by omega)
          rw [ih, hstep, List.map_cons, List.append_assoc, List.singleton_append]
          rw [hstep, List.length_append, ParseMadt.length_cpuids, List.length_singleton]
          omega
      · rw [localApics_cons_of_ne ht]
        have hstep : (parseRecord m p st).val.cpuids = st.cpuids :=
          parseRecord_cpuids_of_ne ht
        rw [ih _ (by rw [hstep]; exact hlen), hstep]

theorem parseMadt_cpuids_take (h : Visits (recordLength m) m.fin sizeofMadt qs) (acpi : Acpi) :
    (parseMadt m acpi).1.cpuids =
      ((localApics m qs).map fun p => m (p + 2)).take (maxNeededCores + 1) := by
  rw [parseMadt, walk_eq_foldl h (parseRecord_ret m) _ (by omega)]
  exact foldl_parseRecord_cpuids _ (Nat.zero_le _)

theorem parseMadt_cpuids (h : Visits (recordLength m) m.fin sizeofMadt qs)
    (hroom : (localApics m qs).length ≤ maxNeededCores + 1) (acpi : Acpi) :
    (parseMadt m acpi).1.cpuids = (localApics m qs).map fun p => m (p + 2) := by
  rw [parseMadt_cpuids_take h, List.take_of_length_le]
  rwa [List.length_map]

theorem foldl_detectRecord (ncores : U8)
    (hroom : ncores.toNat + (localApics m qs).length < 256) :
    (qs.foldl (fun v p => (detectRecord m p v).val) ncores).toNat =
      ncores.toNat + (localApics m qs).length := by
  induction qs generalizing ncores with
  | nil => rfl
  | cons p qs ih =>
      rw [List.foldl_cons]
      by_cases ht : m p = apicTypeLocalApic
      · rw [localApics_cons_of_eq ht, List.length_cons] at hroom ⊢
        have hstep : (detectRecord m p ncores).val.toNat = ncores.toNat + 1 := by
          rw [detectRecord, if_pos ht]
          show (ncores + 1#8).toNat = _
          rw [BitVec.toNat_add, BitVec.toNat_ofNat]
          omega
        rw [ih _ (by omega), hstep]
        omega
      · rw [localApics_cons_of_ne ht] at hroom ⊢
        have hstep : (detectRecord m p ncores).val = ncores := by
          rw [detectRecord, if_neg ht]
        rw [hstep, ih _ hroom]

theorem cpuDetectCores_toNat (h : Visits (recordLength m) m.coresFin sizeofMadt qs)
    (hroom : (localApics m qs).length < 256) :
    (cpuDetectCores m 0).1.toNat = (localApics m qs).length := by
  rw [cpuDetectCores, if_neg (by decide), walk_eq_foldl h (fun _ _ => rfl) _ (by omega),
    foldl_detectRecord _ (by simpa using hroom)]
  exact Nat.zero_add _

end FacelessOS
