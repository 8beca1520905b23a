import FacelessOS.Cpu.Smp

/-!
# What the MADT walks read

The ends of the three walks lie far behind the table, so the `length` of the table
bounds nothing: a walk stays inside exactly when the records themselves stop it,
with a zero length that still lies in the table, and when every record before it is
as long as the struct it is read through (`madtWalksInside_iff`).
-/

namespace FacelessOS

open RecordWalk

/-- Inside the table, and for a field inside its own record. -/
def MadtRead.Inside (m : Table) : MadtRead → Prop
  | .header offset => offset < m.length.toNat
  | .field record offset =>
      record + offset < m.length.toNat ∧ offset < recordLength m record

/-- The three walks read only inside the table, so that what lies behind the table
has no influence. -/
structure MadtWalksInside (m : Table) : Prop where
  parse : ∀ acpi, ∀ r ∈ (parseMadt m acpi).2, r.Inside m
  remap : ∀ irq, ∀ r ∈ (acpiRemapIrq m irq).2, r.Inside m
  detect : ∀ ncores, ∀ r ∈ (cpuDetectCores m ncores).2, r.Inside m
  agree : ∀ m' : Table, (∀ o < m.length.toNat, m' o = m o) →
    (∀ acpi, parseMadt m' acpi = parseMadt m acpi) ∧
    (∀ irq, acpiRemapIrq m' irq = acpiRemapIrq m irq) ∧
    ∀ ncores, cpuDetectCores m' ncores = cpuDetectCores m ncores

/-- The record at `p`, behind `idx` recorded cores, is as long as the struct that
its type selects. Once 17 cores are recorded no further one is looked at. -/
structure RecordFits (m : Table) (p idx : ℕ) : Prop where
  localApic : m p = apicTypeLocalApic → idx ≤ maxNeededCores → 8 ≤ recordLength m p
  ioApic : m p = apicTypeIoApic → 12 ≤ recordLength m p
  override : m p = apicTypeInterruptOverride → 10 ≤ recordLength m p

/-- Both header bytes at `p` lie in the table, and the record fits. -/
structure RecordOk (m : Table) (p idx : ℕ) : Prop where
  header : p + 1 < m.length.toNat
  fits : recordLength m p ≠ 0 → RecordFits m p idx

def coresAfter (m : Table) (p idx : ℕ) : ℕ :=
  if m p = apicTypeLocalApic ∧ idx ≤ maxNeededCores then idx + 1 else idx

/-- From the end of the header on, records in order lead to a zero length. -/
def MadtCloses (m : Table) : Prop :=
  Ends (recordLength m) (RecordOk m) (coresAfter m) sizeofMadt 0

def Counts (idx : ℕ) (st : ParseMadt) : Prop :=
  st.cpuidIdx.toNat = idx ∧ idx ≤ maxNeededCores + 1

/-! ## One record -/

variable {m m' : Table} {p idx : ℕ}

theorem RecordOk.header_inside (hok : RecordOk m p idx) : MadtRead.Inside m (.header p) :=
  Nat.lt_of_succ_lt hok.header

theorem fieldReads_inside {o n : ℕ} (hfit : o + n ≤ recordLength m p)
    (hp : p + recordLength m p < m.length.toNat) :
    ∀ r ∈ fieldReads p o n, r.Inside m := by
  intro r hr
  obtain ⟨i, hi, rfl⟩ := List.mem_map.mp hr
  rw [List.mem_range] at hi
  exact ⟨by omega, by omega⟩

theorem field_mem_fieldReads {o n k : ℕ} (ho : o ≤ k) (hk : k < o + n) :
    .field p k ∈ fieldReads p o n :=
  List.mem_map.mpr ⟨k - o, List.mem_range.mpr (by omega), by rw [Nat.add_sub_cancel' ho]⟩

theorem parseRecord_ret (m : Table) (p : ℕ) (st : ParseMadt) :
    (parseRecord m p st).ret = false := by
  simp only [parseRecord, localApicRecord, ioApicRecord, interruptOverrideRecord]
  split_ifs <;> rfl

theorem parseRecord_counts {st : ParseMadt} (h : Counts idx st) :
    Counts (coresAfter m p idx) (parseRecord m p st).val := by
  obtain ⟨hidx, hle⟩ := h
  by_cases ht : m p = apicTypeLocalApic
  · simp only [parseRecord, if_pos ht, coresAfter]
    by_cases hfull : st.cpuidIdx.toNat > maxNeededCores
    · rw [localApicRecord, if_pos hfull, if_neg (by omega)]
      exact ⟨hidx, hle⟩
    · rw [localApicRecord, if_neg hfull, if_pos ⟨ht, by omega⟩]
      refine ⟨?_, by omega⟩
      show (st.cpuidIdx + 1#8).toNat = idx + 1
      unfold maxNeededCores at hfull
      rw [BitVec.toNat_add, BitVec.toNat_ofNat]
      omega
  · simp only [parseRecord, coresAfter, ht, false_and, if_false]
    split
    · exact ⟨hidx, hle⟩
    · split <;> exact ⟨hidx, hle⟩

theorem parseRecord_inside {st : ParseMadt} (h : Counts idx st) (hok : RecordOk m p idx)
    (hne : recordLength m p ≠ 0) (hp : p + recordLength m p < m.length.toNat) :
    ∀ r ∈ (parseRecord m p st).reads, r.Inside m := by
  have hfits := hok.fits hne
  simp only [parseRecord]
  intro r hr
  rcases List.mem_cons.mp hr with rfl | hr
  · exact hok.header_inside
  · split at hr
    · rename_i ht
      unfold localApicRecord at hr
      split at hr
      · exact absurd hr List.not_mem_nil
      · rename_i hfull
        have hlen := hfits.localApic ht (by rw [← h.1]; omega)
        simp only [List.mem_append] at hr
        rcases hr with ((hr | hr) | hr) | hr <;>
          exact fieldReads_inside (by omega) hp r hr
    · split at hr
      · rename_i ht
        have hlen := hfits.ioApic ht
        simp only [ioApicRecord, List.mem_append] at hr
        rcases hr with ((hr | hr) | hr) | hr <;>
          exact fieldReads_inside (by omega) hp r hr
      · split at hr
        · rename_i ht
          have hlen := hfits.override ht
          simp only [interruptOverrideRecord, List.mem_append] at hr
          rcases hr with ((hr | hr) | hr) | hr <;>
            exact fieldReads_inside (by omega) hp r hr
        · exact absurd hr List.not_mem_nil

theorem RecordOk.of_reads {st : ParseMadt} (h : Counts idx st)
    (hhead : MadtRead.Inside m (lengthRead p))
    (hreads : recordLength m p ≠ 0 → ∀ r ∈ (parseRecord m p st).reads, r.Inside m) :
    RecordOk m p idx := by
  refine ⟨hhead, fun hne => ?_⟩
  have hrec := hreads hne
  simp only [parseRecord] at hrec
  refine ⟨fun ht hle => ?_, fun ht => ?_, fun ht => ?_⟩
  · have hfull : ¬ st.cpuidIdx.toNat > maxNeededCores := by rw [h.1]; omega
    rw [if_pos ht, localApicRecord, if_neg hfull] at hrec
    have hlast : MadtRead.field p 7 ∈ fieldReads p 4 4 :=
      field_mem_fieldReads (by omega) (by omega)
    exact (hrec (.field p 7) (by simp [hlast])).2
  · rw [ht, if_neg (by decide), if_pos rfl] at hrec
    have hlast : MadtRead.field p 11 ∈ fieldReads p 8 4 :=
      field_mem_fieldReads (by omega) (by omega)
    exact (hrec (.field p 11) (by simp [ioApicRecord, hlast])).2
  · rw [ht, if_neg (by decide), if_neg (by decide), if_pos rfl] at hrec
    have hlast : MadtRead.field p 9 ∈ fieldReads p 8 2 :=
      field_mem_fieldReads (by omega) (by omega)
    exact (hrec (.field p 9) (by simp [interruptOverrideRecord, hlast])).2

/-! ## Fuel -/

theorem madtWalks_fuel (m : Table) (more : ℕ) :
    (∀ st, walk (recordLength m) m.fin lengthRead (parseRecord m)
      (m.fin - sizeofMadt + more) sizeofMadt st =
        walk (recordLength m) m.fin lengthRead (parseRecord m) (m.fin - sizeofMadt)
          sizeofMadt st) ∧
    (∀ irq v, walk (recordLength m) m.fin lengthRead (remapRecord m irq)
      (m.fin - sizeofMadt + more) sizeofMadt v =
        walk (recordLength m) m.fin lengthRead (remapRecord m irq) (m.fin - sizeofMadt)
          sizeofMadt v) ∧
    ∀ ncores, walk (recordLength m) m.coresFin lengthRead (detectRecord m)
      (m.coresFin - sizeofMadt + more) sizeofMadt ncores =
        walk (recordLength m) m.coresFin lengthRead (detectRecord m)
          (m.coresFin - sizeofMadt) sizeofMadt ncores :=
  ⟨walk_fuel (by omega) more, fun irq => walk_fuel (by omega) more,
    walk_fuel (by omega) more⟩

/-! ## Two memories -/

section Agree

variable (hsame : ∀ o < m.length.toNat, m' o = m o)

include hsame

theorem u32_agree {o : ℕ} (ho : o + 3 < m.length.toNat) : m'.u32 o = m.u32 o := by
  rw [Table.u32, Table.u32, hsame o (by omega), hsame (o + 1) (by omega),
    hsame (o + 2) (by omega), hsame (o + 3) ho]

theorem u16_agree {o : ℕ} (ho : o + 1 < m.length.toNat) : m'.u16 o = m.u16 o := by
  rw [Table.u16, Table.u16, hsame o (by omega), hsame (o + 1) ho]

theorem recordLength_agree (hok : RecordOk m p idx) :
    recordLength m' p = recordLength m p := by
  rw [recordLength, recordLength, hsame (p + 1) hok.header]

theorem parseRecord_agree {st : ParseMadt} (h : Counts idx st) (hok : RecordOk m p idx)
    (hne : recordLength m p ≠ 0) (hp : p + recordLength m p < m.length.toNat) :
    parseRecord m' p st = parseRecord m p st := by
  have hfits := hok.fits hne
  have htype : m' p = m p := hsame p hok.header_inside
  simp only [parseRecord, htype]
  split
  · rename_i ht
    rw [localApicRecord, localApicRecord]
    by_cases hfull : st.cpuidIdx.toNat > maxNeededCores
    · rw [if_pos hfull, if_pos hfull]
    · have hlen := hfits.localApic ht (by rw [← h.1]; omega)
      rw [if_neg hfull, if_neg hfull, hsame (p + 2) (by omega), hsame (p + 3) (by omega),
        u32_agree hsame (by omega)]
  · split
    · rename_i ht
      have hlen := hfits.ioApic ht
      rw [ioApicRecord, ioApicRecord, hsame (p + 2) (by omega),
        u32_agree hsame (o := p + 4) (by omega), u32_agree hsame (o := p + 8) (by omega)]
    · split
      · rename_i ht
        have hlen := hfits.override ht
        rw [interruptOverrideRecord, interruptOverrideRecord, hsame (p + 2) (by omega),
          hsame (p + 3) (by omega), u32_agree hsame (o := p + 4) (by omega),
          u16_agree hsame (o := p + 8) (by omega)]
      · rfl

end Agree

/-! ## The other two walks -/

theorem remapRecord_inside {irq v : U32} (hok : RecordOk m p idx)
    (hne : recordLength m p ≠ 0) (hp : p + recordLength m p < m.length.toNat) :
    ∀ r ∈ (remapRecord m irq p v).reads, r.Inside m := by
  have hfits := hok.fits hne
  intro r hr
  unfold remapRecord at hr
  split at hr
  · rename_i ht
    have hlen := hfits.override ht
    split at hr
    · simp only [List.cons_append, List.mem_cons, List.mem_append] at hr
      rcases hr with rfl | hr | hr
      · exact hok.header_inside
      · exact fieldReads_inside (by omega) hp r hr
      · exact fieldReads_inside (by omega) hp r hr
    · rcases List.mem_cons.mp hr with rfl | hr
      · exact hok.header_inside
      · exact fieldReads_inside (by omega) hp r hr
  · obtain rfl := List.mem_singleton.mp hr
    exact hok.header_inside

theorem remapRecord_agree (hsame : ∀ o < m.length.toNat, m' o = m o) {irq v : U32}
    (hok : RecordOk m p idx) (hne : recordLength m p ≠ 0)
    (hp : p + recordLength m p < m.length.toNat) :
    remapRecord m' irq p v = remapRecord m irq p v := by
  rw [remapRecord, remapRecord, hsame p hok.header_inside]
  split
  · rename_i ht
    have hlen := (hok.fits hne).override ht
    rw [hsame (p + 3) (by omega), u32_agree hsame (o := p + 4) (by omega)]
  · rfl

theorem detectRecord_inside {ncores : U8} (hok : RecordOk m p idx) :
    ∀ r ∈ (detectRecord m p ncores).reads, r.Inside m := by
  intro r hr
  obtain rfl := List.mem_singleton.mp hr
  exact hok.header_inside

theorem detectRecord_agree (hsame : ∀ o < m.length.toNat, m' o = m o) {ncores : U8}
    (hok : RecordOk m p idx) : detectRecord m' p ncores = detectRecord m p ncores := by
  rw [detectRecord, detectRecord, hsame p hok.header_inside]

/-! ## The walks -/

theorem MadtCloses.inside (h : MadtCloses m) (hL : sizeofMadt ≤ m.length.toNat) :
    MadtWalksInside m := by
  have hhead : ∀ q b, RecordOk m q b → (lengthRead q).Inside m := fun q b hok => hok.header
  have hnext : ∀ {q b}, RecordOk m (q + recordLength m q) b →
      q + recordLength m q < m.length.toNat := fun hok => by
    have := hok.header
    omega
  have hstart : ∀ acpi, Counts 0 ⟨acpi, 0, []⟩ := fun _ => ⟨rfl, Nat.zero_le _⟩
  refine ⟨fun acpi => ?_, fun irq => ?_, fun ncores => ?_, fun m' hsame => ?_⟩
  · exact h.reads (hstart _) hhead (fun q b st hok hne hok' hc =>
      ⟨parseRecord_inside hc hok hne (hnext hok'), parseRecord_counts hc⟩) _
  · exact h.reads (I := fun _ _ => True) trivial hhead (fun q b v hok hne hok' _ =>
      ⟨remapRecord_inside hok hne (hnext hok'), trivial⟩) _
  · unfold cpuDetectCores
    split
    · exact fun r hr => absurd hr List.not_mem_nil
    · exact h.reads (I := fun _ _ => True) trivial hhead (fun q b v hok hne hok' _ =>
        ⟨detectRecord_inside hok, trivial⟩) _
  · have hlen : ∀ q b, RecordOk m q b → recordLength m' q = recordLength m q :=
      fun q b hok => recordLength_agree hsame hok
    unfold sizeofMadt at hL
    have hlength : m'.length = m.length := u32_agree hsame (by omega)
    have haddr : m'.lapicAddr = m.lapicAddr := u32_agree hsame (by omega)
    refine ⟨fun acpi => ?_, fun irq => ?_, fun ncores => ?_⟩
    · rw [parseMadt, parseMadt, Table.fin, Table.fin, hlength, haddr]
      exact h.walk_congr (hstart _) hlen (fun q b st hok hne hok' hc =>
        ⟨parseRecord_agree hsame hc hok hne (hnext hok'), parseRecord_counts hc⟩) _
    · rw [acpiRemapIrq, acpiRemapIrq, Table.fin, Table.fin, hlength]
      exact h.walk_congr (I := fun _ _ => True) trivial hlen (fun q b v hok hne hok' _ =>
        ⟨remapRecord_agree hsame hok hne (hnext hok'), trivial⟩) _
    · rw [cpuDetectCores, cpuDetectCores, Table.coresFin, Table.coresFin, hlength]
      split
      · rfl
      · exact h.walk_congr (I := fun _ _ => True) trivial hlen (fun q b v hok _ _ _ =>
          ⟨detectRecord_agree hsame hok, trivial⟩) _

theorem MadtWalksInside.closes (h : MadtWalksInside m)
    (hL : sizeofMadt ≤ m.length.toNat) : MadtCloses m := by
  have hread := h.parse ⟨0, fun _ => 0, 0⟩
  unfold sizeofMadt at hL
  refine ends_of_reads (I := Counts) (fun q b st hc => RecordOk.of_reads hc)
    (fun q b st hc => ⟨parseRecord_ret m q st, parseRecord_counts hc⟩) ?_ _
    ⟨rfl, Nat.zero_le _⟩ ?_ ?_ hread
  · -- a record that starts in the table ends before `madt + length`
    intro q hq
    have hbyte : recordLength m q < 256 := (m (q + 1)).isLt
    have hq' : q + 1 < m.length.toNat := hq
    rw [Table.fin, sizeofMadt]
    omega
  · rw [Table.fin, sizeofMadt]
    omega
  · omega

/-- **The MADT walks stay inside the table exactly when its records close it.** -/
theorem madtWalksInside_iff (m : Table) (hL : 44 ≤ m.length.toNat) :
    MadtWalksInside m ↔ MadtCloses m :=
  ⟨fun h => h.closes hL, fun h => h.inside hL⟩

/-- A table of 54 bytes: one core and a zero length. -/
def closedTable : Table := fun o => if o = 4 then 54 else if o = 45 then 8 else 0

theorem madtWalksInside_closedTable : MadtWalksInside closedTable := by
  have hL : closedTable.length.toNat = 54 := by decide +kernel
  refine (madtWalksInside_iff closedTable (by rw [hL]; omega)).mpr ?_
  refine .step ⟨by rw [hL]; decide, fun _ => ⟨?_, ?_, ?_⟩⟩ (by decide +kernel) (.stop
    ⟨by rw [hL]; decide +kernel, fun h => absurd ?_ h⟩ (by decide +kernel))
  all_goals decide +kernel

/-- A table without records, followed by anything: the first header is read behind
its end. -/
def bareTable : Table := fun o => if o = 4 then 44 else 0

theorem bareTable_outside :
    ¬ ∀ m : Table, 44 ≤ m.length.toNat → MadtWalksInside m := by
  intro hclaim
  have hL : bareTable.length.toNat = 44 := by decide +kernel
  have hread : MadtRead.header 45 ∈ (parseMadt bareTable ⟨0, fun _ => 0, 0⟩).2 := by
    decide +kernel
  have hinside : 45 < bareTable.length.toNat :=
    (hclaim bareTable (by rw [hL])).parse _ _ hread
  omega

end FacelessOS
