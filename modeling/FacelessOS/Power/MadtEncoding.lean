import FacelessOS.Power.MadtInterrupts
import Mathlib.Algebra.Group.Nat.Defs

/-!
# Encoding of the MADT

A table as firmware lays it out: the records back to back behind the header, each with
its own length, and a zero length in the memory that follows. The three walks get the
records back from it (`madt_decode_encode`), whatever other types stand between them and
however far beyond the table their ends lie.
-/

namespace FacelessOS

open RecordWalk

/-! ## Bytes of words -/

def byteAt {w : ℕ} (v : BitVec w) (i : ℕ) : U8 := v.extractLsb' (8 * i) 8

def le16 (v : U16) : List U8 := [byteAt v 0, byteAt v 1]
def le32 (v : U32) : List U8 := [byteAt v 0, byteAt v 1, byteAt v 2, byteAt v 3]

theorem append_byteAt (v : U32) : byteAt v 3 ++ byteAt v 2 ++ byteAt v 1 ++ byteAt v 0 = v := by
  ext i hi
  simp only [byteAt, BitVec.getElem_append, BitVec.getElem_extractLsb']
  split_ifs <;> rw [← BitVec.getLsbD_eq_getElem] <;> congr 1 <;> omega

/-- Memory holds these bytes from `p` on. -/
def Table.Holds (m : Table) (p : ℕ) (bytes : List U8) : Prop :=
  ∀ i b, bytes[i]? = some b → m (p + i) = b

theorem Table.Holds.append {m : Table} {p : ℕ} {bs cs : List U8} (h : m.Holds p (bs ++ cs)) :
    m.Holds p bs ∧ m.Holds (p + bs.length) cs := by
  constructor
  · intro i b hb
    have hlt := (List.getElem?_eq_some_iff.mp hb).1
    exact h i b (by rw [List.getElem?_append_left hlt, hb])
  · intro i b hb
    rw [Nat.add_assoc]
    apply h
    rw [List.getElem?_append_right (Nat.le_add_right _ _), Nat.add_sub_cancel_left, hb]

theorem Table.Holds.u32 {m : Table} {p : ℕ} {v : U32} (h : m.Holds p (le32 v)) :
    m.u32 p = v := by
  have h0 := h 0 _ rfl
  have h1 := h 1 _ rfl
  have h2 := h 2 _ rfl
  have h3 := h 3 _ rfl
  rw [Table.u32, h3, h2, h1, ← Nat.add_zero p, h0]
  exact append_byteAt v

/-! ## Records -/

inductive MadtPayload where
  | localApic (processorId apicId : U8) (flags : U32)
  | ioApic (ioApicId reserved : U8) (ioApicAddr globalSystemInterruptBase : U32)
  | interruptOverride (bus source : U8) (interrupt : U32) (flags : U16)
  | other (type : U8) (unknown : type ≠ apicTypeLocalApic ∧ type ≠ apicTypeIoApic ∧
      type ≠ apicTypeInterruptOverride)

def MadtPayload.type : MadtPayload → U8
  | .localApic _ _ _ => apicTypeLocalApic
  | .ioApic _ _ _ _ => apicTypeIoApic
  | .interruptOverride _ _ _ _ => apicTypeInterruptOverride
  | .other type _ => type

def MadtPayload.bytes : MadtPayload → List U8
  | .localApic processorId apicId flags => [processorId, apicId] ++ le32 flags
  | .ioApic ioApicId reserved ioApicAddr globalSystemInterruptBase =>
      [ioApicId, reserved] ++ (le32 ioApicAddr ++ le32 globalSystemInterruptBase)
  | .interruptOverride bus source interrupt flags =>
      [bus, source] ++ (le32 interrupt ++ le16 flags)
  | .other _ _ => []

/-- A record, with any bytes behind the fields of its struct that its length allows. -/
structure MadtRecord where
  payload : MadtPayload
  rest : List U8
  size_lt : 2 + payload.bytes.length + rest.length < 256

namespace MadtRecord

def size (r : MadtRecord) : ℕ := 2 + r.payload.bytes.length + r.rest.length

def encode (r : MadtRecord) : List U8 :=
  r.payload.type :: BitVec.ofNat 8 r.size :: (r.payload.bytes ++ r.rest)

def processorId? (r : MadtRecord) : Option U8 :=
  match r.payload with
  | .localApic processorId _ _ => some processorId
  | _ => none

def ioApicAddr? (r : MadtRecord) : Option U32 :=
  match r.payload with
  | .ioApic _ _ ioApicAddr _ => some ioApicAddr
  | _ => none

/-- What the record makes of this interrupt, if it overrides it. -/
def override? (r : MadtRecord) (irq : U32) : Option U32 :=
  match r.payload with
  | .interruptOverride _ source interrupt _ =>
      if source.setWidth 32 = irq then some interrupt else none
  | _ => none

@[simp] theorem length_encode (r : MadtRecord) : r.encode.length = r.size := by
  simp only [encode, size, List.length_cons, List.length_append]
  omega

variable {m : Table} {q : ℕ} {r : MadtRecord}

theorem type_of_holds (h : m.Holds q r.encode) : m q = r.payload.type := h 0 _ rfl

theorem recordLength_of_holds (h : m.Holds q r.encode) : recordLength m q = r.size := by
  have hlen : m (q + 1) = BitVec.ofNat 8 r.size := h 1 _ rfl
  rw [recordLength, hlen, BitVec.toNat_ofNat]
  exact Nat.mod_eq_of_lt r.size_lt

theorem payload_of_holds (h : m.Holds q r.encode) : m.Holds (q + 2) r.payload.bytes := by
  have hsplit : r.encode = [r.payload.type, BitVec.ofNat 8 r.size] ++
      (r.payload.bytes ++ r.rest) := rfl
  rw [hsplit] at h
  exact h.append.2.append.1

/-! Each walk reads of a record what was encoded. -/

theorem processorId?_of_holds (h : m.Holds q r.encode) :
    (if m q = apicTypeLocalApic then some (m (q + 2)) else none) = r.processorId? := by
  rw [type_of_holds h]
  have hfields := payload_of_holds h
  rcases r with ⟨payload, rest, hsize⟩
  cases payload with
  | localApic processorId apicId flags =>
      have hid : m (q + 2) = processorId := hfields 0 _ rfl
      rw [hid]
      rfl
  | ioApic _ _ _ _ => rfl
  | interruptOverride _ _ _ _ => rfl
  | other type hunknown => exact if_neg hunknown.1

theorem ioApicAddr?_of_holds (h : m.Holds q r.encode) :
    (if m q = apicTypeIoApic then some (m.u32 (q + 4)) else none) = r.ioApicAddr? := by
  rw [type_of_holds h]
  have hfields := payload_of_holds h
  rcases r with ⟨payload, rest, hsize⟩
  cases payload with
  | localApic _ _ _ => rfl
  | ioApic ioApicId reserved ioApicAddr globalSystemInterruptBase =>
      have haddr : m.u32 (q + 4) = ioApicAddr := hfields.append.2.append.1.u32
      rw [haddr]
      rfl
  | interruptOverride _ _ _ _ => rfl
  | other type hunknown => exact if_neg hunknown.2.1

theorem override?_of_holds (h : m.Holds q r.encode) (irq : U32) :
    (if Overrides m irq q then some (m.u32 (q + 4)) else none) = r.override? irq := by
  have htype := type_of_holds h
  have hfields := payload_of_holds h
  rcases r with ⟨payload, rest, hsize⟩
  cases payload with
  | localApic _ _ _ =>
      have hne : apicTypeLocalApic ≠ apicTypeInterruptOverride := by decide
      exact if_neg fun ho => hne (htype.symm.trans ho.1)
  | ioApic _ _ _ _ =>
      have hne : apicTypeIoApic ≠ apicTypeInterruptOverride := by decide
      exact if_neg fun ho => hne (htype.symm.trans ho.1)
  | interruptOverride bus source interrupt flags =>
      have hsource : m (q + 3) = source := hfields 1 _ rfl
      have hinterrupt : m.u32 (q + 4) = interrupt := hfields.append.2.append.1.u32
      by_cases hirq : source.setWidth 32 = irq
      · have ho : Overrides m irq q := ⟨htype, by rw [hsource, hirq]⟩
        simp only [if_pos ho, override?, if_pos hirq, hinterrupt]
      · have ho : ¬ Overrides m irq q := fun ho => hirq (by rw [← hsource, ho.2])
        simp only [if_neg ho, override?, if_neg hirq]
  | other type hunknown => exact if_neg fun ho => hunknown.2.2 (htype.symm.trans ho.1)

end MadtRecord

/-! ## Tables -/

def encodeRecords (records : List MadtRecord) : List U8 := records.flatMap MadtRecord.encode

/-- The records stand behind the header, whose length counts them in, and a record header
with a zero length follows the table. -/
structure EncodesMadt (m : Table) (lapicAddr : U32) (records : List MadtRecord) : Prop where
  lapicAddr : m.lapicAddr = lapicAddr
  length : m.length.toNat = sizeofMadt + (encodeRecords records).length
  records : m.Holds sizeofMadt (encodeRecords records)
  closed : recordLength m m.length.toNat = 0

/-- The bytes of a table. What the walks do not look at is zero. -/
def encodeMadt (lapicAddr : U32) (records : List MadtRecord) : List U8 :=
  List.replicate 4 0 ++
    (le32 (BitVec.ofNat 32 (sizeofMadt + (encodeRecords records).length)) ++
      (List.replicate 28 0 ++ (le32 lapicAddr ++ (List.replicate 4 0 ++
        encodeRecords records))))

def memoryOf (bytes : List U8) : Table := fun o => bytes.getD o 0

/-- Every list of records that a 32-bit length can count has its table. -/
theorem encodeMadt_encodes {records : List MadtRecord} (lapicAddr : U32)
    (hlen : sizeofMadt + (encodeRecords records).length < 2 ^ 32) :
    EncodesMadt (memoryOf (encodeMadt lapicAddr records)) lapicAddr records := by
  have hall : (memoryOf (encodeMadt lapicAddr records)).Holds 0
      (encodeMadt lapicAddr records) := by
    intro i b hb
    rw [memoryOf, Nat.zero_add, List.getD_eq_getElem?_getD, hb, Option.getD_some]
  obtain ⟨hlength, hall⟩ := hall.append.2.append
  obtain ⟨haddr, hall⟩ := hall.append.2.append
  have hL : (memoryOf (encodeMadt lapicAddr records)).length.toNat =
      sizeofMadt + (encodeRecords records).length := by
    have hfield : (memoryOf (encodeMadt lapicAddr records)).length =
        BitVec.ofNat 32 (sizeofMadt + (encodeRecords records).length) := hlength.u32
    rw [hfield, BitVec.toNat_ofNat, Nat.mod_eq_of_lt hlen]
  refine ⟨haddr.u32, hL, hall.append.2, ?_⟩
  have htotal : (encodeMadt lapicAddr records).length =
      sizeofMadt + (encodeRecords records).length := by
    simp only [encodeMadt, le32, List.length_append, List.length_replicate, List.length_cons,
      List.length_nil, sizeofMadt]
    omega
  rw [hL, recordLength, memoryOf, List.getD_eq_getElem?_getD,
    List.getElem?_eq_none (by omega)]
  rfl

def recordOffsets : ℕ → List MadtRecord → List ℕ
  | _, [] => []
  | p, r :: records => p :: recordOffsets (p + r.size) records

variable {m : Table} {p : ℕ} {records : List MadtRecord}

theorem tiles_of_holds (h : m.Holds p (encodeRecords records)) :
    Tiles (recordLength m) (p + (encodeRecords records).length) p (recordOffsets p records) := by
  induction records generalizing p with
  | nil => exact .nil
  | cons r records ih =>
      obtain ⟨hr, hrest⟩ := Table.Holds.append (show m.Holds p (r.encode ++ _) from h)
      have hlen := MadtRecord.recordLength_of_holds hr
      have hend : p + (encodeRecords (r :: records)).length =
          p + r.size + (encodeRecords records).length := by
        rw [encodeRecords, List.flatMap_cons, List.length_append, MadtRecord.length_encode,
          Nat.add_assoc]
        rfl
      rw [MadtRecord.length_encode] at hrest
      rw [hend]
      refine .cons ?_ ?_
      · rw [hlen, MadtRecord.size]
        omega
      · rw [hlen]
        exact ih hrest

theorem filterMap_recordOffsets {δ : Type*} {f : ℕ → Option δ} {g : MadtRecord → Option δ}
    (hfg : ∀ q r, m.Holds q r.encode → f q = g r)
    (h : m.Holds p (encodeRecords records)) :
    (recordOffsets p records).filterMap f = records.filterMap g := by
  induction records generalizing p with
  | nil => rfl
  | cons r records ih =>
      obtain ⟨hr, hrest⟩ := Table.Holds.append (show m.Holds p (r.encode ++ _) from h)
      rw [MadtRecord.length_encode] at hrest
      rw [recordOffsets, List.filterMap_cons, List.filterMap_cons, hfg p r hr, ih hrest]

theorem map_filter_eq_filterMap {δ : Type*} (P : ℕ → Prop) [DecidablePred P] (f : ℕ → δ)
    (qs : List ℕ) : (qs.filter fun q => decide (P q)).map f =
      qs.filterMap fun q => if P q then some (f q) else none := by
  induction qs with
  | nil => rfl
  | cons q qs ih =>
      by_cases hq : P q
      · simp only [List.filter_cons, List.filterMap_cons, hq, decide_true, if_true,
          List.map_cons, ih]
      · simp only [List.filter_cons, List.filterMap_cons, hq, decide_false,
          Bool.false_eq_true, if_false, ih]

theorem EncodesMadt.madtRecords {lapicAddr : U32} (h : EncodesMadt m lapicAddr records) :
    MadtRecords m (recordOffsets sizeofMadt records) := by
  constructor
  · rw [h.length]
    exact tiles_of_holds h.records
  · exact h.closed

/-- **The walks decode what was encoded.** -/
theorem madt_decode_encode {lapicAddr : U32} (h : EncodesMadt m lapicAddr records)
    (hcores : (records.filterMap MadtRecord.processorId?).length ≤ maxNeededCores)
    (acpi : Acpi) :
    (parseMadt m acpi).1.cpuids = records.filterMap MadtRecord.processorId? ∧
    (parseMadt m acpi).1.acpi.ioApicPtr =
      ((records.filterMap MadtRecord.ioApicAddr?).getLast?.map fun addr =>
        addr.setWidth 64).getD acpi.ioApicPtr ∧
    (parseMadt m acpi).1.acpi.localApicAddr = lapicAddr.setWidth 64 ∧
    (cpuDetectCores m 0).1.toNat = (records.filterMap MadtRecord.processorId?).length ∧
    ∀ irq, (acpiRemapIrq m irq).1 =
      (records.findSome? fun r => r.override? irq).getD irq := by
  have hrecords := h.madtRecords
  have hids : (localApics m (recordOffsets sizeofMadt records)).map (fun p => m (p + 2)) =
      records.filterMap MadtRecord.processorId? := by
    rw [localApics, map_filter_eq_filterMap]
    exact filterMap_recordOffsets (fun q r => MadtRecord.processorId?_of_holds) h.records
  have haddrs : (ioApics m (recordOffsets sizeofMadt records)).map (fun p => m.u32 (p + 4)) =
      records.filterMap MadtRecord.ioApicAddr? := by
    rw [ioApics, map_filter_eq_filterMap]
    exact filterMap_recordOffsets (fun q r => MadtRecord.ioApicAddr?_of_holds) h.records
  have hmax : maxNeededCores = 16 := rfl
  rw [← hids, List.length_map] at hcores
  refine ⟨?_, ?_, ?_, ?_, fun irq => ?_⟩
  · rw [parseMadt_cpuids hrecords.parse_visits (by omega), hids]
  · rw [parseMadt_ioApicPtr hrecords.parse_visits, ← haddrs, List.getLast?_map, Option.map_map]
    rfl
  · rw [parseMadt_localApicAddr hrecords.parse_visits, h.lapicAddr]
  · rw [cpuDetectCores_toNat hrecords.detect_visits (by omega), ← hids, List.length_map]
  · rw [acpiRemapIrq_eq_find hrecords.parse_visits, ← List.head?_filter, ← List.head?_map,
      map_filter_eq_filterMap, ← List.head?_filterMap]
    rw [filterMap_recordOffsets (fun q r hq => MadtRecord.override?_of_holds hq irq) h.records]

/-- A core, the override of the timer interrupt, a record of another type and an I/O APIC. -/
def smallMadt : List MadtRecord :=
  [⟨.localApic 3 7 1, [], by decide⟩, ⟨.interruptOverride 0 0 2 0, [], by decide⟩,
    ⟨.other 4 (by decide), [0, 0, 0, 1], by decide⟩, ⟨.ioApic 1 0 0xfec00000 0, [], by decide⟩]

theorem madt_decode_encode_smallMadt :
    (parseMadt (memoryOf (encodeMadt 0xfee00000 smallMadt)) ⟨0, fun _ => 0, 0⟩).1.cpuids = [3] ∧
    (acpiRemapIrq (memoryOf (encodeMadt 0xfee00000 smallMadt)) 0).1 = 2 ∧
    (acpiRemapIrq (memoryOf (encodeMadt 0xfee00000 smallMadt)) 1).1 = 1 := by
  have hencodes : EncodesMadt (memoryOf (encodeMadt 0xfee00000 smallMadt)) 0xfee00000 smallMadt :=
    encodeMadt_encodes _ (by decide)
  obtain ⟨hids, -, -, -, hremap⟩ := madt_decode_encode hencodes (by decide) ⟨0, fun _ => 0, 0⟩
  exact ⟨hids, hremap 0, hremap 1⟩

end FacelessOS
