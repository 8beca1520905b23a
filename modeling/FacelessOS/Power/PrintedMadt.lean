import FacelessOS.Memory.PrintedMap
import FacelessOS.Power.MadtEncoding

/-!
# The MADT as `parse_madt` prints it

Behind a line that names the kind of a record stand its fields, each on a line of its own.
All fields have at most 32 bits, so unlike the memory map nothing is lost on the way through
`log`: the text determines the records that are printed (`parseMadt_text_eq_iff`).
-/

namespace FacelessOS

open Buffer RecordWalk

/-! ## Entries -/

inductive MadtEntry where
  | core (processorId apicId : U8) (flags : U32)
  | ioApic (ioApicId : U8) (ioApicAddr globalSystemInterruptBase : U32)
  | interruptOverride (bus source : U8) (interrupt : U32) (flags : U16)
deriving DecidableEq, Repr

def madtEntryAt (m : Table) (p : ℕ) : Option MadtEntry :=
  if m p = apicTypeLocalApic then some (.core (m (p + 2)) (m (p + 3)) (m.u32 (p + 4)))
  else if m p = apicTypeIoApic then some (.ioApic (m (p + 2)) (m.u32 (p + 4)) (m.u32 (p + 8)))
  else if m p = apicTypeInterruptOverride then
    some (.interruptOverride (m (p + 2)) (m (p + 3)) (m.u32 (p + 4)) (m.u16 (p + 8)))
  else none

def MadtRecord.printed? (r : MadtRecord) : Option MadtEntry :=
  match r.payload with
  | .localApic processorId apicId flags => some (.core processorId apicId flags)
  | .ioApic ioApicId _ ioApicAddr globalSystemInterruptBase =>
      some (.ioApic ioApicId ioApicAddr globalSystemInterruptBase)
  | .interruptOverride bus source interrupt flags =>
      some (.interruptOverride bus source interrupt flags)
  | .other _ _ => none

def MadtEntry.cores : MadtEntry → ℕ
  | .core _ _ _ => 1
  | .ioApic _ _ _ => 0
  | .interruptOverride _ _ _ _ => 0

/-- The entries without the cores behind the first `n`. -/
def firstCores : ℕ → List MadtEntry → List MadtEntry
  | _, [] => []
  | n, e :: es => if e.cores ≤ n then e :: firstCores (n - e.cores) es else firstCores n es

def entryCalls : MadtEntry → List LogCall
  | .core processorId apicId flags =>
      [⟨dbgPurple ++ "\n\n---- CPU core found ----\n", []⟩,
        ⟨dbgYellow ++ "<core_info>\n", []⟩,
        ⟨dbgCyan ++ "    Processor ID: %d\n", [processorId.setWidth 64]⟩,
        ⟨dbgCyan ++ "    APIC ID: %d\n", [apicId.setWidth 64]⟩,
        ⟨dbgCyan ++ "    Flags: %x\n", [flags.setWidth 64]⟩,
        ⟨dbgYellow ++ "</core_info>\n\n", []⟩]
  | .ioApic ioApicId ioApicAddr globalSystemInterruptBase =>
      [⟨dbgPurple ++ "\n\n---- I/O APIC found ----\n", []⟩,
        ⟨dbgYellow ++ "<apic_info>\n", []⟩,
        ⟨dbgCyan ++ "    I/O APIC ID: %d\n", [ioApicId.setWidth 64]⟩,
        ⟨dbgCyan ++ "    I/O APIC address: %x\n", [ioApicAddr.setWidth 64]⟩,
        ⟨dbgCyan ++ "    Global system interrupt base: %d\n",
          [globalSystemInterruptBase.setWidth 64]⟩,
        ⟨dbgYellow ++ "</apic_info>\n\n", []⟩]
  | .interruptOverride bus source interrupt flags =>
      [⟨dbgPurple ++ "\n\n---- Interrupt Override found ----\n", []⟩,
        ⟨dbgYellow ++ "<apic_info>\n", []⟩,
        ⟨dbgCyan ++ "    Bus: %d\n", [bus.setWidth 64]⟩,
        ⟨dbgCyan ++ "    Source: %d\n", [source.setWidth 64]⟩,
        ⟨dbgCyan ++ "    Interrupt: %x\n", [interrupt.setWidth 64]⟩,
        ⟨dbgCyan ++ "    Flags: %x\n", [flags.setWidth 64]⟩,
        ⟨dbgYellow ++ "</apic_info>\n\n", []⟩]

variable {m m' : Table} {p : ℕ} {qs : List ℕ} {records others : List MadtRecord}

theorem Table.Holds.u16 {v : U16} (h : m.Holds p (le16 v)) : m.u16 p = v := by
  have h0 : m p = byteAt v 0 := h 0 _ rfl
  have h1 : m (p + 1) = byteAt v 1 := h 1 _ rfl
  rw [Table.u16, h0, h1]
  ext i hi
  simp only [byteAt, BitVec.getElem_append, BitVec.getElem_extractLsb']
  split_ifs <;> rw [← BitVec.getLsbD_eq_getElem] <;> congr 1 <;> omega

theorem madtEntryAt_of_holds {r : MadtRecord} (h : m.Holds p r.encode) :
    madtEntryAt m p = r.printed? := by
  have htype := MadtRecord.type_of_holds h
  have hfields := MadtRecord.payload_of_holds h
  rw [madtEntryAt, htype]
  rcases r with ⟨payload, rest, hsize⟩
  cases payload with
  | localApic processorId apicId flags =>
      have hid : m (p + 2) = processorId := hfields 0 _ rfl
      have hapic : m (p + 3) = apicId := hfields 1 _ rfl
      have hflags : m.u32 (p + 4) = flags := hfields.append.2.u32
      rw [hid, hapic, hflags]
      rfl
  | ioApic ioApicId reserved ioApicAddr globalSystemInterruptBase =>
      have hid : m (p + 2) = ioApicId := hfields 0 _ rfl
      have haddr : m.u32 (p + 4) = ioApicAddr := hfields.append.2.append.1.u32
      have hbase : m.u32 (p + 8) = globalSystemInterruptBase := hfields.append.2.append.2.u32
      rw [hid, haddr, hbase]
      rfl
  | interruptOverride bus source interrupt flags =>
      have hbus : m (p + 2) = bus := hfields 0 _ rfl
      have hsource : m (p + 3) = source := hfields 1 _ rfl
      have hinterrupt : m.u32 (p + 4) = interrupt := hfields.append.2.append.1.u32
      have hflags : m.u16 (p + 8) = flags := hfields.append.2.append.2.u16
      rw [hbus, hsource, hinterrupt, hflags]
      rfl
  | other type hunknown =>
      exact (if_neg hunknown.1).trans ((if_neg hunknown.2.1).trans (if_neg hunknown.2.2))

/-! ## The walk -/

/-- What a record prints, and what it leaves of the guard. -/
structure PrintsEntry (st st' : ParseMadt) (e : MadtEntry) : Prop where
  room : e.cores ≤ maxNeededCores + 1 - st.cpuidIdx.toNat
  out : st'.out = st.out ++ entryCalls e
  cpuidIdx : st'.cpuidIdx.toNat = st.cpuidIdx.toNat + e.cores

theorem parseRecord_cases (m : Table) (p : ℕ) (st : ParseMadt) :
    (∃ e, madtEntryAt m p = some e ∧ PrintsEntry st (parseRecord m p st).val e) ∨
    (parseRecord m p st).val = st ∧
      ∀ e ∈ madtEntryAt m p, maxNeededCores + 1 - st.cpuidIdx.toNat < e.cores := by
  unfold parseRecord madtEntryAt
  by_cases hlocal : m p = apicTypeLocalApic
  · rw [if_pos hlocal, if_pos hlocal]
    by_cases hfull : maxNeededCores < st.cpuidIdx.toNat
    · refine .inr ⟨localApicRecord_full hfull, ?_⟩
      intro e he
      obtain rfl := Option.some.inj he
      show _ < 1
      omega
    · refine .inl ⟨_, rfl, ?_, ?_, ?_⟩
      · show 1 ≤ _
        omega
      · rw [localApicRecord, if_neg (by omega)]
        rfl
      · rw [localApicRecord, if_neg (by omega)]
        show (st.cpuidIdx + 1#8).toNat = st.cpuidIdx.toNat + 1
        unfold maxNeededCores at hfull
        rw [BitVec.toNat_add, BitVec.toNat_ofNat]
        omega
  rw [if_neg hlocal, if_neg hlocal]
  by_cases hio : m p = apicTypeIoApic
  · rw [if_pos hio, if_pos hio]
    exact .inl ⟨_, rfl, Nat.zero_le _, rfl, rfl⟩
  rw [if_neg hio, if_neg hio]
  by_cases hover : m p = apicTypeInterruptOverride
  · rw [if_pos hover, if_pos hover]
    exact .inl ⟨_, rfl, Nat.zero_le _, rfl, rfl⟩
  · rw [if_neg hover, if_neg hover]
    exact .inr ⟨rfl, fun e he => absurd he (by simp)⟩

/-- The calls over a run of records, with the cores that the guard lets in. -/
theorem foldl_parseRecord_out (st : ParseMadt) :
    (qs.foldl (fun st p => (parseRecord m p st).val) st).out = st.out ++
      (firstCores (maxNeededCores + 1 - st.cpuidIdx.toNat)
        (qs.filterMap (madtEntryAt m))).flatMap entryCalls := by
  induction qs generalizing st with
  | nil => exact (List.append_nil _).symm
  | cons p qs ih =>
      rw [List.foldl_cons, ih]
      rcases parseRecord_cases m p st with ⟨e, he, hprints⟩ | ⟨hst, hnone⟩
      · rw [List.filterMap_cons_some he, firstCores, if_pos hprints.room, List.flatMap_cons,
          hprints.out, hprints.cpuidIdx, List.append_assoc, Nat.sub_add_eq]
      · rw [hst]
        cases he : madtEntryAt m p with
        | none => rw [List.filterMap_cons_none he]
        | some e =>
            rw [List.filterMap_cons_some he, firstCores, if_neg (Nat.not_le.mpr (hnone e he))]

theorem parseMadt_out (h : Visits (recordLength m) m.fin sizeofMadt qs) (acpi : Acpi) :
    (parseMadt m acpi).1.out =
      (firstCores (maxNeededCores + 1) (qs.filterMap (madtEntryAt m))).flatMap entryCalls := by
  rw [parseMadt, walk_eq_foldl h (parseRecord_ret m) _ (by omega), foldl_parseRecord_out]
  rfl

/-! ## Numbers -/

theorem digit_mem {d : U8} (hd : ascii '0' ≤ d ∧ d ≤ ascii '9') : d ∈ bytes "-0123456789" := by
  revert d
  decide +kernel

theorem not_mem_decText {number : U32} {c : U8} (hc : c ∉ bytes "-0123456789") :
    c ∉ decText number := by
  intro hmem
  apply hc
  by_cases hmin : number = 0x80000000#32
  · rw [hmin, decText_min] at hmem
    rw [List.mem_singleton.mp hmem]
    decide
  · obtain ⟨digits, hdec⟩ := decText_decimal hmin
    rw [hdec.sign, List.mem_append] at hmem
    rcases hmem with hsign | hdigit
    · split at hsign
      · rw [List.mem_singleton.mp hsign]
        decide
      · exact absurd hsign List.not_mem_nil
    · exact digit_mem (hdec.digit c hdigit)

theorem IsDecimal.unique {n k : ℤ} {ds es text : List U8} (hn : IsDecimal n ds text)
    (hk : IsDecimal k es text) : n = k := by
  have hdash : ∀ {l : List U8}, (∀ d ∈ l, ascii '0' ≤ d ∧ d ≤ ascii '9') → ascii '-' ∉ l :=
    fun hl hmem => absurd (hl _ hmem).1 (by decide)
  have htext := hn.sign.symm.trans hk.sign
  have hds := hdash hn.digit
  have hes := hdash hk.digit
  have habs : ds = es → n.natAbs = k.natAbs := by
    rintro rfl
    rw [← hn.value, hk.value]
  split at htext
  · split at htext
    · have habs := habs (List.cons.inj htext).2
      omega
    · rw [List.nil_append] at htext
      exact absurd (htext ▸ List.mem_cons_self) hes
  · split at htext
    · rw [List.nil_append] at htext
      exact absurd (htext ▸ List.mem_cons_self) hds
    · have habs := habs htext
      omega

theorem IsDecimal.ne_dash {n : ℤ} {ds : List U8} : ¬ IsDecimal n ds [ascii '-'] := by
  intro h
  have hlast : ascii '-' ∈ ds := by
    have htext := h.sign
    split at htext
    · exact absurd (List.cons.inj htext).2.symm h.nonempty
    · have hds : ds = [ascii '-'] := htext.symm
      rw [hds]
      exact List.mem_cons_self
  exact absurd (h.digit _ hlast).1 (by decide)

/-- `%d` loses nothing, the most negative number included. -/
theorem decText_injective {n k : U32} (h : decText n = decText k) : n = k := by
  by_cases hn : n = 0x80000000#32
  · by_cases hk : k = 0x80000000#32
    · rw [hn, hk]
    · obtain ⟨es, hdec⟩ := decText_decimal hk
      rw [← h, hn, decText_min] at hdec
      exact absurd hdec IsDecimal.ne_dash
  · obtain ⟨ds, hdec⟩ := decText_decimal hn
    by_cases hk : k = 0x80000000#32
    · rw [h, hk, decText_min] at hdec
      exact absurd hdec IsDecimal.ne_dash
    · obtain ⟨es, hdec'⟩ := decText_decimal hk
      rw [h] at hdec
      exact BitVec.eq_of_toInt_eq (hdec.unique hdec')

/-! ## Text -/

def plainChar (c : Char) : Bool := c.toNat % 256 != 37 && c.toNat % 256 != 0

theorem plain_bytes {s : String} (h : s.toList.all plainChar = true) : Plain (bytes s) := by
  intro c hc
  obtain ⟨d, hd, rfl⟩ := List.mem_map.mp hc
  have hplain := List.all_eq_true.mp h d hd
  rw [plainChar, Bool.and_eq_true, bne_iff_ne, bne_iff_ne] at hplain
  have hnat : (ascii d).toNat = d.toNat % 256 := BitVec.toNat_ofNat ..
  rw [← hnat] at hplain
  exact ⟨fun heq => hplain.1 (congrArg BitVec.toNat heq),
    fun heq => hplain.2 (congrArg BitVec.toNat heq)⟩

def line (field : String) (value : List U8) : List U8 := bytes field ++ (value ++ [ascii '\n'])

def entryLines : MadtEntry → List U8
  | .core processorId apicId flags =>
      bytes (dbgPurple ++ "\n\n---- CPU core found ----\n") ++
        (bytes (dbgYellow ++ "<core_info>\n") ++
          (line (dbgCyan ++ "    Processor ID: ") (decText (processorId.setWidth 32)) ++
            (line (dbgCyan ++ "    APIC ID: ") (decText (apicId.setWidth 32)) ++
              (line (dbgCyan ++ "    Flags: ") (hexText (flags.setWidth 32)) ++
                bytes (dbgYellow ++ "</core_info>\n\n")))))
  | .ioApic ioApicId ioApicAddr globalSystemInterruptBase =>
      bytes (dbgPurple ++ "\n\n---- I/O APIC found ----\n") ++
        (bytes (dbgYellow ++ "<apic_info>\n") ++
          (line (dbgCyan ++ "    I/O APIC ID: ") (decText (ioApicId.setWidth 32)) ++
            (line (dbgCyan ++ "    I/O APIC address: ") (hexText (ioApicAddr.setWidth 32)) ++
              (line (dbgCyan ++ "    Global system interrupt base: ")
                  (decText (globalSystemInterruptBase.setWidth 32)) ++
                bytes (dbgYellow ++ "</apic_info>\n\n")))))
  | .interruptOverride bus source interrupt flags =>
      bytes (dbgPurple ++ "\n\n---- Interrupt Override found ----\n") ++
        (bytes (dbgYellow ++ "<apic_info>\n") ++
          (line (dbgCyan ++ "    Bus: ") (decText (bus.setWidth 32)) ++
            (line (dbgCyan ++ "    Source: ") (decText (source.setWidth 32)) ++
              (line (dbgCyan ++ "    Interrupt: ") (hexText (interrupt.setWidth 32)) ++
                (line (dbgCyan ++ "    Flags: ") (hexText (flags.setWidth 32)) ++
                  bytes (dbgYellow ++ "</apic_info>\n\n"))))))

variable {calls : List LogCall} {rest : List U8}

theorem logs_line_of (k : Conv) (field : String) {fmt : String} {v : U64} {value : List U8}
    (hfmt : bytes fmt = bytes field ++ [ascii '%', k.letter, ascii '\n'])
    (hfield : Plain (bytes field)) (hvalue : ∀ va, k.Text va v value) (h : Logs calls rest) :
    Logs (⟨fmt, [v]⟩ :: calls) (line field value ++ rest) := by
  have hnewline : ascii '\n' ≠ ascii '%' ∧ ascii '\n' ≠ 0#8 := by decide
  have hencode : bytes fmt = encode (plainItems (bytes field) ++ [.conv k, .char _ hnewline]) := by
    rw [encode_plainItems hfield, encode_conv, encode_char, encode_nil]
    exact hfmt
  have hsep : Separated (plainItems (bytes field) ++ [.conv k, .char _ hnewline]) :=
    (separated_plainItems hfield).mpr trivial
  exact Logs.call hencode hsep
    (fun mem => renders_plainItems hfield (.conv (hvalue _) (.char .nil))) h

theorem logs_dec (field : String) {fmt : String} {w : ℕ} {x : BitVec w}
    (hfmt : bytes fmt = bytes field ++ [ascii '%', ascii 'd', ascii '\n'])
    (hfield : field.toList.all plainChar = true) (h : Logs calls rest) :
    Logs (⟨fmt, [x.setWidth 64]⟩ :: calls) (line field (decText (x.setWidth 32)) ++ rest) := by
  refine logs_line_of .d field hfmt (plain_bytes hfield) (fun va => ?_) h
  rw [← BitVec.setWidth_setWidth_of_le x (show 32 ≤ 64 by decide)]
  exact fun decString => dec2str_holds decString _

theorem logs_hex (field : String) {fmt : String} {w : ℕ} {x : BitVec w}
    (hfmt : bytes fmt = bytes field ++ [ascii '%', ascii 'x', ascii '\n'])
    (hfield : field.toList.all plainChar = true) (h : Logs calls rest) :
    Logs (⟨fmt, [x.setWidth 64]⟩ :: calls) (line field (hexText (x.setWidth 32)) ++ rest) := by
  refine logs_line_of .x field hfmt (plain_bytes hfield) (fun va => ?_) h
  rw [← BitVec.setWidth_setWidth_of_le x (show 32 ≤ 64 by decide)]
  exact fun hexString => hex2str_holds hexString _

theorem logs_entry (e : MadtEntry) (h : Logs calls rest) :
    Logs (entryCalls e ++ calls) (entryLines e ++ rest) := by
  cases e with
  | core processorId apicId flags =>
      simp only [entryLines, List.append_assoc]
      refine Logs.plain (plain_bytes (by decide +kernel)) ?_
      refine Logs.plain (plain_bytes (by decide +kernel)) ?_
      refine logs_dec (dbgCyan ++ "    Processor ID: ") (by simp [bytes, dbgCyan])
        (by decide +kernel) ?_
      refine logs_dec (dbgCyan ++ "    APIC ID: ") (by simp [bytes, dbgCyan])
        (by decide +kernel) ?_
      refine logs_hex (dbgCyan ++ "    Flags: ") (by simp [bytes, dbgCyan])
        (by decide +kernel) ?_
      exact Logs.plain (plain_bytes (by decide +kernel)) h
  | ioApic ioApicId ioApicAddr globalSystemInterruptBase =>
      simp only [entryLines, List.append_assoc]
      refine Logs.plain (plain_bytes (by decide +kernel)) ?_
      refine Logs.plain (plain_bytes (by decide +kernel)) ?_
      refine logs_dec (dbgCyan ++ "    I/O APIC ID: ") (by simp [bytes, dbgCyan])
        (by decide +kernel) ?_
      refine logs_hex (dbgCyan ++ "    I/O APIC address: ") (by simp [bytes, dbgCyan])
        (by decide +kernel) ?_
      refine logs_dec (dbgCyan ++ "    Global system interrupt base: ") (by simp [bytes, dbgCyan])
        (by decide +kernel) ?_
      exact Logs.plain (plain_bytes (by decide +kernel)) h
  | interruptOverride bus source interrupt flags =>
      simp only [entryLines, List.append_assoc]
      refine Logs.plain (plain_bytes (by decide +kernel)) ?_
      refine Logs.plain (plain_bytes (by decide +kernel)) ?_
      refine logs_dec (dbgCyan ++ "    Bus: ") (by simp [bytes, dbgCyan])
        (by decide +kernel) ?_
      refine logs_dec (dbgCyan ++ "    Source: ") (by simp [bytes, dbgCyan])
        (by decide +kernel) ?_
      refine logs_hex (dbgCyan ++ "    Interrupt: ") (by simp [bytes, dbgCyan])
        (by decide +kernel) ?_
      refine logs_hex (dbgCyan ++ "    Flags: ") (by simp [bytes, dbgCyan])
        (by decide +kernel) ?_
      exact Logs.plain (plain_bytes (by decide +kernel)) h

theorem logs_entries (es : List MadtEntry) :
    Logs (es.flatMap entryCalls) (es.flatMap entryLines) := by
  induction es with
  | nil => exact Logs.nil
  | cons e es ih =>
      rw [List.flatMap_cons, List.flatMap_cons]
      exact logs_entry e ih

/-! ## What the text determines -/

theorem line_cancel {field : String} {v v' r r' : List U8} (hv : ascii '\n' ∉ v)
    (hv' : ascii '\n' ∉ v') (h : line field v ++ r = line field v' ++ r') : v = v' ∧ r = r' := by
  simp only [line, List.append_assoc, List.singleton_append] at h
  exact append_cons_cancel hv hv' (List.append_cancel_left h)

theorem setWidth_injective {w : ℕ} (hw : w ≤ 32) {x y : BitVec w}
    (h : x.setWidth 32 = y.setWidth 32) : x = y := by
  have hback := congrArg (BitVec.setWidth w) h
  rwa [BitVec.setWidth_setWidth_of_le x hw, BitVec.setWidth_setWidth_of_le y hw,
    BitVec.setWidth_eq, BitVec.setWidth_eq] at hback

theorem line_dec {w : ℕ} (hw : w ≤ 32) {field : String} {x y : BitVec w} {r r' : List U8}
    (h : line field (decText (x.setWidth 32)) ++ r = line field (decText (y.setWidth 32)) ++ r') :
    x = y ∧ r = r' := by
  have hnewline : ∀ n : U32, ascii '\n' ∉ decText n := fun n => not_mem_decText (by decide)
  obtain ⟨htext, hrest⟩ := line_cancel (hnewline _) (hnewline _) h
  exact ⟨setWidth_injective hw (decText_injective htext), hrest⟩

theorem line_hex {w : ℕ} (hw : w ≤ 32) {field : String} {x y : BitVec w} {r r' : List U8}
    (h : line field (hexText (x.setWidth 32)) ++ r = line field (hexText (y.setWidth 32)) ++ r') :
    x = y ∧ r = r' := by
  have hnewline : ∀ n : U32, ascii '\n' ∉ hexText n := by
    intro n
    have hshown := not_mem_shown (v := n.setWidth 64) (c := ascii '\n') (by decide)
    rwa [shown, BitVec.setWidth_setWidth_of_le n (by decide), BitVec.setWidth_eq] at hshown
  obtain ⟨htext, hrest⟩ := line_cancel (hnewline _) (hnewline _) h
  exact ⟨setWidth_injective hw (hexText_injective htext), hrest⟩

theorem append_ne {l l' r r' : List U8} (n : ℕ) (hl : n ≤ l.length) (hl' : n ≤ l'.length)
    (hne : l.take n ≠ l'.take n) : l ++ r ≠ l' ++ r' := by
  intro h
  apply hne
  rw [← List.take_append_of_le_length hl, h, List.take_append_of_le_length hl']

/-- An entry is read back from the start of a text. -/
theorem entryLines_cancel {e e' : MadtEntry} {r r' : List U8}
    (h : entryLines e ++ r = entryLines e' ++ r') : e = e' ∧ r = r' := by
  have hcore : 16 ≤ (bytes (dbgPurple ++ "\n\n---- CPU core found ----\n")).length := by
    simp [bytes, dbgPurple]
  have hio : 16 ≤ (bytes (dbgPurple ++ "\n\n---- I/O APIC found ----\n")).length := by
    simp [bytes, dbgPurple]
  have hoverride :
      16 ≤ (bytes (dbgPurple ++ "\n\n---- Interrupt Override found ----\n")).length := by
    simp [bytes, dbgPurple]
  cases e with
  | core processorId apicId flags =>
      cases e' with
      | core processorId' apicId' flags' =>
          simp only [entryLines, List.append_assoc] at h
          replace h := List.append_cancel_left (List.append_cancel_left h)
          obtain ⟨hid, h⟩ := line_dec (by decide) h
          obtain ⟨hapic, h⟩ := line_dec (by decide) h
          obtain ⟨hflags, h⟩ := line_hex (by decide) h
          exact ⟨by rw [hid, hapic, hflags], List.append_cancel_left h⟩
      | ioApic _ _ _ =>
          simp only [entryLines, List.append_assoc] at h
          exact absurd h (append_ne 16 hcore hio (by simp [bytes, dbgPurple, ascii]))
      | interruptOverride _ _ _ _ =>
          simp only [entryLines, List.append_assoc] at h
          exact absurd h (append_ne 16 hcore hoverride (by simp [bytes, dbgPurple, ascii]))
  | ioApic ioApicId ioApicAddr base =>
      cases e' with
      | core _ _ _ =>
          simp only [entryLines, List.append_assoc] at h
          exact absurd h (append_ne 16 hio hcore (by simp [bytes, dbgPurple, ascii]))
      | ioApic ioApicId' ioApicAddr' base' =>
          simp only [entryLines, List.append_assoc] at h
          replace h := List.append_cancel_left (List.append_cancel_left h)
          obtain ⟨hid, h⟩ := line_dec (by decide) h
          obtain ⟨haddr, h⟩ := line_hex (by decide) h
          obtain ⟨hbase, h⟩ := line_dec (by decide) h
          exact ⟨by rw [hid, haddr, hbase], List.append_cancel_left h⟩
      | interruptOverride _ _ _ _ =>
          simp only [entryLines, List.append_assoc] at h
          exact absurd h (append_ne 16 hio hoverride (by simp [bytes, dbgPurple, ascii]))
  | interruptOverride bus source interrupt flags =>
      cases e' with
      | core _ _ _ =>
          simp only [entryLines, List.append_assoc] at h
          exact absurd h (append_ne 16 hoverride hcore (by simp [bytes, dbgPurple, ascii]))
      | ioApic _ _ _ =>
          simp only [entryLines, List.append_assoc] at h
          exact absurd h (append_ne 16 hoverride hio (by simp [bytes, dbgPurple, ascii]))
      | interruptOverride bus' source' interrupt' flags' =>
          simp only [entryLines, List.append_assoc] at h
          replace h := List.append_cancel_left (List.append_cancel_left h)
          obtain ⟨hbus, h⟩ := line_dec (by decide) h
          obtain ⟨hsource, h⟩ := line_dec (by decide) h
          obtain ⟨hinterrupt, h⟩ := line_hex (by decide) h
          obtain ⟨hflags, h⟩ := line_hex (by decide) h
          exact ⟨by rw [hbus, hsource, hinterrupt, hflags], List.append_cancel_left h⟩

theorem entryLines_ne_nil (e : MadtEntry) : entryLines e ≠ [] := by
  cases e <;> simp [entryLines, bytes, dbgPurple]

theorem entries_injective {es es' : List MadtEntry}
    (h : es.flatMap entryLines = es'.flatMap entryLines) : es = es' := by
  induction es generalizing es' with
  | nil =>
      cases es' with
      | nil => rfl
      | cons e' es' =>
          rw [List.flatMap_nil, List.flatMap_cons] at h
          exact absurd (List.append_eq_nil_iff.mp h.symm).1 (entryLines_ne_nil e')
  | cons e es ih =>
      cases es' with
      | nil =>
          rw [List.flatMap_nil, List.flatMap_cons] at h
          exact absurd (List.append_eq_nil_iff.mp h).1 (entryLines_ne_nil e)
      | cons e' es' =>
          rw [List.flatMap_cons, List.flatMap_cons] at h
          obtain ⟨rfl, hrest⟩ := entryLines_cancel h
          rw [ih hrest]

/-! ## Two tables -/

/-- `parse_madt` prints this text through `log`. -/
def ParseMadtPrints (env : LogEnv) (fuel : ℕ) (m : Table) (acpi : Acpi) (text : List U8) : Prop :=
  ∃ out, logCalls fuel env (parseMadt m acpi).1.out = some out ∧ Printed out text

/-- The entries that are printed. The guard lets one core more in than the array has. -/
def printedEntries (records : List MadtRecord) : List MadtEntry :=
  firstCores (maxNeededCores + 1) (records.filterMap MadtRecord.printed?)

theorem short_entryCalls (e : MadtEntry) : ∀ call ∈ entryCalls e, (bytes call.fmt).length < 64 := by
  cases e <;> simp [entryCalls, bytes, dbgPurple, dbgYellow, dbgCyan]

variable {lapicAddr lapicAddr' : U32} {fuel : ℕ}

theorem parseMadt_prints (h : EncodesMadt m lapicAddr records) (env : LogEnv) (acpi : Acpi)
    (hfuel : 64 ≤ fuel) :
    ParseMadtPrints env fuel m acpi ((printedEntries records).flatMap entryLines) := by
  have hout := parseMadt_out h.madtRecords.parse_visits acpi
  rw [filterMap_recordOffsets (fun q r => madtEntryAt_of_holds) h.records] at hout
  rw [ParseMadtPrints, hout]
  refine logs_entries _ env fuel fun call hcall => ?_
  obtain ⟨e, -, hcall⟩ := List.mem_flatMap.mp hcall
  exact Nat.lt_of_lt_of_le (short_entryCalls e call hcall) hfuel

/-- **The text determines the table**, as far as it is printed: two tables print the same text
if and only if the same entries are printed of them, in order. -/
theorem parseMadt_text_eq_iff (h : EncodesMadt m lapicAddr records)
    (h' : EncodesMadt m' lapicAddr' others) (env env' : LogEnv) (acpi acpi' : Acpi)
    (hfuel : 64 ≤ fuel) :
    ∃ text text', ParseMadtPrints env fuel m acpi text ∧ ParseMadtPrints env' fuel m' acpi' text' ∧
      (text = text' ↔ printedEntries records = printedEntries others) :=
  ⟨_, _, parseMadt_prints h env acpi hfuel, parseMadt_prints h' env' acpi' hfuel, entries_injective,
    fun hentries => by rw [hentries]⟩

/-- Two tables that differ in a core's flags, and in what follows. -/
theorem parseMadt_text_eq_iff_flags : ∃ text text',
    ParseMadtPrints zeroEnv 64 (memoryOf (encodeMadt 0 smallMadt)) ⟨0, fun _ => 0, 0⟩ text ∧
    ParseMadtPrints zeroEnv 64 (memoryOf (encodeMadt 0 [⟨.localApic 3 7 0, [], by decide⟩]))
      ⟨0, fun _ => 0, 0⟩ text' ∧ text ≠ text' := by
  have hsmall : EncodesMadt (memoryOf (encodeMadt 0 smallMadt)) 0 smallMadt :=
    encodeMadt_encodes 0 (by decide)
  have hcore : EncodesMadt (memoryOf (encodeMadt 0 [⟨.localApic 3 7 0, [], by decide⟩])) 0
      [⟨.localApic 3 7 0, [], by decide⟩] := encodeMadt_encodes 0 (by decide)
  obtain ⟨text, text', hprints, hprints', hiff⟩ := parseMadt_text_eq_iff hsmall hcore zeroEnv
    zeroEnv ⟨0, fun _ => 0, 0⟩ ⟨0, fun _ => 0, 0⟩ (Nat.le_refl 64)
  exact ⟨text, text', hprints, hprints', fun heq => absurd (hiff.mp heq) (by decide)⟩

end FacelessOS
