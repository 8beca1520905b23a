import FacelessOS.Libkern.Strncmp

/-!
# The RSDT (`acpi.c`, `tables.h`)

The RSDT is a 36-byte header, with `length` at offset 4, and behind it the 32-bit addresses
of the tables. `acpi_init` sums the bytes of the table, takes the number of its entries from
the length and looks for the table with the signature `APIC`.

The checksum and the bounds are right for every length (`rsdtIsValid_eq`, `getMadt_reads`):
for a length below that of the header the number of entries comes out negative. The search
stops at an entry that is zero, which `strncmp` takes for a table with any signature, so
it is right exactly when no zero stands up to the MADT (`rsdtScan_iff`).
-/

namespace FacelessOS

open ByteStore

def sizeofAcpiHeader : ℕ := 36

def rsdtPtr (mem : Store 64) (rsdp : U64) : U64 := (load32 mem (rsdp + 16#64)).setWidth 64

def rsdtLength (mem : Store 64) (rsdt : U64) : U32 := load32 mem (rsdt + 4#64)

/-- The loop of `rsdt_is_valid`, with this many bytes left of the length; adding a `char` to
a byte is adding its bits. -/
def rsdtSumLoop (mem : Store 64) (rsdt : U64) : ℕ → U32 → U8 → U8
  | 0, _, sum => sum
  | left + 1, i, sum =>
      if i < rsdtLength mem rsdt then
        rsdtSumLoop mem rsdt left (i + 1#32) (sum + mem (rsdt + i.signExtend 64))
      else sum

def rsdtIsValid (mem : Store 64) (rsdt : U64) : Bool :=
  if rsdt = 0#64 then false
  else rsdtSumLoop mem rsdt (rsdtLength mem rsdt).toNat 0#32 0#8 = 0#8

/-- `rsdt_entries`: the subtraction is made in 64 bits, the result is stored as an `int`. -/
def rsdtEntries (mem : Store 64) (rsdt : U64) : U32 :=
  (((rsdtLength mem rsdt).setWidth 64 - 36#64) / 4#64).setWidth 32

def tablesAddr (rsdt : U64) (i : U32) : U64 := rsdt + 36#64 + 4#64 * i.signExtend 64

/-- The loop of `get_madt`: the table it returns, and the entries it reads. `apic` is the
address of the literal `"APIC"`. -/
def getMadtLoop (mem : Store 64) (rsdt apic : U64) (entries : U32) : ℕ → U32 → U64 × List U64
  | 0, _ => (0#64, [])
  | fuel + 1, i =>
      if i.slt entries then
        let madt := (load32 mem (tablesAddr rsdt i)).setWidth 64
        if (strncmp mem madt apic 4#32).result ≠ 0#8 then (madt, [tablesAddr rsdt i])
        else
          let (found, reads) := getMadtLoop mem rsdt apic entries fuel (i + 1#32)
          (found, tablesAddr rsdt i :: reads)
      else (0#64, [])

/-- `get_madt`; `0` is `NULL`. -/
def getMadt (mem : Store 64) (rsdt apic : U64) : U64 × List U64 :=
  getMadtLoop mem rsdt apic (rsdtEntries mem rsdt) (rsdtEntries mem rsdt).toNat 0#32

/-- `acpi_init` from the RSDP up to `parse_madt`: the MADT and what is logged, or the message
of `panic`, which does not return. -/
def acpiInitMadt (mem : Store 64) (rsdp apic : U64) : Except String (U64 × List LogCall) :=
  let rsdt := rsdtPtr mem rsdp
  if rsdtIsValid mem rsdt = false then .error "RSDT checksum invalid!"
  else
    let madt := (getMadt mem rsdt apic).1
    if madt = 0#64 then .error "Could not locate MADT!"
    else .ok (madt, [⟨kinfo ++ "RSDT checkum is valid.\n", []⟩, ⟨kinfo ++ "MADT found!\n", []⟩])

/-! ## What is scanned -/

def byteSum (mem : Store 64) (rsdt : U64) (length : ℕ) : ℕ :=
  ((List.range length).map fun i => (mem (rsdt + BitVec.ofNat 64 i)).toNat).sum

def tableAt (mem : Store 64) (rsdt : U64) (i : ℕ) : U64 :=
  (load32 mem (rsdt + BitVec.ofNat 64 (sizeofAcpiHeader + 4 * i))).setWidth 64

/-- The tables that fit into the length. -/
def listedTables (mem : Store 64) (rsdt : U64) : List U64 :=
  (List.range (((rsdtLength mem rsdt).toNat - sizeofAcpiHeader) / 4)).map (tableAt mem rsdt)

def IsApic (mem : Store 64) (table : U64) : Prop :=
  ∀ k < 4, strAt mem table k = (bytes "APIC").getD k 0#8

instance (mem : Store 64) (table : U64) : Decidable (IsApic mem table) :=
  inferInstanceAs (Decidable (∀ k < 4, _))

/-- This is the first listed table with the signature `APIC`, and these come before it. -/
structure FirstApic (mem : Store 64) (rsdt : U64) (before : List U64) (table : U64) : Prop where
  listed : ∃ after, listedTables mem rsdt = before ++ table :: after
  apic : IsApic mem table
  first : ∀ t ∈ before, ¬ IsApic mem t

/-! ## The checksum -/

theorem rsdtSumLoop_eq {mem : Store 64} {rsdt : U64} (hlen : (rsdtLength mem rsdt).toNat < 2 ^ 31)
    {left k : ℕ} (hk : k + left = (rsdtLength mem rsdt).toNat) (sum : U8) :
    rsdtSumLoop mem rsdt left (BitVec.ofNat 32 k) sum = sum + BitVec.ofNat 8
      ((List.range' k left).map fun i => (mem (rsdt + BitVec.ofNat 64 i)).toNat).sum := by
  induction left generalizing k sum with
  | zero =>
      rw [rsdtSumLoop]
      simp
  | succ left ih =>
      have hlt : BitVec.ofNat 32 k < rsdtLength mem rsdt := by bv_omega
      have hext := signExtend_ofNat (k := k) (by omega)
      have hnext : BitVec.ofNat 32 k + 1#32 = BitVec.ofNat 32 (k + 1) := (BitVec.ofNat_add ..).symm
      rw [rsdtSumLoop, if_pos hlt, hext, hnext, ih (by omega), List.range'_succ, List.map_cons,
        List.sum_cons, BitVec.ofNat_add, BitVec.ofNat_toNat, BitVec.setWidth_eq, BitVec.add_assoc]

theorem rsdtIsValid_eq {mem : Store 64} {rsdt : U64} (hrsdt : rsdt ≠ 0#64)
    (hlen : (rsdtLength mem rsdt).toNat < 2 ^ 31) :
    rsdtIsValid mem rsdt = true ↔ byteSum mem rsdt (rsdtLength mem rsdt).toNat % 256 = 0 := by
  have hsum := rsdtSumLoop_eq hlen (Nat.zero_add (rsdtLength mem rsdt).toNat) 0#8
  rw [BitVec.zero_add, ← List.range_eq_range'] at hsum
  rw [rsdtIsValid, if_neg hrsdt, decide_eq_true_iff, hsum, BitVec.toNat_eq, BitVec.toNat_ofNat]
  rfl

/-! ## The entries -/

/-- Below the size of the header the number of entries is negative. -/
theorem rsdtEntries_eq {mem : Store 64} {rsdt : U64} (hlen : (rsdtLength mem rsdt).toNat < 2 ^ 31) :
    ((rsdtLength mem rsdt).toNat < sizeofAcpiHeader → (rsdtEntries mem rsdt).msb = true) ∧
      (sizeofAcpiHeader ≤ (rsdtLength mem rsdt).toNat → rsdtEntries mem rsdt =
        BitVec.ofNat 32 (((rsdtLength mem rsdt).toNat - sizeofAcpiHeader) / 4)) := by
  have hwide : ((rsdtLength mem rsdt).setWidth 64).toNat = (rsdtLength mem rsdt).toNat := by
    rw [BitVec.toNat_setWidth, Nat.mod_eq_of_lt (by omega)]
  have hsub : ((rsdtLength mem rsdt).setWidth 64 - 36#64).toNat =
      (2 ^ 64 - 36 + (rsdtLength mem rsdt).toNat) % 2 ^ 64 := by
    rw [BitVec.toNat_sub, hwide]
    rfl
  have hentries : (rsdtEntries mem rsdt).toNat =
      (2 ^ 64 - 36 + (rsdtLength mem rsdt).toNat) % 2 ^ 64 / 4 % 2 ^ 32 := by
    rw [rsdtEntries, BitVec.toNat_setWidth, BitVec.toNat_udiv, hsub]
    rfl
  unfold sizeofAcpiHeader
  constructor
  · intro hshort
    rw [BitVec.msb_eq_decide, decide_eq_true_iff, hentries]
    omega
  · intro hlong
    refine BitVec.eq_of_toNat_eq ?_
    rw [hentries, BitVec.toNat_ofNat]
    omega

theorem tablesAddr_eq (rsdt : U64) {k : ℕ} (hk : k < 2 ^ 31) : tablesAddr rsdt (BitVec.ofNat 32 k) =
    rsdt + BitVec.ofNat 64 (sizeofAcpiHeader + 4 * k) := by
  rw [tablesAddr, signExtend_ofNat hk, sizeofAcpiHeader, BitVec.ofNat_add, BitVec.ofNat_mul,
    BitVec.add_assoc]

theorem getMadtLoop_eq {mem : Store 64} {rsdt apic : U64} {count : ℕ} (hcount : count < 2 ^ 31)
    {fuel k n : ℕ} (hn : k + n = count) (hfuel : n ≤ fuel) :
    (getMadtLoop mem rsdt apic (BitVec.ofNat 32 count) fuel (BitVec.ofNat 32 k)).1 =
        (((List.range' k n).map (tableAt mem rsdt)).find? fun t =>
          (strncmp mem t apic 4#32).result ≠ 0#8).getD 0#64 ∧
      ∀ a ∈ (getMadtLoop mem rsdt apic (BitVec.ofNat 32 count) fuel (BitVec.ofNat 32 k)).2,
        ∃ j < count, a = rsdt + BitVec.ofNat 64 (sizeofAcpiHeader + 4 * j) := by
  induction fuel generalizing k n with
  | zero =>
      obtain rfl : n = 0 := Nat.le_zero.mp hfuel
      exact ⟨rfl, fun a h => absurd h List.not_mem_nil⟩
  | succ fuel ih =>
      rw [getMadtLoop]
      cases n with
      | zero =>
          have hend : ¬ (BitVec.ofNat 32 k).slt (BitVec.ofNat 32 count) = true := by
            rw [slt_ofNat (by omega) hcount]
            omega
          rw [if_neg hend]
          exact ⟨rfl, fun a h => absurd h List.not_mem_nil⟩
      | succ n =>
          have hgo : (BitVec.ofNat 32 k).slt (BitVec.ofNat 32 count) = true := by
            rw [slt_ofNat (by omega) hcount]
            omega
          have hnext : BitVec.ofNat 32 k + 1#32 = BitVec.ofNat 32 (k + 1) :=
            (BitVec.ofNat_add ..).symm
          obtain ⟨hfound, hreads⟩ := ih (k := k + 1) (n := n) (by omega) (by omega)
          have htable : (load32 mem (tablesAddr rsdt (BitVec.ofNat 32 k))).setWidth 64 =
              tableAt mem rsdt k := by rw [tablesAddr_eq rsdt (by omega), tableAt]
          rw [if_pos hgo, List.range'_succ, List.map_cons]
          simp only [htable, hnext]
          by_cases hhit : (strncmp mem (tableAt mem rsdt k) apic 4#32).result ≠ 0#8
          · rw [if_pos hhit, List.find?_cons_of_pos (by simpa using hhit)]
            refine ⟨rfl, fun a ha => ⟨k, by omega, ?_⟩⟩
            rw [List.mem_singleton.mp ha, tablesAddr_eq rsdt (by omega)]
          · rw [if_neg hhit, List.find?_cons_of_neg (by simpa using hhit)]
            refine ⟨hfound, fun a ha => ?_⟩
            rcases List.mem_cons.mp ha with rfl | ha
            · exact ⟨k, by omega, tablesAddr_eq rsdt (by omega)⟩
            · exact hreads a ha

/-! ## The search -/

section Scan

variable {mem : Store 64} {rsdt apic : U64}

theorem getMadt_reads (hlen : (rsdtLength mem rsdt).toNat < 2 ^ 31) :
    (getMadt mem rsdt apic).1 = ((listedTables mem rsdt).find? fun t =>
        (strncmp mem t apic 4#32).result ≠ 0#8).getD 0#64 ∧
      ∀ a ∈ (getMadt mem rsdt apic).2, ∃ offset, a = rsdt + BitVec.ofNat 64 offset ∧
        offset + 4 ≤ (rsdtLength mem rsdt).toNat := by
  obtain ⟨hshort, hlong⟩ := rsdtEntries_eq hlen
  unfold sizeofAcpiHeader at hshort hlong
  rw [getMadt]
  by_cases hheader : (rsdtLength mem rsdt).toNat < 36
  · -- a negative number of entries: no round
    have hneg : ¬ (0#32).slt (rsdtEntries mem rsdt) = true := by
      have hlt := BitVec.toInt_neg_of_msb_true (hshort hheader)
      have hz : (0#32).toInt = 0 := rfl
      rw [BitVec.slt_iff_toInt_lt, hz]
      omega
    have hnil : listedTables mem rsdt = [] := by
      rw [listedTables, sizeofAcpiHeader, show ((rsdtLength mem rsdt).toNat - 36) / 4 = 0 by omega]
      rfl
    have hloop (fuel : ℕ) : getMadtLoop mem rsdt apic (rsdtEntries mem rsdt) fuel 0#32 = (0#64, []) := by
      cases fuel with
      | zero => rfl
      | succ fuel => rw [getMadtLoop, if_neg hneg]
    rw [hloop, hnil]
    exact ⟨rfl, fun a h => absurd h List.not_mem_nil⟩
  · rw [hlong (by omega)]
    have hcount : ((rsdtLength mem rsdt).toNat - 36) / 4 < 2 ^ 31 := by omega
    have hfuel : ((rsdtLength mem rsdt).toNat - 36) / 4 ≤
        (BitVec.ofNat 32 (((rsdtLength mem rsdt).toNat - 36) / 4)).toNat := by
      rw [toNat_ofNat (by omega)]
    obtain ⟨hfound, hreads⟩ := @getMadtLoop_eq mem rsdt apic _ hcount _ 0 _ (Nat.zero_add _) hfuel
    refine ⟨?_, fun a ha => ?_⟩
    · rw [listedTables, List.range_eq_range']
      exact hfound
    · obtain ⟨j, hj, rfl⟩ := hreads a ha
      exact ⟨_, rfl, by unfold sizeofAcpiHeader; omega⟩

structure ApicLiteral (mem : Store 64) (apic : U64) : Prop where
  holds : (strAt mem apic).Holds (bytes "APIC")
  nonnull : apic ≠ 0#64
  room : apic.toNat + 4 ≤ 2 ^ 64

/-- `strncmp` takes a listed table for the MADT if it is one, or `NULL`. -/
theorem strncmp_apic (hapic : ApicLiteral mem apic) {table : U64} (htable : table.toNat < 2 ^ 32) :
    (strncmp mem table apic 4#32).result ≠ 0#8 ↔ table = 0#64 ∨ IsApic mem table := by
  rw [strncmp_ne_zero]
  by_cases hnull : table = 0#64
  · rw [hnull]
    exact iff_of_true (strncmp_null mem apic 4#32) (Or.inl rfl)
  · have hfour : (4#32).toNat = 4 := rfl
    have hclear : Clear table (4#32).toNat := clear_of_le hnull (by rw [hfour]; omega)
    have hclear' : Clear apic (4#32).toNat := clear_of_le hapic.nonnull hapic.room
    have hliteral := (Buffer.holdsAt_iff.mp hapic.holds).1
    rw [strncmp_result hclear hclear', hfour, or_iff_right hnull, IsApic]
    refine forall₂_congr fun k hk => ?_
    have hk' : k < (bytes "APIC").length := hk
    rw [List.getD_eq_getElem _ _ hk', ← hliteral k hk', Nat.zero_add]

theorem tableAt_lt (mem : Store 64) (rsdt : U64) (i : ℕ) : (tableAt mem rsdt i).toNat < 2 ^ 32 := by
  rw [tableAt, BitVec.toNat_setWidth]
  omega

theorem listedTables_lt {t : U64} (h : t ∈ listedTables mem rsdt) : t.toNat < 2 ^ 32 := by
  obtain ⟨i, _, rfl⟩ := List.mem_map.mp h
  exact tableAt_lt mem rsdt i

theorem getMadt_cases (hapic : ApicLiteral mem apic) (hlen : (rsdtLength mem rsdt).toNat < 2 ^ 31) :
    ((∀ t ∈ listedTables mem rsdt, t ≠ 0#64 ∧ ¬ IsApic mem t) ∧
        (getMadt mem rsdt apic).1 = 0#64) ∨
      ∃ before t after, listedTables mem rsdt = before ++ t :: after ∧
        (t = 0#64 ∨ IsApic mem t) ∧ (∀ u ∈ before, u ≠ 0#64 ∧ ¬ IsApic mem u) ∧
        (getMadt mem rsdt apic).1 = t := by
  rw [(getMadt_reads hlen).1]
  have hmiss {u : U64} (hu : u ∈ listedTables mem rsdt)
      (h : ¬ (strncmp mem u apic 4#32).result ≠ 0#8) : u ≠ 0#64 ∧ ¬ IsApic mem u := by
    rw [strncmp_apic hapic (listedTables_lt hu)] at h
    exact not_or.mp h
  cases hfind : (listedTables mem rsdt).find? fun t =>
      (strncmp mem t apic 4#32).result ≠ 0#8 with
  | none =>
      refine Or.inl ⟨fun t ht => hmiss ht ?_, rfl⟩
      simpa using List.find?_eq_none.mp hfind t ht
  | some t =>
      obtain ⟨hhit, before, after, hlisted, hbefore⟩ := List.find?_eq_some_iff_append.mp hfind
      have hmem : t ∈ listedTables mem rsdt := List.mem_of_find?_eq_some hfind
      refine Or.inr ⟨before, t, after, hlisted, ?_, fun u hu => hmiss ?_ ?_, rfl⟩
      · exact (strncmp_apic hapic (listedTables_lt hmem)).mp (by simpa using hhit)
      · rw [hlisted]
        exact List.mem_append_left _ hu
      · simpa using hbefore u hu

/-- The scan from `acpi_init` is exact and in bounds. -/
structure ScansExactly (mem : Store 64) (rsdp apic : U64) : Prop where
  valid_iff : rsdtIsValid mem (rsdtPtr mem rsdp) = true ↔ byteSum mem (rsdtPtr mem rsdp)
    (rsdtLength mem (rsdtPtr mem rsdp)).toNat % 256 = 0
  bounds : rsdtIsValid mem (rsdtPtr mem rsdp) = true →
    ∀ a ∈ (getMadt mem (rsdtPtr mem rsdp) apic).2, ∃ offset,
      a = rsdtPtr mem rsdp + BitVec.ofNat 64 offset ∧
      offset + 4 ≤ (rsdtLength mem (rsdtPtr mem rsdp)).toNat
  found : rsdtIsValid mem (rsdtPtr mem rsdp) = true →
    ∀ before t, FirstApic mem (rsdtPtr mem rsdp) before t →
      (getMadt mem (rsdtPtr mem rsdp) apic).1 = t
  null_iff : rsdtIsValid mem (rsdtPtr mem rsdp) = true →
    ((getMadt mem (rsdtPtr mem rsdp) apic).1 = 0#64 ↔
      ∀ t ∈ listedTables mem (rsdtPtr mem rsdp), ¬ IsApic mem t)
  panics : rsdtIsValid mem (rsdtPtr mem rsdp) = true →
    (∀ t ∈ listedTables mem (rsdtPtr mem rsdp), ¬ IsApic mem t) →
      acpiInitMadt mem rsdp apic = .error "Could not locate MADT!"

theorem exists_firstApic {t : U64} (ht : t ∈ listedTables mem rsdt) (hapic : IsApic mem t) :
    ∃ before t, FirstApic mem rsdt before t := by
  cases hfind : (listedTables mem rsdt).find? fun t => IsApic mem t with
  | none => exact absurd hapic (by simpa using List.find?_eq_none.mp hfind t ht)
  | some t =>
      obtain ⟨hhit, before, after, hlisted, hbefore⟩ := List.find?_eq_some_iff_append.mp hfind
      exact ⟨before, t, ⟨after, hlisted⟩, by simpa using hhit, fun u hu => by simpa using hbefore u hu⟩

theorem getMadt_found (hapic : ApicLiteral mem apic) (hlen : (rsdtLength mem rsdt).toNat < 2 ^ 31)
    {before : List U64} {t : U64} (h : FirstApic mem rsdt before t)
    (hzero : ∀ u ∈ before ++ [t], u ≠ 0#64) : (getMadt mem rsdt apic).1 = t := by
  obtain ⟨after, hlisted⟩ := h.listed
  rcases getMadt_cases hapic hlen with ⟨hnone, _⟩ | ⟨before', t', after', hlisted', hhit, hmiss, hmadt⟩
  · have hmem : t ∈ listedTables mem rsdt := by
      rw [hlisted]
      exact List.mem_append_right _ List.mem_cons_self
    exact absurd h.apic (hnone t hmem).2
  · rw [hmadt]
    refine (Buffer.split_unique (P := fun u => u = 0#64 ∨ IsApic mem u) hhit (Or.inr h.apic)
      (fun u hu => not_or.mpr (hmiss u hu)) (fun u hu => not_or.mpr ⟨?_, h.first u hu⟩)
      (hlisted'.symm.trans hlisted)).2.1
    exact hzero u (List.mem_append_left _ hu)

/-- The scan is exact and in bounds exactly when no entry is zero up to the first table with
the signature `APIC`, if the checksum is right and there is one. -/
theorem rsdtScan_iff {mem : Store 64} {rsdp apic : U64} (hapic : ApicLiteral mem apic)
    (hrsdt : rsdtPtr mem rsdp ≠ 0#64)
    (hlen : (rsdtLength mem (rsdtPtr mem rsdp)).toNat < 2 ^ 31) :
    ScansExactly mem rsdp apic ↔ (rsdtIsValid mem (rsdtPtr mem rsdp) = true →
      ∀ before t, FirstApic mem (rsdtPtr mem rsdp) before t → ∀ u ∈ before ++ [t], u ≠ 0#64) := by
  constructor
  · intro h hvalid before t hfirst u hu
    obtain ⟨after, hlisted⟩ := hfirst.listed
    have hmem : t ∈ listedTables mem (rsdtPtr mem rsdp) := by
      rw [hlisted]
      exact List.mem_append_right _ List.mem_cons_self
    have hmadt := h.found hvalid before t hfirst
    have hnonnull : t ≠ 0#64 := fun hzero =>
      (h.null_iff hvalid).mp (hmadt.trans hzero) t hmem hfirst.apic
    rcases getMadt_cases hapic hlen with ⟨hnone, _⟩ | ⟨before', t', after', hlisted', _, hmiss, hmadt'⟩
    · exact absurd hfirst.apic (hnone t hmem).2
    · -- the search stopped at the MADT, and what it passed is not zero
      obtain rfl : t = t' := hmadt.symm.trans hmadt'
      obtain ⟨rfl, -, -⟩ := Buffer.split_unique (P := IsApic mem) hfirst.apic hfirst.apic
        hfirst.first (fun u hu => (hmiss u hu).2) (hlisted.symm.trans hlisted')
      rcases List.mem_append.mp hu with hu | hu
      · exact (hmiss u hu).1
      · exact List.mem_singleton.mp hu ▸ hnonnull
  · intro h
    have hnull (hvalid : rsdtIsValid mem (rsdtPtr mem rsdp) = true) :
        (getMadt mem (rsdtPtr mem rsdp) apic).1 = 0#64 ↔
          ∀ t ∈ listedTables mem (rsdtPtr mem rsdp), ¬ IsApic mem t := by
      constructor
      · intro hmadt t ht htapic
        obtain ⟨before, t, hfirst⟩ := exists_firstApic ht htapic
        have hzero := h hvalid before t hfirst
        rw [getMadt_found hapic hlen hfirst hzero] at hmadt
        exact hzero t (List.mem_append_right _ List.mem_cons_self) hmadt
      · intro hnone
        rcases getMadt_cases hapic hlen with ⟨_, hmadt⟩ | ⟨before, t, after, hlisted, hhit, _, hmadt⟩
        · exact hmadt
        · have hmem : t ∈ listedTables mem (rsdtPtr mem rsdp) := by
            rw [hlisted]
            exact List.mem_append_right _ List.mem_cons_self
          exact hmadt.trans (hhit.resolve_right (hnone t hmem))
    refine ⟨rsdtIsValid_eq hrsdt hlen, fun _ => (getMadt_reads hlen).2, fun hvalid before t hfirst =>
      getMadt_found hapic hlen hfirst (h hvalid before t hfirst), hnull, fun hvalid hnone => ?_⟩
    rw [acpiInitMadt]
    simp only [hvalid, (hnull hvalid).mpr hnone]
    rfl

/-- An RSDT at `0x2000` that lists a zero and then the MADT at `0x3000`; the RSDP is at `0x1000`
and the literal at `0x4000`. -/
def zeroEntryMem : Store 64 := fun a =>
  if a = 0x1011#64 then 0x20#8
  else if a = 0x2004#64 then 0x2C#8
  else if a = 0x2009#64 then 0xA4#8
  else if a = 0x2029#64 then 0x30#8
  else if a = 0x3000#64 ∨ a = 0x4000#64 then ascii 'A'
  else if a = 0x3001#64 ∨ a = 0x4001#64 then ascii 'P'
  else if a = 0x3002#64 ∨ a = 0x4002#64 then ascii 'I'
  else if a = 0x3003#64 ∨ a = 0x4003#64 then ascii 'C'
  else 0#8

theorem rsdtScan_iff_zeroEntry : ScansExactly zeroEntryMem 0x1000#64 0x4000#64 ↔
    (rsdtIsValid zeroEntryMem (rsdtPtr zeroEntryMem 0x1000#64) = true → ∀ before t,
      FirstApic zeroEntryMem (rsdtPtr zeroEntryMem 0x1000#64) before t →
        ∀ u ∈ before ++ [t], u ≠ 0#64) :=
  rsdtScan_iff ⟨by decide +kernel, by decide, by decide⟩ (by decide +kernel) (by decide +kernel)

/-- The zero ends the search, although the MADT is listed. -/
theorem rsdtScan_stops_at_zero : ¬ ∀ (mem : Store 64) (rsdp apic : U64), ApicLiteral mem apic →
    rsdtPtr mem rsdp ≠ 0#64 → (rsdtLength mem (rsdtPtr mem rsdp)).toNat < 2 ^ 31 →
      ScansExactly mem rsdp apic := by
  intro h
  have hscan := h zeroEntryMem 0x1000#64 0x4000#64 ⟨by decide +kernel, by decide, by decide⟩
    (by decide +kernel) (by decide +kernel)
  have hvalid : rsdtIsValid zeroEntryMem (rsdtPtr zeroEntryMem 0x1000#64) = true := by
    decide +kernel
  have hnull : (getMadt zeroEntryMem (rsdtPtr zeroEntryMem 0x1000#64) 0x4000#64).1 = 0#64 := by
    decide +kernel
  have hlisted : 0x3000#64 ∈ listedTables zeroEntryMem (rsdtPtr zeroEntryMem 0x1000#64) := by
    decide +kernel
  exact (hscan.null_iff hvalid).mp hnull 0x3000#64 hlisted (by decide +kernel)

end Scan

end FacelessOS
