import FacelessOS.Pic.IoApic

/-!
# Masking the I/O APIC

`ioapic_init` asks the version register for the number of pins and masks as many entries.
But `ioapic_read` selects no register, so what it returns is the one some earlier call has
left selected, and the pins are masked where the count found there, by chance, does not go
beyond them and the rest is masked already (`masksPins_iff`).
-/

namespace FacelessOS

/-- The number of pins in a version register: bits 16 to 23 hold one less. -/
def pinCount (version : U32) : ℕ := (version >>> 16 &&& 0xFF#32).toNat + 1

def IoApicDev.pins (dev : IoApicDev) : ℕ := pinCount (dev.regs ioapicver)

def entryRegs (entry : U8) : List U8 := [ioredtbl + entry * 2#8, ioredtbl + entry * 2#8 + 1#8]

def ioapicInitRegs (ioApicPtr : U64) (s : IoApics) : List U8 :=
  (ioapicInitEntries ((ioapicRead ioApicPtr s ioapicver >>> 16 &&& 0xFF#32) + 1#32)).flatMap
    entryRegs

/-- What `ioapic_init` is for: the entry of every pin is masked, with vector 0 and nothing in
the high word, and no register is written, or changes, but those of these entries. -/
structure MasksPins (ioApicPtr : U64) (s : IoApics) : Prop where
  masked : ∀ i : Fin 120, i < (s ioApicPtr).pins →
    ((ioapicInit ioApicPtr s).1 ioApicPtr).redirection i = 0x10000#64
  written : ∀ r ∈ ioapicInitRegs ioApicPtr s, ∃ i < (s ioApicPtr).pins,
    r ∈ entryRegs (BitVec.ofNat 8 i)
  kept : ∀ r, (∀ i < (s ioApicPtr).pins, r ∉ entryRegs (BitVec.ofNat 8 i)) →
    ((ioapicInit ioApicPtr s).1 ioApicPtr).regs r = (s ioApicPtr).regs r

variable {ioApicPtr : U64} {s : IoApics}

/-! ## The loop -/

theorem redirection_foldl (entries : List U8) (data : U64) (i : Fin 120) :
    (entries.foldl (fun s entry => ioapicSetEntry ioApicPtr s entry data) s
        ioApicPtr).redirection i =
      if ∃ entry ∈ entries, (i : ℕ) = entry.toNat % 128 then data
      else (s ioApicPtr).redirection i := by
  induction entries generalizing s with
  | nil => simp
  | cons entry entries ih =>
      rw [List.foldl_cons, ih, redirection_ioapicSetEntry]
      simp only [List.mem_cons, or_and_right, exists_or, exists_eq_left, true_and]
      by_cases hrest : ∃ entry ∈ entries, (i : ℕ) = entry.toNat % 128
      · rw [if_pos hrest, if_pos (Or.inr hrest)]
      · rw [if_neg hrest]
        exact if_congr (or_iff_left hrest).symm rfl rfl

theorem regs_foldl {entries : List U8} {data : U64} {r : U8}
    (hr : ∀ entry ∈ entries, r ∉ entryRegs entry) :
    (entries.foldl (fun s entry => ioapicSetEntry ioApicPtr s entry data) s
      ioApicPtr).regs r = (s ioApicPtr).regs r := by
  induction entries generalizing s with
  | nil => rfl
  | cons entry entries ih =>
      obtain ⟨hentry, hrest⟩ := List.forall_mem_cons.mp hr
      simp only [entryRegs, List.mem_cons, List.not_mem_nil, or_false, not_or] at hentry
      rw [List.foldl_cons, ih hrest, ioapicSetEntry, regs_ioapicWrite, regs_ioapicWrite,
        Function.update_of_ne hentry.2, Function.update_of_ne hentry.1]

theorem regs_ioapicInit {r : U8} (hr : r ∉ ioapicInitRegs ioApicPtr s) :
    ((ioapicInit ioApicPtr s).1 ioApicPtr).regs r = (s ioApicPtr).regs r :=
  regs_foldl fun entry he hmem => hr (List.mem_flatMap.mpr ⟨entry, he, hmem⟩)

theorem toNat_count (version : U32) :
    ((version >>> 16 &&& 0xFF#32) + 1#32).toNat = pinCount version ∧ pinCount version ≤ 256 := by
  have hle : (version >>> 16 &&& 0xFF#32).toNat ≤ 0xFF := by
    rw [BitVec.toNat_and]
    exact Nat.and_le_right
  have h1 : (1#32).toNat = 1 := rfl
  unfold pinCount
  rw [BitVec.toNat_add, h1]
  omega

theorem mem_ioapicInitEntries {version : U32} {entry : U8} :
    entry ∈ ioapicInitEntries ((version >>> 16 &&& 0xFF#32) + 1#32) ↔
      entry.toNat < pinCount version := by
  obtain ⟨hcount, hle⟩ := toNat_count version
  unfold ioapicInitEntries
  rw [hcount, List.mem_map]
  constructor
  · rintro ⟨k, hk, rfl⟩
    rw [List.mem_range] at hk
    rw [BitVec.toNat_ofNat]
    omega
  · intro h
    refine ⟨entry.toNat, List.mem_range.mpr h, ?_⟩
    apply BitVec.eq_of_toNat_eq
    rw [BitVec.toNat_ofNat]
    omega

theorem redirection_ioapicInit (i : Fin 120) :
    ((ioapicInit ioApicPtr s).1 ioApicPtr).redirection i =
      if (i : ℕ) < pinCount ((s ioApicPtr).regs (s ioApicPtr).ioregsel) then 0x10000#64
      else (s ioApicPtr).redirection i := by
  have hi := i.isLt
  show (List.foldl _ s _ ioApicPtr).redirection i = _
  rw [redirection_foldl, ioapicRead_eq]
  refine if_congr ?_ (by decide) rfl
  simp only [mem_ioapicInitEntries]
  constructor
  · rintro ⟨entry, hlt, hmod⟩
    omega
  · intro h
    refine ⟨BitVec.ofNat 8 i, ?_, ?_⟩ <;> rw [BitVec.toNat_ofNat] <;> omega

theorem entryRegs_disjoint {i j : ℕ} (hij : i < j) (hj : j ≤ 120) :
    ioredtbl + BitVec.ofNat 8 j * 2#8 ∉ entryRegs (BitVec.ofNat 8 i) := by
  intro hmem
  simp only [entryRegs, List.mem_cons, List.not_mem_nil, or_false] at hmem
  rcases hmem with heq | heq
  · let pin : Fin 120 := ⟨i, by omega⟩
    have hpin : (pin : ℕ) = (BitVec.ofNat 8 j).toNat % 128 := ioredtbl_eq_iff.mp heq.symm
    rw [BitVec.toNat_ofNat, show (pin : ℕ) = i from rfl] at hpin
    omega
  · exact ioredtbl_ne_succ _ _ heq

/-- **`ioapic_init` masks the pins exactly** where the register selected before holds a count
that does not go beyond them and the remaining entries are masked already. And `ioapic_read`
returns the register it is asked for exactly where that is what the selected one holds. -/
theorem masksPins_iff (hpins : (s ioApicPtr).pins ≤ 120) :
    (MasksPins ioApicPtr s ↔
      pinCount ((s ioApicPtr).regs (s ioApicPtr).ioregsel) ≤ (s ioApicPtr).pins ∧
      ∀ i : Fin 120, pinCount ((s ioApicPtr).regs (s ioApicPtr).ioregsel) ≤ i →
        i < (s ioApicPtr).pins → (s ioApicPtr).redirection i = 0x10000#64) ∧
    ∀ reg, ioapicRead ioApicPtr s reg = (s ioApicPtr).regs reg ↔
      (s ioApicPtr).regs (s ioApicPtr).ioregsel = (s ioApicPtr).regs reg := by
  -- where the count does not go beyond the pins only their registers are written
  have hwritten : pinCount ((s ioApicPtr).regs (s ioApicPtr).ioregsel) ≤ (s ioApicPtr).pins →
      ∀ r ∈ ioapicInitRegs ioApicPtr s, ∃ i < (s ioApicPtr).pins,
        r ∈ entryRegs (BitVec.ofNat 8 i) := by
    intro hle r hr
    obtain ⟨entry, hentry, hr⟩ := List.mem_flatMap.mp hr
    rw [ioapicRead_eq, mem_ioapicInitEntries] at hentry
    refine ⟨entry.toNat, by omega, ?_⟩
    rwa [BitVec.ofNat_toNat, BitVec.setWidth_eq]
  refine ⟨⟨fun h => ⟨?_, fun i hcount hi => ?_⟩, fun ⟨hle, hrest⟩ => ⟨fun i hi => ?_,
    hwritten hle, fun r hr => ?_⟩⟩, fun reg => by rw [ioapicRead_eq]⟩
  · -- one entry too many would be written
    by_contra hgt
    have hmem : ioredtbl + BitVec.ofNat 8 (s ioApicPtr).pins * 2#8 ∈
        ioapicInitRegs ioApicPtr s := by
      refine List.mem_flatMap.mpr ⟨BitVec.ofNat 8 (s ioApicPtr).pins, ?_, List.mem_cons_self⟩
      rw [ioapicRead_eq, mem_ioapicInitEntries, BitVec.toNat_ofNat]
      omega
    obtain ⟨i, hi, hregs⟩ := h.written _ hmem
    exact entryRegs_disjoint hi hpins hregs
  · have hmasked := h.masked i hi
    rwa [redirection_ioapicInit, if_neg (by omega)] at hmasked
  · rw [redirection_ioapicInit]
    split
    · rfl
    · rename_i hge
      exact hrest i (by omega) hi
  · refine regs_ioapicInit fun hmem => ?_
    obtain ⟨i, hi, hregs⟩ := hwritten hle r hmem
    exact hr i hi hregs

/-- A device of 24 pins with this register selected and all entries zero. -/
def pins24 (select : U8) : IoApicDev where
  ioregsel := select
  regs := fun r => if r = ioapicver then 0x00170011#32 else 0#32

theorem masksPins_iff_pins24 : MasksPins 0xfec00000 fun _ => pins24 ioapicver := by
  refine (masksPins_iff (by decide)).1.mpr ⟨by decide, fun i hcount hi => ?_⟩
  exact absurd hi (Nat.not_lt.mpr hcount)

/-- With register 0 selected, as after reset, one entry is masked out of 24. -/
theorem pins24_notMasked :
    ¬ ∀ (ioApicPtr : U64) (s : IoApics), (s ioApicPtr).pins ≤ 120 →
      MasksPins ioApicPtr s ∧ ∀ reg, ioapicRead ioApicPtr s reg = (s ioApicPtr).regs reg := by
  intro hclaim
  obtain ⟨h, -⟩ := hclaim 0xfec00000 (fun _ => pins24 0) (by decide)
  have hmasked := h.masked 23 (by decide)
  rw [redirection_ioapicInit, if_neg (by decide)] at hmasked
  exact absurd hmasked (by decide)

end FacelessOS
