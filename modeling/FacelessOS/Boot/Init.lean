import FacelessOS.Lib.LinkedList
import FacelessOS.Memory.Pmm
import FacelessOS.Power.Rsdt

/-!
# Boot and the tags it needs (`kernel.c`, `pmm_init`, `acpi_init`)

`get_tag` walks the tags in memory; `init`, `pmm_init` and `acpi_init` look one up and read
its fields. Here a tag is its address, and the three come with what they read through the
pointer that `get_tag` returned.

The walk is right for every list that ends (`getTag_eq`), and on the tags as values it is the
`getTag` of the list (`getTag_readTag`). The callers need their tag: `init` reads `term_write`
and checks the pointer afterwards, `pmm_init` and `acpi_init` check nothing, so boot survives
a missing tag exactly when none of the three is missing (`survivesMissingTags_iff`).
-/

namespace FacelessOS.Boot

open ByteStore LinkedList

def identifier (mem : Store 64) (tag : U64) : U64 := load64 mem tag

def next (mem : Store 64) (tag : U64) : U64 := load64 mem (tag + 8#64)

/-- `stivale2_struct->tags`, behind the brand and the version of the bootloader. -/
def tagsPtr (mem : Store 64) (ss : U64) : U64 := load64 mem (ss + 128#64)

/-- The loop of `get_tag`; `none` when the rounds run out. -/
def getTagLoop (mem : Store 64) (id : U64) : ℕ → U64 → Option U64
  | 0, _ => none
  | fuel + 1, curTag =>
      if curTag = 0#64 then some 0#64
      else if identifier mem curTag = id then some curTag
      else getTagLoop mem id fuel (next mem curTag)

/-- `get_tag`; `0` is `NULL`. -/
def getTag (mem : Store 64) (fuel : ℕ) (ss id : U64) : Option U64 :=
  getTagLoop mem id fuel (tagsPtr mem ss)

/-- A read of the field at this offset of a tag. -/
structure TagRead where
  tag : U64
  offset : ℕ
deriving DecidableEq, Repr

/-! ## `init` -/

def pitFreqHz : U32 := 100

inductive BootCall where
  | logInit (termWritePtr : U64)
  | gdtLoad
  | log (call : LogCall)
  | idtInstall
  | pmmInit (ss : U64)
  | vmmInit (ss : U64)
  | pitInit (freqHz : U32)
  | acpiInit (ss : U64)
  | setupGeneralInterrupts
  | sti
  | cpuWakeupCores
  | kheapInit
deriving DecidableEq, Repr

/-- What `init` does besides looking up its tag; `halt` is the loop of `cli; hlt`. -/
inductive BootEvent where
  | read (field : TagRead)
  | call (callee : BootCall)
  | halt
deriving DecidableEq, Repr

def bootCalls (ss termWritePtr : U64) : List BootCall :=
  [.logInit termWritePtr,
    .gdtLoad,
    .log ⟨kinfo ++ "Global Descriptor Table loaded.\n", []⟩,
    .idtInstall,
    .log ⟨kinfo ++ "Interrupt Descriptor Table loaded.\n", []⟩,
    .pmmInit ss,
    .log ⟨kinfo ++ "Finished setting up PMM.\n", []⟩,
    .vmmInit ss,
    .log ⟨kinfo ++ "Finished setting up VMM.\n", []⟩,
    .pitInit pitFreqHz,
    .log ⟨kinfo ++ "PIT setup at %dHz\n", [pitFreqHz.setWidth 64]⟩,
    .acpiInit ss,
    .log ⟨kinfo ++ "ACPI related stuff has been setup.\n", []⟩,
    .setupGeneralInterrupts,
    .log ⟨kinfo ++ "General interrupts have been setup.\n", []⟩,
    .sti,
    .cpuWakeupCores,
    .log ⟨kinfo ++ "All CPU cores are now active!\n", []⟩,
    .kheapInit,
    .log ⟨kinfo ++ "Heap created.\n", []⟩]

/-- `init`. The pointer is checked after `term_write` is read through it. -/
def init (mem : Store 64) (fuel : ℕ) (ss : U64) : Option (List BootEvent) := do
  let termStrTag ← getTag mem fuel ss stivale2StructTagTerminalId
  let termWritePtr := load64 mem (termStrTag + 24#64)
  if termStrTag = 0#64 then
    return [.read ⟨termStrTag, 24⟩, .halt]
  else
    return .read ⟨termStrTag, 24⟩ :: (bootCalls ss termWritePtr).map .call

/-! ## `pmm_init` -/

def readEntry (mem : Store 64) (mmap i : U64) : MmapEntry where
  base := load64 mem (mmap + 24#64 + 24#64 * i)
  length := load64 mem (mmap + 24#64 + 24#64 * i + 8#64)
  type := load32 mem (mmap + 24#64 + 24#64 * i + 16#64)

/-- What a round reads of its entry, base at 0, length at 8 and type at 16: base and length for
the line it prints, the type for the check, and all of them again if the entry is usable. -/
def entryReads (mmap i : U64) (entry : MmapEntry) : List TagRead :=
  ([0, 0, 8, 8, 16] ++ if entry.type ≠ stivale2MmapUsable then [] else [16, 16, 0, 8]).map
    fun offset => ⟨mmap, 24 + 24 * i.toNat + offset⟩

/-- The loop of `pmm_init`, which reads `mmap->entries` before every round. -/
def pmmInitRounds (mem : Store 64) (mmap : U64) :
    ℕ → U64 → Pmm → Pmm × List LogCall × List TagRead
  | 0, _, p => (p, [], [])
  | fuel + 1, i, p =>
      if i < load64 mem (mmap + 16#64) then
        let entry := readEntry mem mmap i
        let (p, out) := pmmInitEntry p entry
        let (p, out', reads) := pmmInitRounds mem mmap fuel (i + 1#64) p
        (p, out ++ out', ⟨mmap, 16⟩ :: entryReads mmap i entry ++ reads)
      else (p, [], [⟨mmap, 16⟩])

def readMmap (mem : Store 64) (mmap : U64) : List MmapEntry :=
  (List.range (load64 mem (mmap + 16#64)).toNat).map fun i =>
    readEntry mem mmap (BitVec.ofNat 64 i)

/-- `pmm_init` with the pointer that `get_tag` returned: the allocator's state, the calls of
`log` and what is read of the tag. -/
def pmmInitMmap (mem : Store 64) (mmap : U64) (p : Pmm) : Pmm × List LogCall × List TagRead :=
  let (p, out, reads) := pmmInitRounds mem mmap ((load64 mem (mmap + 16#64)).toNat + 1) 0#64
    { p with gmmap := readMmap mem mmap }
  (p, ⟨dbgYellow ++ "\n\n<mmap_start>\n", []⟩ :: out ++
    [⟨dbgYellow ++ "</mmap_end>\n\n", []⟩], reads)

def pmmInit (mem : Store 64) (fuel : ℕ) (p : Pmm) (ss : U64) :
    Option (Pmm × List LogCall × List TagRead) := do
  let mmap ← getTag mem fuel ss stivale2StructTagMemmapId
  return pmmInitMmap mem mmap p

/-! ## `acpi_init` -/

/-- `acpi_init` up to `parse_madt`, and what it reads of the tag. -/
def acpiInit (mem : Store 64) (fuel : ℕ) (ss apic : U64) :
    Option (Except String (U64 × List LogCall) × List TagRead) := do
  let rsdpTg ← getTag mem fuel ss stivale2StructTagRsdpId
  let rsdp := load64 mem (rsdpTg + 16#64)
  return (acpiInitMadt mem rsdp apic, [⟨rsdpTg, 16⟩])

/-! ## The walk -/

/-- These are the tags of the list. -/
def Tags (mem : Store 64) (ss : U64) (tags : List U64) : Prop :=
  Chain (next mem) 0#64 (tagsPtr mem ss) tags

def Present (mem : Store 64) (tags : List U64) (id : U64) : Prop :=
  ∃ tag ∈ tags, identifier mem tag = id

structure FirstTag (mem : Store 64) (tags : List U64) (id tag : U64) : Prop where
  match_id : identifier mem tag = id
  first : ∃ before after, tags = before ++ tag :: after ∧ ∀ t ∈ before, identifier mem t ≠ id

/-- The pointer that belongs to an identifier. -/
def found (mem : Store 64) (tags : List U64) (id : U64) : U64 :=
  (tags.find? fun tag => identifier mem tag = id).getD 0#64

section Walk

variable {mem : Store 64} {ss id : U64} {tags : List U64} {fuel : ℕ}

theorem getTagLoop_eq {curTag : U64} (h : Chain (next mem) 0#64 curTag tags)
    (hfuel : tags.length < fuel) : getTagLoop mem id fuel curTag = some (found mem tags id) := by
  induction h generalizing fuel with
  | nil =>
      obtain ⟨fuel, rfl⟩ := Nat.exists_eq_add_of_lt hfuel
      rfl
  | @cons curTag tags hnull _ ih =>
      cases fuel with
      | zero => exact absurd hfuel (Nat.not_lt_zero _)
      | succ fuel =>
          rw [getTagLoop, if_neg hnull, found]
          by_cases hid : identifier mem curTag = id
          · rw [if_pos hid, List.find?_cons_of_pos (by simpa using hid), Option.getD_some]
          · rw [if_neg hid, List.find?_cons_of_neg (by simpa using hid)]
            exact ih (Nat.lt_of_succ_lt_succ hfuel)

theorem getTag_eq (h : Tags mem ss tags) (hfuel : tags.length < fuel) :
    getTag mem fuel ss id = some (found mem tags id) :=
  getTagLoop_eq h hfuel

theorem find?_eq_none (habsent : ¬ Present mem tags id) :
    (tags.find? fun tag => identifier mem tag = id) = none :=
  List.find?_eq_none.mpr fun tag hmem hid => habsent ⟨tag, hmem, by simpa using hid⟩

theorem find?_eq_found (hpresent : Present mem tags id) :
    (tags.find? fun tag => identifier mem tag = id) = some (found mem tags id) := by
  rw [found]
  cases hfind : tags.find? fun tag => identifier mem tag = id with
  | some tag => rfl
  | none =>
      obtain ⟨tag, hmem, hid⟩ := hpresent
      exact absurd hid (by simpa using List.find?_eq_none.mp hfind tag hmem)

theorem found_first (hpresent : Present mem tags id) : FirstTag mem tags id (found mem tags id) := by
  obtain ⟨hid, before, after, hsplit, hbefore⟩ :=
    List.find?_eq_some_iff_append.mp (find?_eq_found hpresent)
  exact ⟨by simpa using hid, before, after, hsplit, fun t ht => by simpa using hbefore t ht⟩

theorem found_eq_zero_iff (h : Tags mem ss tags) :
    found mem tags id = 0#64 ↔ ¬ Present mem tags id := by
  constructor
  · intro hnull hpresent
    exact h.ne_of_mem (List.mem_of_find?_eq_some (find?_eq_found hpresent)) hnull
  · intro habsent
    rw [found, find?_eq_none habsent, Option.getD_none]

end Walk

/-! ## The tags as values -/

/-- A tag with the fields that are read through it. -/
def readTag (mem : Store 64) (tag : U64) : Stivale2Tag :=
  if hterminal : identifier mem tag = stivale2StructTagTerminalId then
    .terminal (load64 mem (tag + 24#64))
  else if hmemmap : identifier mem tag = stivale2StructTagMemmapId then
    .memmap (readMmap mem tag)
  else if hrsdp : identifier mem tag = stivale2StructTagRsdpId then
    .rsdp (load64 mem (tag + 16#64))
  else .other (identifier mem tag) ⟨hterminal, hmemmap, hrsdp⟩

theorem readTag_identifier (mem : Store 64) (tag : U64) :
    (readTag mem tag).identifier = identifier mem tag := by
  rw [readTag]
  split
  · next hid => exact hid.symm
  · split
    · next hid => exact hid.symm
    · split
      · next hid => exact hid.symm
      · rfl

theorem readTag_memmap {mem : Store 64} {tag : U64}
    (h : identifier mem tag = stivale2StructTagMemmapId) :
    readTag mem tag = .memmap (readMmap mem tag) := by
  have hterminal : stivale2StructTagMemmapId ≠ stivale2StructTagTerminalId := by decide
  rw [readTag, dif_neg (h.trans_ne hterminal), dif_pos h]

/-- The walk over the addresses finds the tag that the list of values has first. -/
theorem getTag_readTag (mem : Store 64) (tags : List U64) (id : U64) :
    FacelessOS.getTag (tags.map (readTag mem)) id =
      (tags.find? fun tag => identifier mem tag = id).map (readTag mem) := by
  induction tags with
  | nil => rfl
  | cons tag tags ih =>
      rw [List.map_cons, FacelessOS.getTag, readTag_identifier]
      by_cases hid : identifier mem tag = id
      · rw [if_pos hid, List.find?_cons_of_pos (by simpa using hid)]
        rfl
      · rw [if_neg hid, List.find?_cons_of_neg (by simpa using hid), ih]

section Callers

variable {mem : Store 64} {ss apic : U64} {tags : List U64} {fuel : ℕ} {p : Pmm}

theorem entryReads_tag {mmap i : U64} {entry : MmapEntry} :
    ∀ field ∈ entryReads mmap i entry, field.tag = mmap := by
  intro field h
  obtain ⟨offset, -, rfl⟩ := List.mem_map.mp h
  rfl

theorem pmmInitRounds_eq {mmap : U64} {fuel n k : ℕ}
    (hk : k + n = (load64 mem (mmap + 16#64)).toNat) (hfuel : n < fuel) (p : Pmm) :
    ∃ reads, pmmInitRounds mem mmap fuel (BitVec.ofNat 64 k) p =
        ((pmmInitLoop p ((List.range' k n).map fun i => readEntry mem mmap (BitVec.ofNat 64 i))).1,
          (pmmInitLoop p ((List.range' k n).map fun i => readEntry mem mmap (BitVec.ofNat 64 i))).2,
          ⟨mmap, 16⟩ :: reads) ∧
      ∀ field ∈ reads, field.tag = mmap := by
  have hbound := (load64 mem (mmap + 16#64)).isLt
  have hkn : (BitVec.ofNat 64 k).toNat = k := toNat_ofNat (by omega)
  induction fuel generalizing n k p with
  | zero => exact absurd hfuel (Nat.not_lt_zero _)
  | succ fuel ih =>
      rw [pmmInitRounds]
      cases n with
      | zero =>
          rw [if_neg (by rw [BitVec.lt_def, hkn]; omega)]
          exact ⟨[], rfl, fun field h => absurd h List.not_mem_nil⟩
      | succ n =>
          have hnext : BitVec.ofNat 64 k + 1#64 = BitVec.ofNat 64 (k + 1) :=
            (BitVec.ofNat_add ..).symm
          have hsucc : (BitVec.ofNat 64 (k + 1)).toNat = k + 1 := toNat_ofNat (by omega)
          obtain ⟨reads, hrest, hreads⟩ := ih (n := n) (k := k + 1) (by omega) (by omega)
            (pmmInitEntry p (readEntry mem mmap (BitVec.ofNat 64 k))).1 hsucc
          rw [if_pos (by rw [BitVec.lt_def, hkn]; omega), hnext, List.range'_succ, List.map_cons,
            pmmInitLoop]
          simp only [hrest]
          refine ⟨_, rfl, fun field h => ?_⟩
          rcases List.mem_append.mp h with h | h
          · exact entryReads_tag field h
          · rcases List.mem_cons.mp h with rfl | h
            · rfl
            · exact hreads field h

theorem pmmInitMmap_eq (mem : Store 64) (mmap : U64) (p : Pmm) :
    ∃ p' out reads, pmmInitMmap mem mmap p = (p', out, ⟨mmap, 16⟩ :: reads) ∧
      (∀ values, FacelessOS.getTag values stivale2StructTagMemmapId =
        some (.memmap (readMmap mem mmap)) → FacelessOS.pmmInit p values = some (p', out)) ∧
      ∀ field ∈ reads, field.tag = mmap := by
  obtain ⟨reads, hrounds, hreads⟩ := @pmmInitRounds_eq mem mmap _ _ 0
    (Nat.zero_add _) (Nat.lt_succ_self _) { p with gmmap := readMmap mem mmap }
  rw [← List.range_eq_range', ← readMmap] at hrounds
  refine ⟨_, _, reads, ?_, fun values => pmmInit_of_memmap, hreads⟩
  rw [pmmInitMmap, hrounds]

theorem pmmInit_eq (h : Tags mem ss tags) (hfuel : tags.length < fuel) (p : Pmm) :
    pmmInit mem fuel p ss =
      some (pmmInitMmap mem (found mem tags stivale2StructTagMemmapId) p) := by
  rw [pmmInit, getTag_eq h hfuel]
  rfl

/-- With a memory map, `pmm_init` in memory is `pmm_init` on the values of the tags. -/
theorem pmmInit_refines (h : Tags mem ss tags) (hfuel : tags.length < fuel)
    (hpresent : Present mem tags stivale2StructTagMemmapId) (p : Pmm) :
    ∃ p' out reads, pmmInit mem fuel p ss = some (p', out, reads) ∧
      FacelessOS.pmmInit p (tags.map (readTag mem)) = some (p', out) := by
  obtain ⟨p', out, reads, hinit, hvalues, -⟩ :=
    pmmInitMmap_eq mem (found mem tags stivale2StructTagMemmapId) p
  have hid := (found_first hpresent).match_id
  have hget : FacelessOS.getTag (tags.map (readTag mem)) stivale2StructTagMemmapId =
      some (.memmap (readMmap mem (found mem tags stivale2StructTagMemmapId))) := by
    rw [getTag_readTag, find?_eq_found hpresent, Option.map_some, readTag_memmap hid]
  exact ⟨p', out, _, (pmmInit_eq h hfuel p).trans (congrArg some hinit), hvalues _ hget⟩

/-- Without one, `pmm_init` on the values is where the code reads through `NULL`. -/
theorem pmmInit_reads_null (h : Tags mem ss tags) (hfuel : tags.length < fuel)
    (habsent : ¬ Present mem tags stivale2StructTagMemmapId) (p : Pmm) :
    (∃ p' out reads, pmmInit mem fuel p ss = some (p', out, ⟨0#64, 16⟩ :: reads)) ∧
      FacelessOS.pmmInit p (tags.map (readTag mem)) = none := by
  obtain ⟨p', out, reads, hinit, -, -⟩ := pmmInitMmap_eq mem 0#64 p
  refine ⟨⟨p', out, reads, ?_⟩, pmmInit_of_none ?_⟩
  · rw [pmmInit_eq h hfuel, (found_eq_zero_iff h).mpr habsent, hinit]
  · rw [getTag_readTag, find?_eq_none habsent, Option.map_none]

theorem init_eq (h : Tags mem ss tags) (hfuel : tags.length < fuel) :
    init mem fuel ss = some (.read ⟨found mem tags stivale2StructTagTerminalId, 24⟩ ::
      if found mem tags stivale2StructTagTerminalId = 0#64 then [.halt]
      else (bootCalls ss
        (load64 mem (found mem tags stivale2StructTagTerminalId + 24#64))).map .call) := by
  rw [init, getTag_eq h hfuel, Option.bind_eq_bind, Option.bind_some]
  split
  · rfl
  · rfl

theorem acpiInit_eq (h : Tags mem ss tags) (hfuel : tags.length < fuel) (apic : U64) :
    acpiInit mem fuel ss apic =
      some (acpiInitMadt mem (load64 mem (found mem tags stivale2StructTagRsdpId + 16#64)) apic,
        [⟨found mem tags stivale2StructTagRsdpId, 16⟩]) := by
  rw [acpiInit, getTag_eq h hfuel]
  rfl

end Callers

/-! ## Missing tags -/

/-- Boot survives a missing tag: `get_tag` is right, nothing is read through its `NULL`, and
without a terminal `init` halts at once. -/
structure SurvivesMissingTags (mem : Store 64) (fuel : ℕ) (ss apic : U64) (p : Pmm)
    (tags : List U64) : Prop where
  get_tag : ∀ id, ∃ tag, getTag mem fuel ss id = some tag ∧
    (tag = 0#64 ↔ ∀ t ∈ tags, identifier mem t ≠ id) ∧
    (tag ≠ 0#64 → FirstTag mem tags id tag)
  init : ∃ events, init mem fuel ss = some events ∧
    ∀ field, .read field ∈ events → field.tag ≠ 0#64
  pmm_init : ∃ p' out reads, pmmInit mem fuel p ss = some (p', out, reads) ∧
    ∀ field ∈ reads, field.tag ≠ 0#64
  acpi_init : ∃ result reads, acpiInit mem fuel ss apic = some (result, reads) ∧
    ∀ field ∈ reads, field.tag ≠ 0#64
  halts : (∀ t ∈ tags, identifier mem t ≠ stivale2StructTagTerminalId) →
    Boot.init mem fuel ss = some [.halt]

theorem getTag_first {mem : Store 64} {ss : U64} {tags : List U64} {fuel : ℕ}
    (h : Tags mem ss tags) (hfuel : tags.length < fuel) (id : U64) :
    ∃ tag, getTag mem fuel ss id = some tag ∧
      (tag = 0#64 ↔ ∀ t ∈ tags, identifier mem t ≠ id) ∧
      (tag ≠ 0#64 → FirstTag mem tags id tag) := by
  refine ⟨found mem tags id, getTag_eq h hfuel, ?_, fun hfound => found_first ?_⟩
  · rw [found_eq_zero_iff h]
    exact ⟨fun habsent t hmem hid => habsent ⟨t, hmem, hid⟩,
      fun hall ⟨t, hmem, hid⟩ => hall t hmem hid⟩
  · by_contra habsent
    exact hfound ((found_eq_zero_iff h).mpr habsent)

/-- Boot survives missing tags exactly when the terminal, the memory map and the RSDP are all
there. -/
theorem survivesMissingTags_iff {mem : Store 64} {ss apic : U64} {p : Pmm} {tags : List U64}
    {fuel : ℕ} (h : Tags mem ss tags) (hfuel : tags.length < fuel) :
    SurvivesMissingTags mem fuel ss apic p tags ↔
      Present mem tags stivale2StructTagTerminalId ∧
        Present mem tags stivale2StructTagMemmapId ∧
        Present mem tags stivale2StructTagRsdpId := by
  have hinit := init_eq h hfuel
  have hacpi := acpiInit_eq h hfuel apic
  constructor
  · intro hboot
    refine ⟨?_, ?_, ?_⟩
    · by_contra habsent
      have hhalt := hboot.halts fun t hmem hid => habsent ⟨t, hmem, hid⟩
      rw [hinit, (found_eq_zero_iff h).mpr habsent] at hhalt
      cases hhalt
    · by_contra habsent
      obtain ⟨⟨q, out, reads, hpmm⟩, -⟩ := pmmInit_reads_null h hfuel habsent p
      obtain ⟨q', out', reads', hpmm', hnonnull⟩ := hboot.pmm_init
      rw [hpmm] at hpmm'
      obtain ⟨-, hpair⟩ := Prod.mk.inj (Option.some_inj.mp hpmm')
      obtain ⟨-, rfl⟩ := Prod.mk.inj hpair
      exact hnonnull _ List.mem_cons_self rfl
    · by_contra habsent
      obtain ⟨result, reads, hacpi', hnonnull⟩ := hboot.acpi_init
      rw [hacpi, (found_eq_zero_iff h).mpr habsent] at hacpi'
      obtain ⟨-, rfl⟩ := Prod.mk.inj (Option.some_inj.mp hacpi')
      exact hnonnull _ List.mem_cons_self rfl
  · rintro ⟨hterminal, hmemmap, hrsdp⟩
    have hfound {id : U64} (hpresent : Present mem tags id) : found mem tags id ≠ 0#64 :=
      fun hnull => (found_eq_zero_iff h).mp hnull hpresent
    refine ⟨getTag_first h hfuel, ⟨_, hinit, ?_⟩, ?_, ⟨_, _, hacpi, ?_⟩, ?_⟩
    · intro field hread
      rw [if_neg (hfound hterminal)] at hread
      rcases List.mem_cons.mp hread with heq | hread
      · cases heq
        exact hfound hterminal
      · obtain ⟨callee, -, hcall⟩ := List.mem_map.mp hread
        cases hcall
    · obtain ⟨p', out, reads, hmmap, -, hreads⟩ :=
        pmmInitMmap_eq mem (found mem tags stivale2StructTagMemmapId) p
      refine ⟨p', out, _, (pmmInit_eq h hfuel p).trans (congrArg some hmmap), ?_⟩
      intro field hread
      rcases List.mem_cons.mp hread with rfl | hread
      · exact hfound hmemmap
      · rw [hreads field hread]
        exact hfound hmemmap
    · intro field hread
      rw [List.mem_singleton.mp hread]
      exact hfound hrsdp
    · intro habsent
      obtain ⟨tag, hmem, hid⟩ := hterminal
      exact absurd hid (habsent tag hmem)

/-- The list of the struct at `0x1000`: an RSDP, a terminal and a memory map without entries,
with unknown tags between them. -/
def fiveTagsMem : Store 64 :=
  [(0x2000#64, stivale2StructTagRsdpId, 0x2100#64), (0x2100#64, 7#64, 0x2200#64),
    (0x2200#64, stivale2StructTagTerminalId, 0x2300#64), (0x2300#64, 7#64, 0x2400#64),
    (0x2400#64, stivale2StructTagMemmapId, 0#64)].foldl
    (fun mem tag => store64 (store64 mem tag.1 tag.2.1) (tag.1 + 8#64) tag.2.2)
    (store64 (fun _ => 0#8) 0x1080#64 0x2000#64)

def fiveTags : List U64 := [0x2000#64, 0x2100#64, 0x2200#64, 0x2300#64, 0x2400#64]

theorem tags_five : Tags fiveTagsMem 0x1000#64 fiveTags := by
  have htags : tagsPtr fiveTagsMem 0x1000#64 = 0x2000#64 := by decide +kernel
  have hnext : fiveTags.map (next fiveTagsMem) =
      [0x2100#64, 0x2200#64, 0x2300#64, 0x2400#64, 0#64] := by decide +kernel
  simp only [fiveTags, List.map_cons, List.map_nil, List.cons.injEq, and_true] at hnext
  obtain ⟨h₁, h₂, h₃, h₄, h₅⟩ := hnext
  rw [Tags, htags]
  refine .cons (by decide) (h₁ ▸ .cons (by decide) (h₂ ▸ .cons (by decide) ?_))
  exact h₃ ▸ .cons (by decide) (h₄ ▸ .cons (by decide) (h₅ ▸ .nil))

theorem survivesMissingTags_iff_five :
    SurvivesMissingTags fiveTagsMem 6 0x1000#64 0#64 ⟨[], 0, 0, 0⟩ fiveTags := by
  refine (survivesMissingTags_iff tags_five (by decide)).mpr ⟨?_, ?_, ?_⟩
  · exact ⟨0x2200#64, by decide, by decide +kernel⟩
  · exact ⟨0x2400#64, by decide, by decide +kernel⟩
  · exact ⟨0x2000#64, by decide, by decide +kernel⟩

def mapOnlyMem : Store 64 :=
  store64 (store64 (fun _ => 0#8) 0x1080#64 0x2000#64) 0x2000#64 stivale2StructTagMemmapId

theorem tags_mapOnly : Tags mapOnlyMem 0x1000#64 [0x2000#64] := by
  have htags : tagsPtr mapOnlyMem 0x1000#64 = 0x2000#64 := by decide +kernel
  have hnext : next mapOnlyMem 0x2000#64 = 0#64 := by decide +kernel
  rw [Tags, htags]
  refine .cons (by decide) ?_
  rw [hnext]
  exact .nil

/-- Without a terminal, `init` reads `term_write` through `NULL` before it halts. -/
theorem init_reads_null : ¬ ∀ (mem : Store 64) (ss apic : U64) (p : Pmm) (tags : List U64)
    (fuel : ℕ), Tags mem ss tags → tags.length < fuel →
      SurvivesMissingTags mem fuel ss apic p tags := by
  intro h
  have hboot := h mapOnlyMem 0x1000#64 0#64 ⟨[], 0, 0, 0⟩ [0x2000#64] 2 tags_mapOnly (by decide)
  have hid : identifier mapOnlyMem 0x2000#64 ≠ stivale2StructTagTerminalId := by decide +kernel
  have hother : ∀ t ∈ [0x2000#64], identifier mapOnlyMem t ≠ stivale2StructTagTerminalId :=
    fun t hmem => List.mem_singleton.mp hmem ▸ hid
  have hnull := (@found_eq_zero_iff _ _ stivale2StructTagTerminalId _ tags_mapOnly).mpr
    fun ⟨t, hmem, ht⟩ => hother t hmem ht
  have hhalt := hboot.halts hother
  rw [init_eq tags_mapOnly (by decide), hnull] at hhalt
  cases hhalt

end FacelessOS.Boot
