import FacelessOS.Debug.LogCalls
import FacelessOS.Memory.Pmm

/-!
# The memory map as `pmm_init` prints it

`pmm_init` prints base, end and length of every entry through `%x`, and `log` takes the
argument of `%x` off the list as an `int`: the upper half of each 64-bit value is lost
before `hex2str` sees it. The text is `mapText`, and it determines the lower halves and
nothing else (`mapText_eq_iff`), so two maps of one shape are told apart exactly when the
lower half of some base or length differs (`pmmInit_text_differs_iff`).
-/

namespace FacelessOS

open Buffer

/-! ## The text -/

/-- What `%x` shows of a value. -/
def shown (v : U64) : List U8 := hexText (v.setWidth 32)

def statusText (type : U32) : List U8 :=
  if type ≠ stivale2MmapUsable ∨ type = stivale2MmapBootloaderReclaimable ∨
      type = stivale2MmapKernelAndModules then
    bytes (dbgRed ++ "[Reserved]\n")
  else bytes (kinfo ++ "[Usable]\n")

/-- The values of an entry, up to the blank behind them. -/
def valuesText (entry : MmapEntry) : List U8 :=
  shown entry.base ++ ascii '-' :: (shown (entry.base + entry.length) ++
    ascii ' ' :: ascii '|' :: ascii ' ' :: (shown entry.length ++ [ascii ' ']))

def entryText (entry : MmapEntry) : List U8 :=
  bytes (dbgCyan ++ "\t") ++ valuesText entry ++ statusText entry.type

def mapText (mmap : List MmapEntry) : List U8 :=
  bytes (dbgYellow ++ "\n\n<mmap_start>\n") ++
    (mmap.flatMap entryText ++ bytes (dbgYellow ++ "</mmap_end>\n\n"))

/-! ## What is logged -/

def lineItems : List Item :=
  [.conv .x, .char (ascii '-') (by decide), .conv .x, .char (ascii ' ') (by decide),
    .char (ascii '|') (by decide), .char (ascii ' ') (by decide), .conv .x,
    .char (ascii ' ') (by decide)]

theorem encode_line :
    bytes (dbgCyan ++ "\t%x-%x | %x ") = bytes (dbgCyan ++ "\t") ++ encode lineItems := by
  simp [bytes, dbgCyan, lineItems, Conv.letter]

theorem plain_cyan : Plain (bytes (dbgCyan ++ "\t")) := by
  simp [Plain, bytes, dbgCyan, ascii]

theorem plain_reserved : Plain (bytes (dbgRed ++ "[Reserved]\n")) := by
  simp [Plain, bytes, dbgRed, ascii]

theorem plain_usable : Plain (bytes (kinfo ++ "[Usable]\n")) := by
  simp [Plain, bytes, kinfo, ascii]

theorem plain_start : Plain (bytes (dbgYellow ++ "\n\n<mmap_start>\n")) := by
  simp [Plain, bytes, dbgYellow, ascii]

theorem plain_end : Plain (bytes (dbgYellow ++ "</mmap_end>\n\n")) := by
  simp [Plain, bytes, dbgYellow, ascii]

theorem text_x {va : VaList} {v : U64} : Conv.Text va v (shown v) .x :=
  fun hexString => hex2str_holds hexString (v.setWidth 32)

theorem logs_line (entry : MmapEntry) {calls : List LogCall} {rest : List U8}
    (h : Logs calls rest) :
    Logs (⟨dbgCyan ++ "\t%x-%x | %x ",
        [entry.base, entry.base + entry.length, entry.length]⟩ :: calls)
      (bytes (dbgCyan ++ "\t") ++ valuesText entry ++ rest) := by
  have hsep : Separated lineItems := trivial
  refine Logs.call (encode_line.trans (encode_plainItems plain_cyan).symm)
    ((separated_plainItems plain_cyan).mpr hsep) (fun mem => renders_plainItems plain_cyan ?_) h
  exact .conv text_x (.char (.conv text_x (.char (.char (.char (.conv text_x (.char .nil)))))))

theorem logs_pmmInitEntry (p : Pmm) (entry : MmapEntry) {calls : List LogCall} {rest : List U8}
    (h : Logs calls rest) :
    Logs ((pmmInitEntry p entry).2 ++ calls) (entryText entry ++ rest) := by
  rw [pmmInitEntry, entryText, List.append_assoc, statusText]
  split
  · exact logs_line entry (Logs.plain plain_reserved h)
  · exact logs_line entry (Logs.plain plain_usable h)

theorem logs_pmmInitLoop (p : Pmm) (mmap : List MmapEntry) {calls : List LogCall} {rest : List U8}
    (h : Logs calls rest) :
    Logs ((pmmInitLoop p mmap).2 ++ calls) (mmap.flatMap entryText ++ rest) := by
  induction mmap generalizing p with
  | nil => exact h
  | cons entry mmap ih =>
      rw [pmmInitLoop, List.flatMap_cons, List.append_assoc, List.append_assoc]
      exact logs_pmmInitEntry p entry (ih _)

theorem logs_pmmInit {p p' : Pmm} {ss : List Stivale2Tag} {mmap : List MmapEntry}
    {calls : List LogCall} (hmap : getTag ss stivale2StructTagMemmapId = some (.memmap mmap))
    (h : pmmInit p ss = some (p', calls)) : Logs calls (mapText mmap) := by
  rw [pmmInit_of_memmap hmap] at h
  obtain rfl := (Prod.mk.inj (Option.some_inj.mp h)).2
  have hend : Logs [⟨dbgYellow ++ "</mmap_end>\n\n", []⟩]
      (bytes (dbgYellow ++ "</mmap_end>\n\n") ++ []) := Logs.plain plain_end Logs.nil
  rw [List.append_nil] at hend
  exact Logs.plain plain_start (logs_pmmInitLoop _ mmap hend)

/-! ## What the text determines -/

/-- Base and length agree in their lower halves. -/
def SameLow (entry other : MmapEntry) : Prop :=
  entry.base.setWidth 32 = other.base.setWidth 32 ∧
    entry.length.setWidth 32 = other.length.setWidth 32

instance (entry other : MmapEntry) : Decidable (SameLow entry other) :=
  inferInstanceAs (Decidable (_ ∧ _))

theorem shown_injective {v w : U64} (h : shown v = shown w) : v.setWidth 32 = w.setWidth 32 :=
  hexText_injective h

theorem not_mem_shown {v : U64} {c : U8}
    (hc : c ∉ bytes "0x" ++ bytes "0123456789ABCDEF") : c ∉ shown v := by
  obtain ⟨digits, hdig⟩ := hexText_hexadecimal (v.setWidth 32)
  rw [shown, hdig.leader, List.mem_append]
  rw [List.mem_append] at hc
  rintro (h | h)
  · exact hc (Or.inl h)
  · exact hc (Or.inr (hdig.digit c h))

/-- The values of an entry are read back from the start of a text, as far as they are
shown. -/
theorem valuesText_cancel {entry other : MmapEntry} {r r' : List U8}
    (h : valuesText entry ++ r = valuesText other ++ r') : SameLow entry other ∧ r = r' := by
  have hdash {v : U64} : ascii '-' ∉ shown v := not_mem_shown (by decide)
  have hblank {v : U64} : ascii ' ' ∉ shown v := not_mem_shown (by decide)
  simp only [valuesText, List.append_assoc, List.cons_append, List.nil_append] at h
  obtain ⟨hbase, h⟩ := append_cons_cancel hdash hdash h
  obtain ⟨_, h⟩ := append_cons_cancel hblank hblank h
  have h := (List.cons.inj (List.cons.inj h).2).2
  obtain ⟨hlength, h⟩ := append_cons_cancel hblank hblank h
  exact ⟨⟨shown_injective hbase, shown_injective hlength⟩, h⟩

theorem SameLow.valuesText {entry other : MmapEntry} (h : SameLow entry other) :
    valuesText entry = valuesText other := by
  obtain ⟨hbase, hlength⟩ := h
  have hsum : (entry.base + entry.length).setWidth 32 = (other.base + other.length).setWidth 32 := by
    rw [BitVec.setWidth_add _ _ (by omega), BitVec.setWidth_add _ _ (by omega), hbase, hlength]
  simp only [FacelessOS.valuesText, shown, hbase, hlength, hsum]

theorem mapText_eq_iff {mmap other : List MmapEntry}
    (htypes : List.Forall₂ (fun e f => e.type = f.type) mmap other) :
    mapText mmap = mapText other ↔ List.Forall₂ SameLow mmap other := by
  have key (r : List U8) : mmap.flatMap entryText ++ r = other.flatMap entryText ++ r ↔
      List.Forall₂ SameLow mmap other := by
    induction htypes with
    | nil => exact iff_of_true rfl .nil
    | @cons e f mmap other htype _ ih =>
        rw [List.flatMap_cons, List.flatMap_cons, List.forall₂_cons, ← ih, entryText, entryText,
          htype]
        simp only [List.append_assoc]
        constructor
        · intro h
          obtain ⟨hlow, h⟩ := valuesText_cancel (List.append_cancel_left h)
          exact ⟨hlow, List.append_cancel_left h⟩
        · rintro ⟨hlow, h⟩
          rw [hlow.valuesText, h]
  rw [mapText, mapText, ← key (bytes (dbgYellow ++ "</mmap_end>\n\n"))]
  exact ⟨List.append_cancel_left, fun h => by rw [h]⟩

def LowDiffers (mmap other : List MmapEntry) : Prop :=
  ∃ pair ∈ mmap.zip other, pair.1.base.setWidth 32 ≠ pair.2.base.setWidth 32 ∨
    pair.1.length.setWidth 32 ≠ pair.2.length.setWidth 32

instance (mmap other : List MmapEntry) : Decidable (LowDiffers mmap other) :=
  inferInstanceAs (Decidable (∃ pair ∈ _, _))

theorem lowDiffers_iff {mmap other : List MmapEntry} (hlen : mmap.length = other.length) :
    LowDiffers mmap other ↔ ¬ List.Forall₂ SameLow mmap other := by
  rw [List.forall₂_iff_zip, LowDiffers]
  constructor
  · rintro ⟨⟨e, f⟩, hmem, hdiff⟩ ⟨_, hsame⟩
    obtain ⟨hbase, hlength⟩ := hsame hmem
    exact hdiff.elim (fun h => h hbase) fun h => h hlength
  · intro hnot
    by_contra hall
    refine hnot ⟨hlen, fun {e f} hmem => ?_⟩
    by_contra hdiff
    exact hall ⟨(e, f), hmem, not_and_or.mp hdiff⟩

/-! ## Two memory maps -/

def PmmInitPrints (env : LogEnv) (fuel : ℕ) (p : Pmm) (ss : List Stivale2Tag) (text : List U8) :
    Prop :=
  ∃ p' calls out, pmmInit p ss = some (p', calls) ∧ logCalls fuel env calls = some out ∧
    Printed out text

theorem PmmInitPrints.unique {env : LogEnv} {fuel : ℕ} {p : Pmm} {ss : List Stivale2Tag}
    {text text' : List U8} (h : PmmInitPrints env fuel p ss text)
    (h' : PmmInitPrints env fuel p ss text') : text = text' := by
  obtain ⟨q, calls, out, hinit, hout, hprinted⟩ := h
  obtain ⟨q', calls', out', hinit', hout', hprinted'⟩ := h'
  obtain ⟨-, rfl⟩ := Prod.mk.inj (Option.some_inj.mp (hinit.symm.trans hinit'))
  obtain rfl := Option.some_inj.mp (hout.symm.trans hout')
  exact hprinted.unique hprinted'

theorem short_pmmInitLoop (p : Pmm) (mmap : List MmapEntry) :
    ∀ call ∈ (pmmInitLoop p mmap).2, (bytes call.fmt).length < 32 := by
  induction mmap generalizing p with
  | nil => exact fun call h => absurd h List.not_mem_nil
  | cons entry mmap ih =>
      intro call hcall
      rw [pmmInitLoop] at hcall
      rcases List.mem_append.mp hcall with hcall | hcall
      · rw [pmmInitEntry] at hcall
        split at hcall
        all_goals
          rcases List.mem_pair.mp hcall with rfl | rfl
          · simp [bytes, dbgCyan]
          · simp [bytes, dbgRed, kinfo]
      · exact ih _ call hcall

theorem pmmInit_prints {env : LogEnv} {fuel : ℕ} {p : Pmm} {ss : List Stivale2Tag}
    {mmap : List MmapEntry} (hmap : getTag ss stivale2StructTagMemmapId = some (.memmap mmap))
    (hfuel : 32 ≤ fuel) : PmmInitPrints env fuel p ss (mapText mmap) := by
  have hinit := pmmInit_of_memmap (p := p) hmap
  have hshort : ∀ call ∈ ⟨dbgYellow ++ "\n\n<mmap_start>\n", []⟩ ::
      (pmmInitLoop { p with gmmap := mmap } mmap).2 ++ [⟨dbgYellow ++ "</mmap_end>\n\n", []⟩],
      (bytes call.fmt).length < fuel := by
    intro call hcall
    refine Nat.lt_of_lt_of_le ?_ hfuel
    rcases List.mem_append.mp hcall with hcall | hcall
    · rcases List.mem_cons.mp hcall with rfl | hcall
      · simp [bytes, dbgYellow]
      · exact short_pmmInitLoop _ _ call hcall
    · rw [List.mem_singleton.mp hcall]
      simp [bytes, dbgYellow]
  obtain ⟨out, hout, hprinted⟩ := logs_pmmInit hmap hinit env fuel hshort
  exact ⟨_, _, out, hinit, hout, hprinted⟩

/-- The texts of two maps with the same number of entries and the same types: different maps
print differently exactly when some entry differs in the lower half of its base or of its
length. -/
theorem pmmInit_text_differs_iff {env env' : LogEnv} {fuel : ℕ} {p p' : Pmm}
    {ss ss' : List Stivale2Tag} {mmap other : List MmapEntry}
    (hmap : getTag ss stivale2StructTagMemmapId = some (.memmap mmap))
    (hother : getTag ss' stivale2StructTagMemmapId = some (.memmap other))
    (htypes : List.Forall₂ (fun e f => e.type = f.type) mmap other) (hfuel : 32 ≤ fuel) :
    ∃ text text', PmmInitPrints env fuel p ss text ∧ PmmInitPrints env' fuel p' ss' text' ∧
      ((mmap ≠ other → text ≠ text') ↔ (mmap ≠ other → LowDiffers mmap other)) := by
  refine ⟨_, _, pmmInit_prints hmap hfuel, pmmInit_prints hother hfuel, ?_⟩
  rw [lowDiffers_iff htypes.length_eq, ne_eq (mapText mmap), mapText_eq_iff htypes]

def lowMap : List MmapEntry := [⟨0x1000, 0x1000, stivale2MmapUsable⟩]

def highMap : List MmapEntry := [⟨0x100001000, 0x1000, stivale2MmapUsable⟩]

theorem pmmInit_text_differs_iff_high : ∃ text text',
    PmmInitPrints zeroEnv 32 ⟨[], 0, 0, 0⟩ [.memmap lowMap] text ∧
      PmmInitPrints zeroEnv 32 ⟨[], 0, 0, 0⟩ [.memmap highMap] text' ∧
      ((lowMap ≠ highMap → text ≠ text') ↔ (lowMap ≠ highMap → LowDiffers lowMap highMap)) :=
  pmmInit_text_differs_iff rfl rfl (.cons rfl .nil) (Nat.le_refl _)

/-- A page at `0x1000` and one at `0x100001000` print the same. -/
theorem pmmInit_texts_agree : ¬ ∀ (env : LogEnv) (fuel : ℕ) (p : Pmm) (ss ss' : List Stivale2Tag)
    (mmap other : List MmapEntry), getTag ss stivale2StructTagMemmapId = some (.memmap mmap) →
      getTag ss' stivale2StructTagMemmapId = some (.memmap other) →
      List.Forall₂ (fun e f => e.type = f.type) mmap other →
      (∀ e ∈ mmap ++ other, e.base.toNat + e.length.toNat < 2 ^ 64) → 32 ≤ fuel → mmap ≠ other →
      ∃ text text', PmmInitPrints env fuel p ss text ∧ PmmInitPrints env fuel p ss' text' ∧
        text ≠ text' := by
  intro h
  have htypes : List.Forall₂ (fun e f => e.type = f.type) lowMap highMap := .cons rfl .nil
  obtain ⟨text, text', htext, htext', hne⟩ := h zeroEnv 32 ⟨[], 0, 0, 0⟩ [.memmap lowMap]
    [.memmap highMap] lowMap highMap rfl rfl htypes (by decide) (Nat.le_refl _) (by decide)
  rw [htext.unique (pmmInit_prints rfl (Nat.le_refl _)),
    htext'.unique (pmmInit_prints rfl (Nat.le_refl _))] at hne
  exact hne ((mapText_eq_iff htypes).mpr (.cons ⟨rfl, rfl⟩ .nil))

end FacelessOS
