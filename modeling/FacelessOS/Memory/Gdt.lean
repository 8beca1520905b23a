import FacelessOS.Basic

/-!
# The global descriptor table (`GDT.asm`)

The selectors that `gdt_load` puts into the segment registers, and the one that every gate
names, are those of the 64-bit segments.
-/

namespace FacelessOS

structure GdtEntry where
  limitLow : U16
  baseLow : U16
  baseMiddle : U8
  access : U8
  granularity : U8
  baseHigh : U8
deriving DecidableEq, Repr

def gdt : List GdtEntry :=
  [⟨0, 0, 0, 0, 1, 0⟩,
    ⟨0xFFFF, 0, 0, 0b10011010, 0b00000000, 0⟩,
    ⟨0xFFFF, 0, 0, 0b10010010, 0b00000000, 0⟩,
    ⟨0xFFFF, 0, 0, 0b10011010, 0b11001111, 0⟩,
    ⟨0xFFFF, 0, 0, 0b10010010, 0b11001111, 0⟩,
    ⟨0, 0, 0, 0b10011010, 0b00100000, 0⟩,
    ⟨0, 0, 0, 0b10010010, 0b00000000, 0⟩]

def gdtLimit : U16 := 55

structure Segments where
  cs : U16
  ds : U16
  es : U16
  fs : U16
  gs : U16
  ss : U16
  interruptFlag : Bool
deriving DecidableEq, Repr

/-- `gdt_load`: `cs` with the far return. -/
def gdtLoad : Segments := ⟨0x28, 0x30, 0x30, 0x30, 0x30, 0x30, false⟩

/-! ## Segments -/

/-- The entry that a selector names, if all of it is within the limit. -/
def selected (gdt : List GdtEntry) (limit selector : U16) : Option GdtEntry :=
  if selector.toNat / 8 * 8 + 7 ≤ limit.toNat then gdt[selector.toNat / 8]? else none

def GdtEntry.present (e : GdtEntry) : Bool := e.access.getLsbD 7

/-- A code segment for 64-bit code of the kernel: a segment of the code kind with privilege
level 0, and of the two sizes the long one only. -/
def GdtEntry.isCode64 (e : GdtEntry) : Bool :=
  e.access.getLsbD 4 && e.access.getLsbD 3 && e.access.extractLsb' 5 2 = 0#2 &&
    e.granularity.getLsbD 5 && !e.granularity.getLsbD 6

theorem isCode64_iff {k : ℕ} {e : GdtEntry} (he : gdt[k]? = some e) :
    e.present = true ∧ e.isCode64 = true ↔ k = 5 := by
  have hk : k < 7 := (List.getElem?_eq_some_iff.mp he).1
  have hall : ∀ k < 7, ∀ e ∈ gdt[k]?, (e.present = true ∧ e.isCode64 = true ↔ k = 5) := by
    decide
  exact hall k hk e he

/-- The selectors for 64-bit code are that of `cs`, up to the requested privilege level and
the bit for a local table. -/
theorem selected_code64 (selector : U16) :
    (∃ e, selected gdt gdtLimit selector = some e ∧ e.present = true ∧ e.isCode64 = true) ↔
      selector.toNat / 8 = gdtLoad.cs.toNat / 8 := by
  have hcs : gdtLoad.cs.toNat / 8 = 5 := rfl
  rw [hcs]
  unfold selected
  constructor
  · rintro ⟨e, he, hcode⟩
    split at he
    · exact (isCode64_iff he).mp hcode
    · exact absurd he (by simp)
  · intro hselector
    rw [hselector]
    exact ⟨_, rfl, by decide⟩

end FacelessOS
