import FacelessOS.Libkern.Strncmp
import FacelessOS.Libkern.Strncpy

/-!
# Terminators and bounds (`string.c`)

When the two primitives respect the terminators of their strings and their bound, for any
memory and any pointers (`stringPrimitives_iff`). `strncmp` goes on behind the terminators of
two equal strings when the count is greater. `strncpy` looks at `src[len]` when the string
does not fit, and needs in `dst` the zero that it does not write, as in the call that
`hex2str` makes on a zero (`strncpyRespects_zeroDigit`).
-/

namespace FacelessOS

open ByteStore

variable {mem mem' : Store 64} {s1 s2 : U64} {n : U32} {l1 l2 : List U8} {dst src len : U64}

/-- Of two strings that lie away from `NULL`, only equal ones are read behind the terminator. -/
theorem strncmpRespects_iff_clear (h1 : (strAt mem s1).Holds l1) (h2 : (strAt mem s2).Holds l2)
    (hs1 : Clear s1 (l1.length + 2)) (hs2 : Clear s2 (l2.length + 2)) :
    StrncmpRespects mem s1 s2 n l1 l2 ↔ (l1 = l2 → n.toNat ≤ l1.length + 1) := by
  rw [strncmpRespects_iff h1 h2]
  constructor
  · rintro ⟨hequal, -⟩ hl
    subst hl
    exact hequal rfl ⟨hs1, hs2⟩
  · refine fun hequal => ⟨fun hl _ => hequal hl, fun hne d hfirst => ?_⟩
    obtain ⟨d', -, hd1, hd2, hfirst'⟩ := exists_firstDifference h1 h2 hne
    obtain rfl := hfirst.unique hfirst'
    exact ⟨fun k hk => hs1 k (by omega), fun k hk => hs2 k (by omega)⟩

theorem Str.Holds.endsAt {s : Str} {l : List U8} (h : s.Holds l) : s.EndsAt l.length := by
  obtain ⟨hget, hzero, hne⟩ := Buffer.holdsAt_iff.mp h
  refine ⟨Nat.zero_add l.length ▸ hzero, fun j hj hj0 => hne ?_⟩
  have hmem : l[j] ∈ l := List.getElem_mem hj
  rwa [← hget j hj, Nat.zero_add, hj0] at hmem

theorem strncpyRespects_iff_holds (h : (strAt mem src).Holds l1) :
    Libkern.StrncpyRespects mem dst src len ↔
      l1.length < len.toNat ∧ strAt mem dst l1.length = 0#8 ∧
        (dst = src ∨ l1.length < (dst - src).toNat) := by
  rw [Libkern.strncpyRespects_iff]
  constructor
  · rintro ⟨t, hends, hrest⟩
    rwa [h.endsAt.unique hends]
  · exact fun hrest => ⟨l1.length, h.endsAt, hrest⟩

/-- The call of `hex2str` on a zero leaves the second byte of the buffer as it was. -/
theorem strncpyRespects_zeroDigit {hexString lit : U64} (h : (strAt mem lit).Holds (bytes "0"))
    (hapart : 1 < (hexString - lit).toNat) :
    Libkern.StrncpyRespects mem hexString lit 2#64 ↔ strAt mem hexString 1 = 0#8 := by
  rw [strncpyRespects_iff_holds h]
  exact ⟨fun h => h.2.1, fun h => ⟨by decide, h, Or.inr hapart⟩⟩

/-- `strncmp` respects its two strings exactly when it does not go on behind equal ones and
meets no `NULL` up to the first difference of others. `strncpy` respects terminator and bound
exactly when the terminator of `src` comes below `len`, `dst` has a zero in its place already,
and `dst` does not begin inside `src`. -/
theorem stringPrimitives_iff (h1 : (strAt mem s1).Holds l1) (h2 : (strAt mem s2).Holds l2) :
    (StrncmpRespects mem s1 s2 n l1 l2 ↔
      (l1 = l2 → Unstopped s1 s2 (l1.length + 2) → n.toNat ≤ l1.length + 1) ∧
        (l1.take n.toNat ≠ l2.take n.toNat →
          ∀ d, FirstDifference (strAt mem s1) (strAt mem s2) d → Unstopped s1 s2 (d + 1))) ∧
      (Libkern.StrncpyRespects mem' dst src len ↔
        ∃ t, (strAt mem' src).EndsAt t ∧ t < len.toNat ∧ strAt mem' dst t = 0#8 ∧
          (dst = src ∨ t < (dst - src).toNat)) :=
  ⟨strncmpRespects_iff h1 h2, Libkern.strncpyRespects_iff⟩

/-- Two strings `"A"` at `0x1000` and `0x2000` with different bytes behind them, the literal
`"0"` at `0x3000`, and at `0x4000` the buffer of `hex2str` after it printed `0xFF`. -/
def overrunMem : Store 64 := fun a =>
  if a = 0x1000#64 ∨ a = 0x2000#64 then ascii 'A'
  else if a = 0x1002#64 then ascii 'B'
  else if a = 0x2002#64 then ascii 'C'
  else if a = 0x3000#64 ∨ a = 0x4000#64 then ascii '0'
  else if a = 0x4001#64 then ascii 'x'
  else if a = 0x4002#64 ∨ a = 0x4003#64 then ascii 'F'
  else 0#8

theorem stringPrimitives_iff_overrun :
    (StrncmpRespects overrunMem 0x1000#64 0x2000#64 3#32 (bytes "A") (bytes "A") ↔
      (bytes "A" = bytes "A" → Unstopped 0x1000#64 0x2000#64 ((bytes "A").length + 2) →
        (3#32).toNat ≤ (bytes "A").length + 1) ∧
        ((bytes "A").take (3#32).toNat ≠ (bytes "A").take (3#32).toNat →
          ∀ d, FirstDifference (strAt overrunMem 0x1000#64) (strAt overrunMem 0x2000#64) d →
            Unstopped 0x1000#64 0x2000#64 (d + 1))) ∧
      (Libkern.StrncpyRespects overrunMem 0x4000#64 0x3000#64 2#64 ↔
        ∃ t, (strAt overrunMem 0x3000#64).EndsAt t ∧ t < (2#64).toNat ∧
          strAt overrunMem 0x4000#64 t = 0#8 ∧
          (0x4000#64 = 0x3000#64 ∨ t < (0x4000#64 - 0x3000#64).toNat)) :=
  stringPrimitives_iff (by decide +kernel) (by decide +kernel)

/-- The strings `"A"` compare unequal over three characters, and `"0"` is copied without its
terminator. -/
theorem stringPrimitives_overrun :
    (¬ ∀ (mem : Store 64) (s1 s2 : U64) (n : U32) (l1 l2 : List U8),
      (strAt mem s1).Holds l1 → (strAt mem s2).Holds l2 → StrncmpRespects mem s1 s2 n l1 l2) ∧
      ¬ ∀ (mem : Store 64) (dst src len : U64), Libkern.StrncpyRespects mem dst src len := by
  constructor
  · intro h
    have hcmp := h overrunMem 0x1000#64 0x2000#64 3#32 (bytes "A") (bytes "A")
      (by decide +kernel) (by decide +kernel)
    have hresult : (strncmp overrunMem 0x1000#64 0x2000#64 3#32).result = 0#8 := by
      decide +kernel
    exact absurd (hresult.symm.trans (hcmp.result_iff.mpr rfl)) (by decide)
  · intro h
    have hcpy := h overrunMem 0x4000#64 0x3000#64 2#64
    have hends : (strAt overrunMem 0x3000#64).EndsAt 1 :=
      ⟨by decide +kernel, by decide +kernel⟩
    have hlast : strAt (Libkern.strncpy overrunMem 0x4000#64 0x3000#64 2#64).2.mem 0x4000#64 1 =
        ascii 'x' := by
      decide +kernel
    exact absurd (hlast.symm.trans (hcpy.terminates 1 hends (by decide))) (by decide)

end FacelessOS
