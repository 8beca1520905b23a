import FacelessOS.Basic
import FacelessOS.Lib.Buffer
import FacelessOS.Lib.ByteStore
import Mathlib.Data.List.GetD

/-!
# Strings (`string.c`)

A `char*` is modelled by the bytes from it on. `dec2str` and `hex2str` write their digits
backwards into a static buffer, terminate it and reverse it in place; what the buffer held
before is a parameter. `int` is a 32-bit word read in two's complement, so negating the
most negative one gives it back.
-/

namespace FacelessOS

open Buffer ByteStore

/-- The bytes from a `char*` on. -/
abbrev Str : Type := ℕ → U8

def strAt (mem : Store 64) (p : U64) : Str := fun k => mem (p + BitVec.ofNat 64 k)

def ascii (c : Char) : U8 := BitVec.ofNat 8 c.toNat

/-- The bytes of a string literal, without its terminator. -/
def bytes (s : String) : List U8 := s.toList.map ascii

/-- A string literal in memory, zeros behind it. -/
def literal (s : String) : Str := fun k => (bytes s).getD k 0#8

/-- The pointer is to this string. -/
def Str.Holds (s : Str) (l : List U8) : Prop := HoldsAt 0#8 s 0 l

instance (s : Str) (l : List U8) : Decidable (s.Holds l) :=
  inferInstanceAs (Decidable (HoldsAt 0#8 s 0 l))

/-- `while (str[n++]);`, with this many bytes looked at. -/
def strlenLoop (str : Str) : ℕ → ℕ → Option ℕ
  | 0, _ => none
  | fuel + 1, n => if str n = 0#8 then some n else strlenLoop str fuel (n + 1)

/-- `strlen`; `none` when no terminator comes up. -/
def strlen (fuel : ℕ) (str : Str) : Option ℕ := strlenLoop str fuel 0

/-! ## `strncpy` -/

/-- A copy under way: what the destination is part of, and the indices that were read and
written. -/
structure CopyRun (σ : Type) where
  mem : σ
  reads : List ℕ
  writes : List ℕ

/-- The loop of `strncpy` with this many bytes left of `len`. `src[i]` is read before `i < len`
is looked at, and once more for the assignment to `dst[i]`. -/
def strncpyLoop {σ : Type} (src : σ → Str) (assign : σ → ℕ → U8 → σ) :
    ℕ → ℕ → CopyRun σ → CopyRun σ
  | 0, i, c => { c with reads := i :: c.reads }
  | left + 1, i, c =>
      if src c.mem i = 0#8 then { c with reads := i :: c.reads }
      else strncpyLoop src assign left (i + 1)
        { mem := assign c.mem i (src c.mem i)
          reads := i :: i :: c.reads
          writes := i :: c.writes }

theorem strncpyLoop_invariant {σ : Type} {src : σ → Str} {assign : σ → ℕ → U8 → σ}
    {P : σ → Prop} (hassign : ∀ m i v, P m → P (assign m i v)) {left i : ℕ} {c : CopyRun σ}
    (h : P c.mem) : P (strncpyLoop src assign left i c).mem := by
  induction left generalizing i c with
  | zero => exact h
  | succ left ih =>
      rw [strncpyLoop]
      split
      · exact h
      · exact ih (hassign _ _ _ h)

/-- `strncpy`, between strings that do not overlap. -/
def Str.strncpy (dst src : Str) (len : ℕ) : CopyRun Str :=
  strncpyLoop (fun _ => src) Function.update len 0 ⟨dst, [], []⟩

/-! ## Numbers -/

/-- `for (j = 0; j < i; j++, i--)` swap `s[j]` and `s[i]`, the indices being bytes. -/
def swapLoop : ℕ → U8 → U8 → Str → Str
  | 0, _, _, s => s
  | fuel + 1, j, i, s =>
      if j < i then swapLoop fuel (j + 1#8) (i - 1#8) (swap s j.toNat i.toNat) else s

/-- `while (number > 0)`: the next decimal digit goes to `dec_string[i]`. -/
def decLoop : ℕ → U32 → U8 → Str → U8 × Str
  | 0, _, i, s => (i, s)
  | fuel + 1, number, i, s =>
      if (0#32).slt number then
        decLoop fuel (number.sdiv 10#32) (i + 1#8)
          (Function.update s i.toNat ((number.srem 10#32).setWidth 8 + ascii '0'))
      else (i, s)

/-- `dec2str`: the static buffer it returns, from what the buffer held. -/
def dec2str (decString : Str) (number : U32) : Str :=
  let negative := number.slt 0#32
  let (i, s) :=
    if number = 0#32 then (1#8, Function.update decString 0 (ascii '0')) else (0#8, decString)
  let number := if negative then -number else number
  let (i, s) := decLoop 10 number i s
  let (i, s) :=
    if negative then (i + 1#8, Function.update s i.toNat (ascii '-')) else (i, s)
  let s := Function.update s i.toNat 0#8
  swapLoop 80 0#8 (i - 1#8) s

def asciiNumbers (nibble : ℕ) : U8 := (bytes "0123456789ABCDEF").getD nibble 0#8

/-- `while (hex_num > 0)`: the next nibble goes to `hex_string[i]`. -/
def hexLoop : ℕ → U32 → U8 → Str → U8 × Str
  | 0, _, i, s => (i, s)
  | fuel + 1, hexNum, i, s =>
      if hexNum > 0#32 then
        let nibble := hexNum.setWidth 8 &&& 0x0F#8
        hexLoop fuel (hexNum >>> 4) (i + 1#8)
          (Function.update s i.toNat (asciiNumbers nibble.toNat))
      else (i, s)

def hex2str (hexString : Str) (hexNum : U32) : Str :=
  let (i, s) :=
    if hexNum = 0#32 then (1#8, (Str.strncpy hexString (literal "0\x00") 2).mem)
    else (0#8, hexString)
  let pad := hexNum < 0x10#32
  let (i, s) := hexLoop 8 hexNum i s
  let (i, s) := if pad then (i + 1#8, Function.update s i.toNat (ascii '0')) else (i, s)
  let (i, s) := (i + 1#8, Function.update s i.toNat (ascii 'x'))
  let (i, s) := (i + 1#8, Function.update s i.toNat (ascii '0'))
  let s := Function.update s i.toNat 0#8
  swapLoop 80 0#8 (i - 1#8) s

theorem literal_holds {s : String} (h : 0#8 ∉ bytes s) : (literal s).Holds (bytes s) := by
  rw [Str.Holds, holdsAt_iff]
  refine ⟨fun k hk => ?_, ?_, h⟩
  · rw [Nat.zero_add, literal, List.getD_eq_getElem _ _ hk]
  · rw [Nat.zero_add, literal, List.getD_eq_default _ _ (Nat.le_refl _)]

theorem strlen_eq {str : Str} {l : List U8} {fuel : ℕ} (h : str.Holds l) (hfuel : l.length < fuel) :
    strlen fuel str = some l.length := by
  have hloop : ∀ (l : List U8) (p fuel : ℕ), HoldsAt 0#8 str p l → l.length < fuel →
      strlenLoop str fuel p = some (p + l.length) := by
    intro l
    induction l with
    | nil =>
        intro p fuel h hfuel
        obtain ⟨fuel, rfl⟩ := Nat.exists_eq_succ_of_ne_zero (Nat.ne_of_gt hfuel)
        have hz : str p = 0#8 := h
        rw [strlenLoop, if_pos hz]
        rfl
    | cons a l ih =>
        intro p fuel h hfuel
        obtain ⟨fuel, rfl⟩ := Nat.exists_eq_succ_of_ne_zero (Nat.ne_of_gt (Nat.zero_lt_of_lt hfuel))
        have hne : str p ≠ 0#8 := h.1 ▸ h.2.1
        rw [strlenLoop, if_neg hne, ih _ _ h.2.2 (Nat.lt_of_succ_lt_succ hfuel), List.length_cons,
          Nat.add_assoc, Nat.add_comm 1]
  have := hloop l 0 fuel h hfuel
  rwa [Nat.zero_add] at this

/-! ## The swap loop -/

/-- Byte indices that close in on each other do not wrap. -/
theorem swapLoop_eq {s : Str} {i j : U8} {fuel : ℕ} : swapLoop fuel j i s = reverse fuel j.toNat i.toNat s := by
  induction fuel generalizing j i s with
  | zero => rfl
  | succ fuel ih =>
      rw [swapLoop, reverse]
      by_cases hji : j < i
      · have hlt : j.toNat < i.toNat := BitVec.lt_def.mp hji
        have hj : (j + 1#8).toNat = j.toNat + 1 := by bv_omega
        have hi : (i - 1#8).toNat = i.toNat - 1 := by bv_omega
        rw [if_pos hji, if_pos hlt, ih, hj, hi]
      · rw [if_neg hji, if_neg fun h => hji (BitVec.lt_def.mpr h)]

/-! ## Writing backwards -/

/-- Index and buffer after the bytes of `l` were written from the start. -/
def written (buf : Str) (l : List U8) : U8 × Str :=
  (BitVec.ofNat 8 l.length, writeFrom buf 0 l)

variable {buf : Str} {l : List U8}

theorem written_fst (hl : l.length < 256) : (written buf l).1.toNat = l.length := by
  rw [written, BitVec.toNat_ofNat, Nat.mod_eq_of_lt hl]

theorem written_push {a : U8} (hl : l.length < 256) :
    ((written buf l).1 + 1#8, Function.update (written buf l).2 (written buf l).1.toNat a) =
      written buf (l ++ [a]) := by
  rw [written_fst hl, written, written, writeFrom_concat, Nat.zero_add, List.length_append,
    List.length_singleton, BitVec.ofNat_add]

theorem written_holds {w : List U8} (hw : 0#8 ∉ w) (hpos : 0 < w.length) (hlen : w.length ≤ 80) :
    Str.Holds (swapLoop 80 0#8 ((written buf w).1 - 1#8)
      (Function.update (written buf w).2 (written buf w).1.toNat 0#8)) w.reverse := by
  have hi : (BitVec.ofNat 8 w.length - 1#8).toNat = w.length - 1 := by bv_omega
  have hz : Function.update (written buf w).2 (written buf w).1.toNat 0#8 =
      writeFrom buf 0 (w ++ [0#8]) := congrArg Prod.snd (written_push (by omega))
  rw [hz, swapLoop_eq, written, hi]
  exact holdsAt_reverse hw (by omega)

end FacelessOS
