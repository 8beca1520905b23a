import Mathlib.Data.Nat.Basic
import Mathlib.Tactic.Ring

/-!
# Byte-addressed memory

A store maps addresses of `w` bits to bytes. Numbers of `n` bytes are read and
written little-endian at any address, aligned or not, and address arithmetic
wraps at `2 ^ w` as pointer arithmetic does. The rules a client needs are the
usual two: a read sees the last write to the same bytes, and a write leaves
every byte outside its range alone.
-/

namespace ByteStore

/-- Bytes under addresses of `w` bits. -/
abbrev Store (w : ℕ) : Type := BitVec w → BitVec 8

variable {w : ℕ}

/-- `x` is one of the `n` bytes from `a` on, wrapping at the end of memory. -/
def Within (a : BitVec w) (n : ℕ) (x : BitVec w) : Prop := (x - a).toNat < n

instance (a : BitVec w) (n : ℕ) (x : BitVec w) : Decidable (Within a n x) :=
  inferInstanceAs (Decidable (_ < _))

/-- The `n` bytes from `a` and the `k` bytes from `b` have none in common. -/
def Apart (a : BitVec w) (n : ℕ) (b : BitVec w) (k : ℕ) : Prop :=
  ∀ x, Within a n x → ¬ Within b k x

def fill (m : Store w) (a : BitVec w) (n : ℕ) (b : BitVec 8) : Store w :=
  fun x => if Within a n x then b else m x

/-- Write the low `n` bytes of `v` at `a`, least significant first. -/
def write (m : Store w) (a : BitVec w) (n v : ℕ) : Store w :=
  fun x => if Within a n x then BitVec.ofNat 8 (v / 256 ^ (x - a).toNat) else m x

/-- Read the `n` bytes at `a` as a number, least significant first. -/
def read (m : Store w) (a : BitVec w) : ℕ → ℕ
  | 0 => 0
  | n + 1 => (m a).toNat + 256 * read m (a + 1) n

/-! ## Ranges -/

theorem within_self {a : BitVec w} {n : ℕ} (hn : 0 < n) : Within a n a := by
  simpa [Within] using hn

theorem within_add {a : BitVec w} {n i : ℕ} (hi : i < n) :
    Within a n (a + BitVec.ofNat w i) := by
  have h : a + BitVec.ofNat w i - a = BitVec.ofNat w i := by
    rw [BitVec.add_comm, BitVec.add_sub_cancel]
  rw [Within, h, BitVec.toNat_ofNat]
  exact Nat.lt_of_le_of_lt (Nat.mod_le _ _) hi

theorem within_iff {a x : BitVec w} {n : ℕ} (h : a.toNat + n ≤ 2 ^ w) :
    Within a n x ↔ a.toNat ≤ x.toNat ∧ x.toNat < a.toNat + n := by
  have hx := x.isLt
  have ha := a.isLt
  rw [Within, BitVec.toNat_sub]
  by_cases hle : a.toNat ≤ x.toNat
  · have : 2 ^ w - a.toNat + x.toNat = (x.toNat - a.toNat) + 2 ^ w := by omega
    rw [this, Nat.add_mod_right, Nat.mod_eq_of_lt (by omega)]
    omega
  · rw [Nat.mod_eq_of_lt (by omega)]
    omega

/-- The bytes of a field at offset `i`, counted from the start of the record. -/
theorem within_offset_iff {a x : BitVec w} {i n : ℕ} (h : i + n ≤ 2 ^ w) :
    Within (a + BitVec.ofNat w i) n x ↔ i ≤ (x - a).toNat ∧ (x - a).toNat < i + n := by
  rcases Nat.eq_zero_or_pos n with rfl | hn
  · constructor
    · intro h0
      exact absurd h0 (Nat.not_lt_zero _)
    · rintro ⟨h1, h2⟩
      omega
  · have hi : (BitVec.ofNat w i).toNat = i := by
      rw [BitVec.toNat_ofNat, Nat.mod_eq_of_lt (by omega)]
    have hsub : x - (a + BitVec.ofNat w i) = x - a - BitVec.ofNat w i :=
      (BitVec.sub_sub _ _ _).symm
    have := within_iff (a := BitVec.ofNat w i) (x := x - a) (n := n) (by rw [hi]; exact h)
    rw [hi] at this
    rw [← this, Within, Within, hsub]

theorem Apart.symm {a b : BitVec w} {n k : ℕ} (h : Apart a n b k) :
    Apart b k a n :=
  fun x hb ha => h x ha hb

theorem Apart.mono {a b a' b' : BitVec w} {n k n' k' : ℕ} (h : Apart a n b k)
    (ha : ∀ x, Within a' n' x → Within a n x)
    (hb : ∀ x, Within b' k' x → Within b k x) : Apart a' n' b' k' :=
  fun x hx hy => h x (ha x hx) (hb x hy)

theorem apart_of_le {a b : BitVec w} {n k : ℕ} (hab : a.toNat + n ≤ b.toNat)
    (hb : b.toNat + k ≤ 2 ^ w) : Apart a n b k := by
  intro x hx hy
  rw [within_iff (by omega)] at hx hy
  omega

theorem apart_offset {a : BitVec w} {i n j k : ℕ} (hij : i + n ≤ j ∨ j + k ≤ i)
    (hi : i + n ≤ 2 ^ w) (hj : j + k ≤ 2 ^ w) :
    Apart (a + BitVec.ofNat w i) n (a + BitVec.ofNat w j) k := by
  intro x hx hy
  rw [within_offset_iff hi] at hx
  rw [within_offset_iff hj] at hy
  omega

/-! ## Reads -/

theorem read_congr {m m' : Store w} {a : BitVec w} {n : ℕ}
    (h : ∀ x, Within a n x → m x = m' x) : read m a n = read m' a n := by
  have key : ∀ k i, i + k ≤ n →
      read m (a + BitVec.ofNat w i) k = read m' (a + BitVec.ofNat w i) k := by
    intro k
    induction k with
    | zero => intro i _; rfl
    | succ k ih =>
        intro i hi
        have hbyte := h _ (within_add (a := a) (show i < n by omega))
        have hnext : a + BitVec.ofNat w i + 1 = a + BitVec.ofNat w (i + 1) := by
          rw [BitVec.add_assoc, BitVec.ofNat_add]; rfl
        rw [read, read, hbyte, hnext, ih (i + 1) (by omega)]
  simpa using key n 0 (by omega)

theorem read_lt (m : Store w) (a : BitVec w) (n : ℕ) : read m a n < 256 ^ n := by
  induction n generalizing a with
  | zero => exact Nat.one_pos
  | succ n ih =>
      have hbyte := (m a).isLt
      have hrest := ih (a + 1)
      rw [read, pow_succ]
      omega

theorem read_succ (m : Store w) (a : BitVec w) (n : ℕ) :
    read m a (n + 1) = read m a n + 256 ^ n * (m (a + BitVec.ofNat w n)).toNat := by
  induction n generalizing a with
  | zero => simp [read]
  | succ n ih =>
      have hnext : a + 1 + BitVec.ofNat w n = a + BitVec.ofNat w (n + 1) := by
        rw [BitVec.add_assoc, Nat.add_comm n 1, BitVec.ofNat_add]
        rfl
      rw [read, ih (a + 1), hnext, read, pow_succ]
      ring

theorem read_write_same (m : Store w) (a : BitVec w) {n : ℕ} (v : ℕ)
    (hn : n ≤ 2 ^ w) : read (write m a n v) a n = v % 256 ^ n := by
  have key : ∀ k i, i + k = n →
      read (write m a n v) (a + BitVec.ofNat w i) k = v / 256 ^ i % 256 ^ k := by
    intro k
    induction k with
    | zero => intro i _; rw [read, pow_zero, Nat.mod_one]
    | succ k ih =>
        intro i hi
        have hoff : a + BitVec.ofNat w i - a = BitVec.ofNat w i := by
          rw [BitVec.add_comm, BitVec.add_sub_cancel]
        have hbyte : (write m a n v) (a + BitVec.ofNat w i) =
            BitVec.ofNat 8 (v / 256 ^ i) := by
          rw [write, if_pos (within_add (by omega)), hoff, BitVec.toNat_ofNat,
            Nat.mod_eq_of_lt (by omega)]
        have hnext : a + BitVec.ofNat w i + 1 = a + BitVec.ofNat w (i + 1) := by
          rw [BitVec.add_assoc, BitVec.ofNat_add]; rfl
        have hdiv : v / 256 ^ (i + 1) = v / 256 ^ i / 256 := by
          rw [pow_succ, Nat.div_div_eq_div_mul]
        rw [read, hbyte, hnext, ih (i + 1) (by omega), BitVec.toNat_ofNat, hdiv,
          pow_succ' 256 k, Nat.mod_mul]
  simpa using key n 0 (by omega)

/-! ## Writes -/

theorem write_of_not_within {m : Store w} {a x : BitVec w} {n v : ℕ}
    (h : ¬ Within a n x) : write m a n v x = m x := by
  rw [write, if_neg h]

theorem fill_of_not_within {m : Store w} {a x : BitVec w} {n : ℕ} {b : BitVec 8}
    (h : ¬ Within a n x) : fill m a n b x = m x := by
  rw [fill, if_neg h]

theorem fill_of_within {m : Store w} {a x : BitVec w} {n : ℕ} {b : BitVec 8}
    (h : Within a n x) : fill m a n b x = b := by
  rw [fill, if_pos h]

theorem read_write_apart {m : Store w} {a b : BitVec w} {n k v : ℕ}
    (h : Apart a n b k) : read (write m a n v) b k = read m b k :=
  read_congr fun x hx => write_of_not_within fun hw => h x hw hx

theorem read_fill_apart {m : Store w} {a b : BitVec w} {n k : ℕ} {c : BitVec 8}
    (h : Apart a n b k) : read (fill m a n c) b k = read m b k :=
  read_congr fun x hx => fill_of_not_within fun hw => h x hw hx

theorem read_zero (a : BitVec w) (n : ℕ) : read (fun _ => 0 : Store w) a n = 0 := by
  induction n generalizing a with
  | zero => rfl
  | succ n ih => rw [read, ih]; simp

theorem read_fill_zero {m : Store w} {a b : BitVec w} {n k : ℕ}
    (h : ∀ x, Within b k x → Within a n x) : read (fill m a n 0) b k = 0 := by
  have hzero : ∀ x, Within b k x → fill m a n 0 x = 0 := fun x hx =>
    fill_of_within (h x hx)
  rw [read_congr hzero]
  exact read_zero b k

/-! ## Machine words -/

def load64 (m : Store w) (a : BitVec w) : BitVec 64 := BitVec.ofNat 64 (read m a 8)

def store64 (m : Store w) (a : BitVec w) (v : BitVec 64) : Store w :=
  write m a 8 v.toNat

def load32 (m : Store w) (a : BitVec w) : BitVec 32 := BitVec.ofNat 32 (read m a 4)

def store32 (m : Store w) (a : BitVec w) (v : BitVec 32) : Store w :=
  write m a 4 v.toNat

def store8 (m : Store w) (a : BitVec w) (v : BitVec 8) : Store w :=
  write m a 1 v.toNat

theorem load64_store64 (m : Store w) (a : BitVec w) (v : BitVec 64)
    (hw : 8 ≤ 2 ^ w) : load64 (store64 m a v) a = v := by
  have hv : v.toNat % 256 ^ 8 = v.toNat := Nat.mod_eq_of_lt v.isLt
  rw [load64, store64, read_write_same m a _ hw, hv, BitVec.ofNat_toNat,
    BitVec.setWidth_eq]

theorem load32_store32 (m : Store w) (a : BitVec w) (v : BitVec 32)
    (hw : 4 ≤ 2 ^ w) : load32 (store32 m a v) a = v := by
  have hv : v.toNat % 256 ^ 4 = v.toNat := Nat.mod_eq_of_lt v.isLt
  rw [load32, store32, read_write_same m a _ hw, hv, BitVec.ofNat_toNat,
    BitVec.setWidth_eq]

theorem load32_write_apart {m : Store w} {a b : BitVec w} {n v : ℕ}
    (h : Apart a n b 4) : load32 (write m a n v) b = load32 m b := by
  rw [load32, load32, read_write_apart h]

theorem load64_write_apart {m : Store w} {a b : BitVec w} {n v : ℕ}
    (h : Apart a n b 8) : load64 (write m a n v) b = load64 m b := by
  rw [load64, load64, read_write_apart h]

theorem load64_congr {m m' : Store w} {a : BitVec w}
    (h : ∀ x, Within a 8 x → m x = m' x) : load64 m a = load64 m' a := by
  rw [load64, load64, read_congr h]

theorem load32_congr {m m' : Store w} {a : BitVec w}
    (h : ∀ x, Within a 4 x → m x = m' x) : load32 m a = load32 m' a := by
  rw [load32, load32, read_congr h]

theorem load64_store64_apart {m : Store w} {a b : BitVec w} {v : BitVec 64}
    (h : Apart a 8 b 8) : load64 (store64 m a v) b = load64 m b :=
  load64_write_apart h

theorem load64_fill_apart {m : Store w} {a b : BitVec w} {n : ℕ} {c : BitVec 8}
    (h : Apart a n b 8) : load64 (fill m a n c) b = load64 m b := by
  rw [load64, load64, read_fill_apart h]

theorem load64_zero (a : BitVec w) : load64 (fun _ => 0 : Store w) a = 0#64 := by
  rw [load64, read_zero]

theorem load64_fill_zero {m : Store w} {a b : BitVec w} {n : ℕ}
    (h : ∀ x, Within b 8 x → Within a n x) : load64 (fill m a n 0) b = 0#64 := by
  rw [load64, read_fill_zero h]

theorem store8_same (m : Store w) (a : BitVec w) (v : BitVec 8) :
    store8 m a v a = v := by
  rw [store8, write, if_pos (within_self Nat.one_pos), BitVec.sub_self]
  simp

end ByteStore
