import FacelessOS.Libkern.Strings

/-!
# `log` (`log.c`)

The loop goes on while `*ptr` is not the terminator and `pos` is below the length of the
format. An ordinary character moves `ptr` by one; a conversion takes the `%`, its letter
and the character behind the letter, which is printed unseen, so it moves `ptr` by three.
`pos` moves by one in either case and never catches up with `ptr`.

That is why the loop stays inside the format exactly when no `%` is among its last two
characters as the loop comes to them (`log_within_iff`).
-/

namespace FacelessOS

open Buffer ByteStore

/-- The variadic arguments, one register-wide slot each, and the memory that `char*`
arguments point to. The static buffers lie outside it. -/
structure VaList where
  mem : Store 64
  slot : ℕ → U64

/-- `log` under way: `ptr` and the slots taken off `arg_ptr`, the static buffers of `dec2str`
and `hex2str`, the strings passed to `kwrite`, and the indices read through `ptr`. -/
structure LogState where
  ptr : ℕ
  nargs : ℕ
  decString : Str
  hexString : Str
  out : List Str
  reads : List ℕ

def LogState.read (st : LogState) : LogState := { st with reads := st.reads ++ [st.ptr] }

def LogState.next (st : LogState) : LogState := { st with ptr := st.ptr + 1 }

def LogState.kwrite (st : LogState) (str : Str) : LogState := { st with out := st.out ++ [str] }

def LogState.argTaken (st : LogState) : LogState := { st with nargs := st.nargs + 1 }

/-- `char terminated[2] = {c, 0}`. -/
def terminated (c : U8) : Str := fun k => if k = 0 then c else 0#8

/-- The `switch` on the letter of a conversion; other letters print nothing. -/
def logSwitch (va : VaList) (letter : U8) (st : LogState) : LogState :=
  let arg := va.slot st.nargs
  if letter = ascii 's' then st.argTaken.kwrite (strAt va.mem arg)
  else if letter = ascii 'd' then
    let str := dec2str st.decString (arg.setWidth 32)
    { st.argTaken.kwrite str with decString := str }
  else if letter = ascii 'x' then
    let str := hex2str st.hexString (arg.setWidth 32)
    { st.argTaken.kwrite str with hexString := str }
  else if letter = ascii 'c' then
    st.argTaken.kwrite (terminated ((arg.setWidth 32).setWidth 8))
  else st

/-- The body of the loop, and the `++ptr` behind it. -/
def logBody (fmt : Str) (va : VaList) (st : LogState) : LogState :=
  let st := st.read
  let st :=
    if fmt st.ptr = ascii '%' then
      let st := st.next.read
      logSwitch va (fmt st.ptr) st.next
    else st
  let st := st.read
  (st.kwrite (terminated (fmt st.ptr))).next

/-- The loop, with `strlen(fmt) - pos` rounds left. -/
def logLoop (fmt : Str) (va : VaList) : ℕ → LogState → LogState
  | 0, st => st.read
  | left + 1, st =>
      let st := st.read
      if fmt st.ptr = 0#8 then st else logLoop fmt va left (logBody fmt va st)

def logStart (decString hexString : Str) : LogState := ⟨0, 0, decString, hexString, [], []⟩

/-- `log`; `none` when `strlen` finds no terminator. The format is not one of the static
buffers, so its length stays what it was. -/
def log (fuel : ℕ) (fmt : Str) (va : VaList) (decString hexString : Str) : Option LogState :=
  (strlen fuel fmt).map fun len => logLoop fmt va len (logStart decString hexString)

/-! ## One round -/

variable {fmt : Str} {va : VaList} {st : LogState} {left : ℕ}

theorem logSwitch_frame {letter : U8} {p : ℕ} {r : List ℕ} :
    logSwitch va letter { st with ptr := p, reads := r } =
      { logSwitch va letter st with ptr := p, reads := r } := by
  rw [logSwitch, logSwitch]
  repeat' split
  all_goals rfl

def LogState.plain (st : LogState) (c : U8) : LogState :=
  { st with
    ptr := st.ptr + 1
    out := st.out ++ [terminated c]
    reads := st.reads ++ [st.ptr, st.ptr, st.ptr] }

def LogState.conv (st : LogState) (va : VaList) (letter c : U8) : LogState :=
  let new := logSwitch va letter st
  { new with
    ptr := st.ptr + 3
    out := new.out ++ [terminated c]
    reads := st.reads ++ [st.ptr, st.ptr, st.ptr + 1, st.ptr + 2] }

theorem logLoop_plain (h0 : fmt st.ptr ≠ 0#8) (h : fmt st.ptr ≠ ascii '%') :
    logLoop fmt va (left + 1) st = logLoop fmt va left (st.plain (fmt st.ptr)) := by
  have hbody : logBody fmt va st.read = st.plain (fmt st.ptr) := by
    simp [logBody, LogState.read, LogState.kwrite, LogState.next, LogState.plain, h]
  rw [logLoop, if_neg (show fmt st.read.ptr ≠ 0#8 from h0), hbody]

theorem logLoop_conv (h : fmt st.ptr = ascii '%') :
    logLoop fmt va (left + 1) st =
      logLoop fmt va left (st.conv va (fmt (st.ptr + 1)) (fmt (st.ptr + 2))) := by
  have h0 : fmt st.read.ptr ≠ 0#8 := by
    rw [LogState.read, h]
    decide
  have hbody : logBody fmt va st.read =
      st.conv va (fmt (st.ptr + 1)) (fmt (st.ptr + 2)) := by
    simp only [logBody, LogState.read, LogState.next, LogState.kwrite, LogState.conv, h, if_true,
      logSwitch_frame, List.append_assoc]
    rfl
  rw [logLoop, if_neg h0, hbody]

theorem logLoop_end (h : left = 0 ∨ fmt st.ptr = 0#8) : logLoop fmt va left st = st.read := by
  cases left with
  | zero => rfl
  | succ left =>
      have h0 : fmt st.read.ptr = 0#8 := h.resolve_left (Nat.succ_ne_zero left)
      rw [logLoop, if_pos h0]

theorem mem_reads_logLoop {i : ℕ} (h : i ∈ st.reads ∨ i = st.ptr) :
    i ∈ (logLoop fmt va left st).reads := by
  induction left generalizing st with
  | zero =>
      rw [logLoop_end (Or.inl rfl), LogState.read, List.mem_append, List.mem_singleton]
      exact h
  | succ left ih =>
      have hmem (r : List ℕ) : i ∈ st.reads ++ st.ptr :: r := by
        rw [List.mem_append, List.mem_cons]
        exact h.imp_right Or.inl
      by_cases h0 : fmt st.ptr = 0#8
      · rw [logLoop_end (Or.inr h0)]
        exact hmem []
      · by_cases hp : fmt st.ptr = ascii '%'
        · rw [logLoop_conv hp]
          exact ih (Or.inl (hmem _))
        · rw [logLoop_plain h0 hp]
          exact ih (Or.inl (hmem _))

/-! ## Where the pointer goes -/

/-- From its start on, and two characters further behind every `%`, the format does not end
inside or right behind a conversion. -/
def WellEnded : List U8 → Prop
  | [] => True
  | [c] => c ≠ ascii '%'
  | [c, d] => c ≠ ascii '%' ∧ d ≠ ascii '%'
  | c :: d :: e :: rest =>
      if c = ascii '%' then WellEnded rest else WellEnded (d :: e :: rest)

instance decidableWellEnded : (l : List U8) → Decidable (WellEnded l)
  | [] => inferInstanceAs (Decidable True)
  | [c] => inferInstanceAs (Decidable (c ≠ ascii '%'))
  | [c, d] => inferInstanceAs (Decidable (c ≠ ascii '%' ∧ d ≠ ascii '%'))
  | c :: d :: e :: rest =>
      if h : c = ascii '%' then
        @decidable_of_iff _ (WellEnded rest) (by rw [WellEnded, if_pos h])
          (decidableWellEnded rest)
      else
        @decidable_of_iff _ (WellEnded (d :: e :: rest)) (by rw [WellEnded, if_neg h])
          (decidableWellEnded (d :: e :: rest))

theorem wellEnded_plain {c : U8} {rest : List U8} (h : c ≠ ascii '%') :
    WellEnded (c :: rest) ↔ WellEnded rest := by
  match rest with
  | [] => simp [WellEnded, h]
  | [d] => simp [WellEnded, h]
  | d :: e :: rest => rw [WellEnded, if_neg h]

theorem wellEnded_conv {a b : U8} {rest : List U8} :
    WellEnded (ascii '%' :: a :: b :: rest) ↔ WellEnded rest := by
  rw [WellEnded, if_pos rfl]

theorem not_wellEnded_short {rest : List U8} (h : rest.length < 2) :
    ¬ WellEnded (ascii '%' :: rest) := by
  match rest with
  | [] => simp [WellEnded]
  | [d] => simp [WellEnded]
  | _ :: _ :: rest =>
      rw [List.length_cons, List.length_cons] at h
      omega

theorem format_induction {motive : List U8 → Prop} (nil : motive [])
    (plain : ∀ c rest, c ≠ ascii '%' → motive rest → motive (c :: rest))
    (short : ∀ rest, rest.length < 2 → motive (ascii '%' :: rest))
    (conv : ∀ a b rest, motive rest → motive (ascii '%' :: a :: b :: rest)) (l : List U8) :
    motive l := by
  induction hn : l.length using Nat.strong_induction_on generalizing l with
  | _ n ih =>
      subst hn
      match l with
      | [] => exact nil
      | c :: rest =>
          by_cases hc : c = ascii '%'
          · subst hc
            match rest with
            | [] => exact short [] (by decide)
            | [a] => exact short [a] (Nat.lt_succ_self 1)
            | a :: b :: rest =>
                exact conv a b rest (ih _ (by simp only [List.length_cons]; omega) rest rfl)
          · exact plain c rest hc (ih _ (Nat.lt_succ_self _) rest rfl)

theorem logLoop_within_iff {rest : List U8} {n : ℕ} (h : HoldsAt 0#8 fmt st.ptr rest)
    (hleft : rest.length ≤ left) (hn : st.ptr + rest.length = n) (hreads : ∀ i ∈ st.reads, i ≤ n) :
    ((∀ i ∈ (logLoop fmt va left st).reads, i ≤ n) ∧ (logLoop fmt va left st).ptr ≤ n) ↔
      WellEnded rest := by
  induction rest using format_induction generalizing st left with
  | nil =>
      -- the terminator, read once more
      rw [logLoop_end (Or.inr h)]
      rw [List.length_nil, Nat.add_zero] at hn
      refine iff_of_true ⟨fun i hi => ?_, Nat.le_of_eq hn⟩ trivial
      rcases List.mem_append.mp hi with hi | hi
      · exact hreads i hi
      · exact Nat.le_of_eq ((List.mem_singleton.mp hi).trans hn)
  | plain c rest hc ih =>
      obtain ⟨hfmt, h0, htail⟩ := h
      rw [List.length_cons] at hleft hn
      obtain ⟨left, rfl⟩ := Nat.exists_eq_add_one_of_ne_zero (Nat.ne_zero_of_lt hleft)
      rw [logLoop_plain (hfmt ▸ h0) (hfmt ▸ hc), wellEnded_plain hc]
      refine ih htail (Nat.le_of_succ_le_succ hleft) (by simp only [LogState.plain]; omega) fun i hi => ?_
      simp only [LogState.plain, List.mem_append, List.mem_cons, List.not_mem_nil, or_false,
        or_self] at hi
      rcases hi with hi | rfl
      · exact hreads i hi
      · omega
  | short rest hrest =>
      obtain ⟨hfmt, _, _⟩ := h
      rw [List.length_cons] at hleft hn
      obtain ⟨left, rfl⟩ := Nat.exists_eq_add_one_of_ne_zero (Nat.ne_zero_of_lt hleft)
      rw [logLoop_conv hfmt]
      refine iff_of_false (fun hin => ?_) (not_wellEnded_short hrest)
      -- the next round starts behind the terminator
      have := hin.1 (st.ptr + 3) (mem_reads_logLoop (Or.inr rfl))
      omega
  | conv a b rest ih =>
      obtain ⟨hfmt, _, ha, _, hb, _, htail⟩ := h
      simp only [List.length_cons] at hleft hn
      obtain ⟨left, rfl⟩ := Nat.exists_eq_add_one_of_ne_zero (Nat.ne_zero_of_lt hleft)
      rw [logLoop_conv hfmt, wellEnded_conv]
      refine ih htail (by omega) (by simp only [LogState.conv]; omega) fun i hi => ?_
      simp only [LogState.conv, List.mem_append, List.mem_cons, List.not_mem_nil, or_false] at hi
      rcases hi with hi | hi
      · exact hreads i hi
      · omega

theorem log_eq {l : List U8} {fuel : ℕ} (h : fmt.Holds l) (hfuel : l.length < fuel)
    (va : VaList) (decString hexString : Str) : log fuel fmt va decString hexString =
      some (logLoop fmt va l.length (logStart decString hexString)) := by
  rw [log, strlen_eq h hfuel]
  rfl

theorem logLoop_start_iff {l : List U8} (h : fmt.Holds l) (va : VaList)
    (decString hexString : Str) :
    ((∀ i ∈ (logLoop fmt va l.length (logStart decString hexString)).reads, i ≤ l.length) ∧
      (logLoop fmt va l.length (logStart decString hexString)).ptr ≤ l.length) ↔ WellEnded l :=
  logLoop_within_iff h (Nat.le_refl _) (Nat.zero_add _) fun _ hi => absurd hi List.not_mem_nil

/-- `log` reads its format up to the terminator and stops there exactly when the format is
well ended, whatever the arguments and the static buffers are. -/
theorem log_within_iff {l : List U8} {fuel : ℕ} (h : fmt.Holds l) (hfuel : l.length < fuel)
    (va : VaList) (decString hexString : Str) :
    ∃ st, log fuel fmt va decString hexString = some st ∧
      (((∀ i ∈ st.reads, i ≤ l.length) ∧ st.ptr ≤ l.length) ↔ WellEnded l) :=
  ⟨_, log_eq h hfuel va decString hexString, logLoop_start_iff h va decString hexString⟩

def noArgs : VaList := ⟨fun _ => 0#8, fun _ => 0#64⟩

/-- The `%` behind the first conversion is printed, the next one converts. -/
theorem log_within_iff_middle : ∃ st,
    log 10 (literal "%s%%d.") noArgs (literal "") (literal "") = some st ∧
      (((∀ i ∈ st.reads, i ≤ (bytes "%s%%d.").length) ∧ st.ptr ≤ (bytes "%s%%d.").length) ↔
        WellEnded (bytes "%s%%d.")) :=
  log_within_iff (literal_holds (by decide)) (by decide) noArgs (literal "") (literal "")

theorem log_reads_past_format : ¬ ∀ (fmt : Str) (l : List U8) (fuel : ℕ) (va : VaList)
    (decString hexString : Str), fmt.Holds l → l.length < fuel →
      ∃ st, log fuel fmt va decString hexString = some st ∧
        (∀ i ∈ st.reads, i ≤ l.length) ∧ st.ptr ≤ l.length := by
  intro h
  have hd : (literal "%d").Holds (bytes "%d") := literal_holds (by decide)
  obtain ⟨st, hst, hin⟩ := h _ _ 3 noArgs (literal "") (literal "") hd (by decide)
  rw [log_eq hd (by decide)] at hst
  obtain rfl := Option.some_inj.mp hst
  exact absurd ((logLoop_start_iff hd noArgs (literal "") (literal "")).mp hin) (by decide)

end FacelessOS
