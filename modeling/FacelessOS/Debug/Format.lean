import FacelessOS.Debug.Log
import FacelessOS.Libkern.Dec2str
import FacelessOS.Libkern.Hex2str

/-!
# What `log` prints

A format is a sequence of ordinary characters and conversions. `Renders` says what text
belongs to it: each conversion replaced by its argument's text, in order. `log` prints
this text, whatever lies in memory behind the format, exactly when every conversion is
followed by an ordinary character (`log_prints_iff`): the character behind a conversion is
printed without a look at it, and behind a final conversion this is the terminator, after
which the loop goes on.
-/

namespace FacelessOS

open Buffer

/-! ## Formats -/

inductive Conv where
  | s | d | x | c
deriving DecidableEq, Repr

def Conv.letter : Conv → U8
  | .s => ascii 's'
  | .d => ascii 'd'
  | .x => ascii 'x'
  | .c => ascii 'c'

inductive Item where
  | char (c : U8) (ordinary : c ≠ ascii '%' ∧ c ≠ 0#8)
  | conv (k : Conv)

def Item.encode : Item → List U8
  | .char c _ => [c]
  | .conv k => [ascii '%', k.letter]

/-- The format that the items spell. -/
def encode (items : List Item) : List U8 := items.flatMap Item.encode

def conversions : List Item → ℕ
  | [] => 0
  | .char .. :: items => conversions items
  | .conv _ :: items => conversions items + 1

/-- The text of a character; `'\0'` is the end of its string. -/
def charText (c : U8) : List U8 := if c = 0#8 then [] else [c]

def Conv.Text (va : VaList) (arg : U64) (text : List U8) : Conv → Prop
  | .s => (strAt va.mem arg).Holds text
  | .d => ∀ decString, (dec2str decString (arg.setWidth 32)).Holds text
  | .x => ∀ hexString, (hex2str hexString (arg.setWidth 32)).Holds text
  | .c => text = charText (arg.setWidth 8)

/-- The format with every conversion replaced by the text of its argument, the first one
being in this slot. -/
inductive Renders (va : VaList) : ℕ → List Item → List U8 → Prop where
  | nil {i : ℕ} : Renders va i [] []
  | char {i : ℕ} {c : U8} {ordinary : c ≠ ascii '%' ∧ c ≠ 0#8} {items : List Item}
      {text : List U8} :
      Renders va i items text → Renders va i (.char c ordinary :: items) (c :: text)
  | conv {i : ℕ} {k : Conv} {items : List Item} {arg text : List U8} :
      k.Text va (va.slot i) arg → Renders va (i + 1) items text →
      Renders va i (.conv k :: items) (arg ++ text)

/-- Every conversion is followed by an ordinary character. -/
def Separated : List Item → Prop
  | [] => True
  | .char .. :: items => Separated items
  | .conv _ :: .char .. :: items => Separated items
  | .conv _ :: _ => False

/-- The strings, one after the other, are this text. -/
def Printed (out : List Str) (text : List U8) : Prop :=
  ∃ texts : List (List U8), List.Forall₂ Str.Holds out texts ∧ texts.flatten = text

/-- `log` prints the text and takes one argument for each conversion, wherever in memory the
format lies. -/
def Prints (va : VaList) (items : List Item) (text : List U8) : Prop :=
  ∀ (fmt decString hexString : Str) (fuel : ℕ), fmt.Holds (encode items) →
    (encode items).length < fuel →
      ∃ st, log fuel fmt va decString hexString = some st ∧ Printed st.out text ∧
        st.nargs = conversions items

theorem Renders.split {va : VaList} {i : ℕ} {items more : List Item} {text : List U8}
    (h : Renders va i (items ++ more) text) :
    ∃ front back, Renders va i items front ∧ Renders va (i + conversions items) more back ∧
      text = front ++ back := by
  induction items generalizing i text with
  | nil => exact ⟨[], text, .nil, h, rfl⟩
  | cons item items ih =>
      cases h with
      | char h =>
          obtain ⟨front, back, hfront, hback, rfl⟩ := ih h
          exact ⟨_, back, .char hfront, hback, rfl⟩
      | conv harg h =>
          obtain ⟨front, back, hfront, hback, rfl⟩ := ih h
          refine ⟨_, back, .conv harg hfront, ?_, (List.append_assoc _ _ _).symm⟩
          rwa [conversions, ← Nat.add_assoc, Nat.add_right_comm]

/-! ## Printed text -/

theorem Printed.nil : Printed [] [] := ⟨[], List.Forall₂.nil, rfl⟩

theorem Printed.snoc {out : List Str} {text t : List U8} {str : Str} (h : Printed out text)
    (hstr : str.Holds t) : Printed (out ++ [str]) (text ++ t) := by
  obtain ⟨texts, hall, rfl⟩ := h
  exact ⟨texts ++ [t], List.rel_append hall (.cons hstr .nil), by simp⟩

theorem Printed.unique {out : List Str} {text text' : List U8} (h : Printed out text)
    (h' : Printed out text') : text = text' := by
  obtain ⟨texts, hall, rfl⟩ := h
  obtain ⟨texts', hall', rfl⟩ := h'
  have : texts = texts' := by
    induction hall generalizing texts' with
    | nil =>
        cases hall'
        rfl
    | cons hhead _ ih =>
        cases hall' with
        | cons hhead' htail' => rw [hhead.unique hhead', ih _ htail']
  rw [this]

theorem terminated_holds (c : U8) : (terminated c).Holds (charText c) := by
  rw [charText]
  split
  · rename_i h
    exact h
  · rename_i h
    exact ⟨rfl, h, rfl⟩

theorem terminated_holds_char {c : U8} (h : c ≠ 0#8) : (terminated c).Holds [c] :=
  ⟨rfl, h, rfl⟩

/-! ## Rounds of the loop -/

@[simp] theorem encode_nil : encode [] = [] := rfl

@[simp] theorem encode_char {c : U8} {ordinary : c ≠ ascii '%' ∧ c ≠ 0#8} {items : List Item} :
    encode (.char c ordinary :: items) = c :: encode items := rfl

@[simp] theorem encode_conv {k : Conv} {items : List Item} :
    encode (.conv k :: items) = ascii '%' :: k.letter :: encode items := rfl

variable {fmt : Str} {va : VaList} {st : LogState} {left : ℕ} {items : List Item}
  {text before arg : List U8} {k : Conv}

theorem letter_ordinary (k : Conv) : k.letter ≠ ascii '%' ∧ k.letter ≠ 0#8 := by
  cases k <;> decide

theorem logSwitch_conv (h : k.Text va (va.slot st.nargs) arg) :
    ∃ str, str.Holds arg ∧ (logSwitch va k.letter st).out = st.out ++ [str] ∧
      (logSwitch va k.letter st).nargs = st.nargs + 1 := by
  cases k with
  | s => exact ⟨_, h, rfl, rfl⟩
  | d => exact ⟨_, h st.decString, rfl, rfl⟩
  | x => exact ⟨_, h st.hexString, rfl, rfl⟩
  | c =>
      refine ⟨terminated (((va.slot st.nargs).setWidth 32).setWidth 8), ?_, rfl, rfl⟩
      rw [Conv.Text] at h
      rw [h, BitVec.setWidth_setWidth_of_le _ (by omega)]
      exact terminated_holds _

theorem conv_prints (h : k.Text va (va.slot st.nargs) arg) (hbefore : Printed st.out before)
    (c : U8) :
    Printed (st.conv va k.letter c).out (before ++ arg ++ charText c) ∧
      (st.conv va k.letter c).nargs = st.nargs + 1 := by
  obtain ⟨str, hstr, hout, hnargs⟩ := logSwitch_conv h
  refine ⟨?_, hnargs⟩
  simp only [LogState.conv, hout]
  exact (hbefore.snoc hstr).snoc (terminated_holds c)

theorem plain_prints {c : U8} (h : c ≠ 0#8) (hbefore : Printed st.out before) :
    Printed (st.plain c).out (before ++ [c]) :=
  hbefore.snoc (terminated_holds_char h)

theorem logLoop_separated {rest : List U8} (hsep : Separated items)
    (hrender : Renders va st.nargs items text)
    (h : HoldsAt 0#8 fmt st.ptr (encode items ++ rest))
    (hleft : (encode items ++ rest).length ≤ left) (hbefore : Printed st.out before) :
    ∃ left' st', logLoop fmt va left st = logLoop fmt va left' st' ∧
      HoldsAt 0#8 fmt st'.ptr rest ∧ st'.ptr = st.ptr + (encode items).length ∧
      rest.length ≤ left' ∧ Printed st'.out (before ++ text) ∧
      st'.nargs = st.nargs + conversions items := by
  induction items using Separated.induct generalizing st left text before with
  | case1 =>
      cases hrender
      exact ⟨left, st, rfl, h, rfl, hleft, (List.append_nil _).symm ▸ hbefore, rfl⟩
  | case2 c ordinary items ih =>
      obtain ⟨hfmt, h0, htail⟩ := h
      cases hrender with
      | @char _ _ _ _ text hrest =>
          simp only [encode_char, List.cons_append, List.length_cons] at hleft
          obtain ⟨left, rfl⟩ := Nat.exists_eq_add_one_of_ne_zero (Nat.ne_zero_of_lt hleft)
          obtain ⟨left', st', hrun, hrest', hptr, hleft', hout, hnargs⟩ :=
            @ih (st.plain c) left text _ hsep hrest htail (Nat.le_of_succ_le_succ hleft)
              (plain_prints h0 hbefore)
          rw [← List.append_cons] at hout
          refine ⟨left', st', ?_, hrest', ?_, hleft', hout, hnargs⟩
          · rw [logLoop_plain (hfmt ▸ h0) (hfmt ▸ ordinary.1), hfmt, hrun]
          · rw [hptr, encode_char, List.length_cons]
            simp only [LogState.plain]
            omega
  | case3 k c ordinary items ih =>
      obtain ⟨hfmt, _, hletter, _, hc, h0, htail⟩ := h
      cases hrender with
      | @conv _ _ _ arg _ harg hrest =>
          cases hrest with
          | @char _ _ _ _ text hrest =>
              simp only [encode_conv, encode_char, List.cons_append, List.length_cons] at hleft
              obtain ⟨left, rfl⟩ := Nat.exists_eq_add_one_of_ne_zero (Nat.ne_zero_of_lt hleft)
              obtain ⟨hround, hone⟩ := conv_prints harg hbefore c
              rw [charText, if_neg h0] at hround
              obtain ⟨left', st', hrun, hrest', hptr, hleft', hout, hnargs⟩ :=
                @ih (st.conv va k.letter c) left text _ hsep (hone.symm ▸ hrest) htail (by omega)
                  hround
              rw [List.append_assoc, List.append_assoc] at hout
              refine ⟨left', st', ?_, hrest', ?_, hleft', hout, ?_⟩
              · rw [logLoop_conv hfmt, hletter, hc, hrun]
              · rw [hptr, encode_conv, encode_char]
                simp only [LogState.conv, List.length_cons]
                omega
              · rw [hnargs, hone, conversions, conversions]
                omega
  | case4 k items hnot =>
      cases items with
      | nil => exact hsep.elim
      | cons item items =>
          cases item with
          | char c ordinary => exact (hnot c ordinary items rfl).elim
          | conv => exact hsep.elim

theorem logLoop_prints (hsep : Separated items) (hrender : Renders va st.nargs items text)
    (h : HoldsAt 0#8 fmt st.ptr (encode items)) (hleft : (encode items).length ≤ left)
    (hbefore : Printed st.out before) :
    Printed (logLoop fmt va left st).out (before ++ text) ∧
      (logLoop fmt va left st).nargs = st.nargs + conversions items := by
  rw [← List.append_nil (encode items)] at h hleft
  obtain ⟨left', st', hrun, hend, _, _, hout, hnargs⟩ :=
    logLoop_separated hsep hrender h hleft hbefore
  rw [hrun, logLoop_end (Or.inr hend)]
  exact ⟨hout, hnargs⟩

/-! ## Formats that are not separated -/

/-- The arguments that are taken: the `%` behind a conversion is printed, not looked at. -/
def taken : List Item → ℕ
  | [] => 0
  | .char .. :: items => taken items
  | [.conv _] => 1
  | .conv _ :: .char .. :: items => taken items + 1
  | .conv _ :: .conv _ :: items => taken items + 1

theorem taken_le_conversions (items : List Item) : taken items ≤ conversions items := by
  induction items using taken.induct with
  | case1 => exact Nat.le_refl _
  | case2 c ordinary items ih => exact ih
  | case3 k => exact Nat.le_refl _
  | case4 k c ordinary items ih => exact Nat.succ_le_succ ih
  | case5 k k' items ih =>
      rw [taken, conversions, conversions]
      omega

/-- What is wrong with a format that is not separated: an argument is left over, or the
format ends in a conversion. -/
theorem not_separated (h : ¬ Separated items) : taken items < conversions items ∨
    ∃ init k, items = init ++ [.conv k] ∧ Separated init := by
  induction items using taken.induct with
  | case1 => exact absurd trivial h
  | case2 c ordinary items ih =>
      refine (ih h).imp id ?_
      rintro ⟨init, k, rfl, hsep⟩
      exact ⟨.char c ordinary :: init, k, rfl, hsep⟩
  | case3 k => exact Or.inr ⟨[], k, rfl, trivial⟩
  | case4 k c ordinary items ih =>
      refine (ih h).imp Nat.succ_lt_succ ?_
      rintro ⟨init, k', rfl, hsep⟩
      exact ⟨.conv k :: .char c ordinary :: init, k', rfl, hsep⟩
  | case5 k k' items ih =>
      have := taken_le_conversions items
      rw [taken, conversions, conversions]
      exact Or.inl (by omega)

/-- Behind the format the loop prints the character there, if it goes on at all. -/
theorem logLoop_behind (h : HoldsAt 0#8 fmt st.ptr [ascii 'A']) :
    (logLoop fmt va left st).nargs = st.nargs ∧
      (0 < left → (logLoop fmt va left st).out = st.out ++ [terminated (ascii 'A')]) := by
  obtain ⟨hfmt, h0, hend⟩ := h
  cases left with
  | zero => exact ⟨rfl, fun h => absurd h (Nat.lt_irrefl 0)⟩
  | succ left =>
      have hend : fmt (st.plain (ascii 'A')).ptr = 0#8 := hend
      rw [logLoop_plain (hfmt ▸ h0) (hfmt ▸ (by decide)), hfmt, logLoop_end (Or.inr hend)]
      exact ⟨rfl, fun _ => rfl⟩

theorem logSwitch_nargs (k : Conv) : (logSwitch va k.letter st).nargs = st.nargs + 1 := by
  cases k <;> rfl

theorem nargs_logLoop (h : HoldsAt 0#8 fmt st.ptr (encode items))
    (hleft : (encode items).length ≤ left)
    (hbehind : HoldsAt 0#8 fmt (st.ptr + (encode items).length + 1) [ascii 'A']) :
    (logLoop fmt va left st).nargs = st.nargs + taken items := by
  induction items using taken.induct generalizing st left with
  | case1 =>
      rw [logLoop_end (Or.inr h)]
      rfl
  | case2 c ordinary items ih =>
      obtain ⟨hfmt, h0, htail⟩ := h
      simp only [encode_char, List.length_cons] at hleft hbehind
      obtain ⟨left, rfl⟩ := Nat.exists_eq_add_one_of_ne_zero (Nat.ne_zero_of_lt hleft)
      rw [logLoop_plain (hfmt ▸ h0) (hfmt ▸ ordinary.1), hfmt]
      refine @ih (st.plain c) left htail (by omega) ?_
      simp only [LogState.plain]
      rwa [show st.ptr + 1 + (encode items).length + 1 = st.ptr + ((encode items).length + 1) + 1
        by omega]
  | case3 k =>
      obtain ⟨hfmt, _, hletter, _, hend⟩ := h
      simp only [encode_conv, encode_nil, List.length_cons, List.length_nil] at hleft hbehind
      obtain ⟨left, rfl⟩ := Nat.exists_eq_add_one_of_ne_zero (Nat.ne_zero_of_lt hleft)
      rw [logLoop_conv hfmt, (logLoop_behind hbehind).1, hletter]
      exact logSwitch_nargs k
  | case4 k c ordinary items ih =>
      obtain ⟨hfmt, _, hletter, _, hc, h0, htail⟩ := h
      simp only [encode_conv, encode_char, List.length_cons] at hleft hbehind
      obtain ⟨left, rfl⟩ := Nat.exists_eq_add_one_of_ne_zero (Nat.ne_zero_of_lt hleft)
      rw [logLoop_conv hfmt, hletter, hc, taken]
      have hrun := @ih (st.conv va k.letter c) left htail (by omega) (by
        simp only [LogState.conv]
        rwa [show st.ptr + 3 + (encode items).length + 1 =
          st.ptr + ((encode items).length + 1 + 1 + 1) + 1 by omega])
      rw [hrun, LogState.conv, logSwitch_nargs]
      omega
  | case5 k k' items ih =>
      -- the letter of the second conversion is an ordinary character by then
      obtain ⟨hfmt, _, hletter, _, hpercent, _, hletter', h0, htail⟩ := h
      simp only [encode_conv, List.length_cons] at hleft hbehind
      obtain ⟨left, rfl⟩ : ∃ n, left = n + 1 + 1 := ⟨left - 2, by omega⟩
      have hplain : fmt (st.conv va k.letter (ascii '%')).ptr = k'.letter := hletter'
      rw [logLoop_conv hfmt, hletter, hpercent,
        logLoop_plain (hplain ▸ (letter_ordinary k').2) (hplain ▸ (letter_ordinary k').1), hplain]
      have hrun := @ih ((st.conv va k.letter (ascii '%')).plain k'.letter) left htail (by omega) (by
        simp only [LogState.conv, LogState.plain]
        rwa [show st.ptr + 3 + 1 + (encode items).length + 1 =
          st.ptr + ((encode items).length + 1 + 1 + 1 + 1) + 1 by omega])
      rw [hrun, LogState.plain, LogState.conv, logSwitch_nargs, taken]
      omega

/-- A final conversion prints the character behind the terminator too. -/
theorem logLoop_final (hsep : Separated items)
    (hrender : Renders va st.nargs (items ++ [.conv k]) text)
    (h : HoldsAt 0#8 fmt st.ptr (encode (items ++ [.conv k])))
    (hleft : (encode (items ++ [.conv k])).length ≤ left)
    (hbehind : HoldsAt 0#8 fmt (st.ptr + (encode (items ++ [.conv k])).length + 1) [ascii 'A'])
    (hbefore : Printed st.out before) :
    Printed (logLoop fmt va left st).out (before ++ text ++ [ascii 'A']) := by
  have hencode : encode (items ++ [.conv k]) = encode items ++ [ascii '%', k.letter] := by
    rw [encode, List.flatMap_append]
    rfl
  rw [hencode] at h hleft hbehind
  obtain ⟨front, back, hfront, hback, rfl⟩ := hrender.split
  obtain ⟨left', st', hrun, ⟨hfmt, _, hletter, _, hend⟩, hptr, hleft', hout, hnargs⟩ :=
    logLoop_separated hsep hfront h hleft hbefore
  rw [← hnargs] at hback
  cases hback with
  | @conv _ _ _ arg _ harg hnil =>
      cases hnil
      simp only [List.length_cons, List.length_nil] at hleft'
      obtain ⟨left', rfl⟩ : ∃ n, left' = n + 1 + 1 := ⟨left' - 2, by omega⟩
      have hend : fmt (st'.ptr + 2) = 0#8 := hend
      obtain ⟨hround, _⟩ := conv_prints harg hout 0#8
      rw [hrun, logLoop_conv hfmt, hletter, hend]
      have hpos : HoldsAt 0#8 fmt (st'.conv va k.letter 0#8).ptr [ascii 'A'] := by
        simp only [LogState.conv, hptr]
        rwa [List.length_append, ← Nat.add_assoc] at hbehind
      rw [(logLoop_behind hpos).2 (Nat.succ_pos _)]
      have hlast := hround.snoc (terminated_holds_char (c := ascii 'A') (by decide))
      simpa [charText] using hlast

/-! ## Formats that `log` prints -/

def withBehind (l : List U8) : Str := fun k => (l ++ [0#8, ascii 'A']).getD k 0#8

theorem zero_not_mem_encode (items : List Item) : 0#8 ∉ encode items := by
  intro h
  obtain ⟨item, _, hmem⟩ := List.mem_flatMap.mp h
  cases item with
  | char c ordinary => exact ordinary.2 (List.mem_singleton.mp hmem).symm
  | conv k =>
      rcases List.mem_pair.mp hmem with h0 | h0
      · exact absurd h0 (by decide)
      · exact (letter_ordinary k).2 h0.symm

theorem withBehind_holds {l : List U8} (h : 0#8 ∉ l) :
    (withBehind l).Holds l ∧ HoldsAt 0#8 (withBehind l) (l.length + 1) [ascii 'A'] := by
  have hend : (withBehind l) l.length = 0#8 := by
    rw [withBehind, List.getD_append_right _ _ _ _ (Nat.le_refl _), Nat.sub_self]
    rfl
  refine ⟨?_, ?_, by decide, ?_⟩
  · rw [Str.Holds, holdsAt_iff, Nat.zero_add]
    refine ⟨fun k hk => ?_, hend, h⟩
    rw [Nat.zero_add, withBehind, List.getD_append _ _ _ _ hk, List.getD_eq_getElem _ _ hk]
  · rw [withBehind, List.getD_append_right _ _ _ _ (by omega), Nat.add_sub_cancel_left]
    rfl
  · rw [HoldsAt, withBehind, List.getD_append_right _ _ _ _ (by omega),
      show l.length + 1 + 1 - l.length = 2 by omega]
    rfl

/-- Every format that is not separated comes out wrong with `"A"` behind it. -/
theorem separated_of_prints (hrender : Renders va 0 items text) (h : Prints va items text) :
    Separated items := by
  by_contra hsep
  obtain ⟨hfmt, hbehind⟩ := withBehind_holds (zero_not_mem_encode items)
  obtain ⟨st, hst, hout, hnargs⟩ :=
    h (withBehind (encode items)) (literal "") (literal "") _ hfmt (Nat.lt_succ_self _)
  rw [log_eq hfmt (Nat.lt_succ_self _)] at hst
  obtain rfl := Option.some_inj.mp hst
  have hpos : (logStart (literal "") (literal "")).ptr + (encode items).length + 1 =
      (encode items).length + 1 := by rw [logStart, Nat.zero_add]
  rcases not_separated hsep with hlt | ⟨init, k, rfl, hinit⟩
  · rw [@nargs_logLoop _ va (logStart (literal "") (literal "")) _ items hfmt (Nat.le_refl _)
      (by rwa [hpos])] at hnargs
    simp only [logStart, Nat.zero_add] at hnargs
    omega
  · have hmore := @logLoop_final _ va (logStart (literal "") (literal "")) _ init text [] k hinit
      hrender hfmt (Nat.le_refl _) (by rwa [hpos]) Printed.nil
    have := congrArg List.length (hout.unique hmore)
    simp at this

/-- `log` prints what its format says, wherever the format lies, exactly when every
conversion is followed by an ordinary character. -/
theorem log_prints_iff (va : VaList) (items : List Item) (text : List U8)
    (hrender : Renders va 0 items text) : Prints va items text ↔ Separated items := by
  refine ⟨separated_of_prints hrender, fun hsep => ?_⟩
  intro fmt decString hexString fuel h hfuel
  obtain ⟨hout, hnargs⟩ := @logLoop_prints fmt va (logStart decString hexString) _ items text []
    hsep hrender h (Nat.le_refl _) Printed.nil
  exact ⟨_, log_eq h hfuel va decString hexString, hout, hnargs.trans (Nat.zero_add _)⟩

/-- `log("%d.", 0)` prints `0.`. -/
theorem log_prints_zero : Prints noArgs [.conv .d, .char (ascii '.') (by decide)] (bytes "0.") ↔
    Separated [.conv .d, .char (ascii '.') (by decide)] :=
  log_prints_iff noArgs _ _
    (@Renders.conv noArgs 0 .d _ (bytes "0") (bytes ".")
      (fun decString => dec2str_holds decString 0#32) (.char .nil))

/-- `log("%d%x", 0, 0)` prints `0%x`. -/
theorem log_not_prints : ¬ ∀ (va : VaList) (items : List Item) (text : List U8),
    Renders va 0 items text → Prints va items text := by
  intro h
  have hrender : Renders noArgs 0 [.conv .d, .conv .x] (bytes "0" ++ (bytes "0x00" ++ [])) :=
    @Renders.conv noArgs 0 .d _ _ _ (fun decString => dec2str_holds decString 0#32)
      (@Renders.conv noArgs 1 .x _ _ _ (fun hexString => hex2str_holds hexString 0#32) .nil)
  exact separated_of_prints hrender (h _ _ _ hrender)

end FacelessOS
