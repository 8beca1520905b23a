import FacelessOS.Debug.Format

/-!
# Sequences of calls of `log`

The calls of a function are run one after the other: the static buffers of one call are
what the next one finds. The literals lie anywhere in memory, with anything behind them.
`Logs` says what text a list of calls prints in every such environment; a call with a
separated format puts its own text in front (`Logs.call`).
-/

namespace FacelessOS

open Buffer ByteStore

/-- What a call of `log` depends on besides its arguments: where the literals lie, memory,
and the static buffers. -/
structure LogEnv where
  place : String → Str
  placed : ∀ s, 0#8 ∉ bytes s → (place s).Holds (bytes s)
  mem : Store 64
  decString : Str
  hexString : Str

def LogEnv.vaList (env : LogEnv) (call : LogCall) : VaList :=
  ⟨env.mem, fun i => call.args.getD i 0#64⟩

/-- Literals as they are in the image, over zeroed memory. -/
def zeroEnv : LogEnv where
  place := literal
  placed := fun _ h => literal_holds h
  mem := fun _ => 0#8
  decString := literal ""
  hexString := literal ""

def logCalls (fuel : ℕ) : LogEnv → List LogCall → Option (List Str)
  | _, [] => some []
  | env, call :: calls => do
      let st ← log fuel (env.place call.fmt) (env.vaList call) env.decString env.hexString
      let out ← logCalls fuel
        { env with decString := st.decString, hexString := st.hexString } calls
      some (st.out ++ out)

/-- The calls print this text, wherever the literals lie. -/
def Logs (calls : List LogCall) (text : List U8) : Prop :=
  ∀ (env : LogEnv) (fuel : ℕ), (∀ call ∈ calls, (bytes call.fmt).length < fuel) →
    ∃ out, logCalls fuel env calls = some out ∧ Printed out text

theorem Printed.append {out out' : List Str} {text text' : List U8} (h : Printed out text)
    (h' : Printed out' text') : Printed (out ++ out') (text ++ text') := by
  obtain ⟨texts, hall, rfl⟩ := h
  obtain ⟨texts', hall', rfl⟩ := h'
  exact ⟨texts ++ texts', List.rel_append hall hall', List.flatten_append⟩

theorem Logs.nil : Logs [] [] := fun _ _ _ => ⟨[], rfl, Printed.nil⟩

theorem Logs.call {call : LogCall} {items : List Item} {text : List U8}
    (hfmt : bytes call.fmt = encode items) (hsep : Separated items)
    (hrender : ∀ mem, Renders ⟨mem, fun i => call.args.getD i 0#64⟩ 0 items text)
    {calls : List LogCall} {rest : List U8} (h : Logs calls rest) :
    Logs (call :: calls) (text ++ rest) := by
  intro env fuel hfuel
  have hplace := env.placed call.fmt (hfmt ▸ zero_not_mem_encode items)
  have hlog := log_eq hplace (hfuel call List.mem_cons_self) (env.vaList call) env.decString
    env.hexString
  obtain ⟨hout, _⟩ := @logLoop_prints _ (env.vaList call)
    (logStart env.decString env.hexString) (bytes call.fmt).length items text [] hsep
    (hrender env.mem) (hfmt ▸ hplace) (Nat.le_of_eq (hfmt ▸ rfl)) Printed.nil
  obtain ⟨out, hcalls, hrest⟩ := h _ fuel fun c hc => hfuel c (List.mem_cons_of_mem _ hc)
  refine ⟨_, ?_, hout.append hrest⟩
  rw [logCalls, hlog, Option.bind_eq_bind, Option.bind_some, hcalls]
  rfl

/-! ## Text without conversions -/

def Plain (l : List U8) : Prop := ∀ c ∈ l, c ≠ ascii '%' ∧ c ≠ 0#8

instance (l : List U8) : Decidable (Plain l) := inferInstanceAs (Decidable (∀ c ∈ l, _))

def plainItems : List U8 → List Item
  | [] => []
  | c :: l =>
      if h : c ≠ ascii '%' ∧ c ≠ 0#8 then .char c h :: plainItems l else plainItems l

variable {l : List U8} {items : List Item}

theorem plainItems_cons {c : U8} (h : Plain (c :: l)) :
    plainItems (c :: l) = .char c (h c List.mem_cons_self) :: plainItems l ∧ Plain l :=
  ⟨by rw [plainItems, dif_pos (h c List.mem_cons_self)],
    fun d hd => h d (List.mem_cons_of_mem _ hd)⟩

theorem encode_plainItems (h : Plain l) : encode (plainItems l ++ items) = l ++ encode items := by
  induction l with
  | nil => rfl
  | cons c l ih =>
      obtain ⟨hcons, hl⟩ := plainItems_cons h
      rw [hcons, List.cons_append, encode_char, ih hl, List.cons_append]

theorem separated_plainItems (h : Plain l) :
    Separated (plainItems l ++ items) ↔ Separated items := by
  induction l with
  | nil => exact Iff.rfl
  | cons c l ih =>
      obtain ⟨hcons, hl⟩ := plainItems_cons h
      rw [hcons, List.cons_append, Separated, ih hl]

theorem renders_plainItems {va : VaList} {i : ℕ} {text : List U8} (h : Plain l)
    (hrender : Renders va i items text) : Renders va i (plainItems l ++ items) (l ++ text) := by
  induction l with
  | nil => exact hrender
  | cons c l ih =>
      obtain ⟨hcons, hl⟩ := plainItems_cons h
      rw [hcons]
      exact .char (ih hl)

theorem Logs.plain {fmt : String} {args : List U64} (h : Plain (bytes fmt))
    {calls : List LogCall} {rest : List U8} (hrest : Logs calls rest) :
    Logs (⟨fmt, args⟩ :: calls) (bytes fmt ++ rest) := by
  have hencode := @encode_plainItems (bytes fmt) [] h
  rw [List.append_nil, encode_nil, List.append_nil] at hencode
  refine Logs.call hencode.symm ?_ (fun mem => ?_) hrest
  · have := (@separated_plainItems (bytes fmt) [] h).mpr trivial
    rwa [List.append_nil] at this
  · have := @renders_plainItems (bytes fmt) [] ⟨mem, fun i => args.getD i 0#64⟩ 0 _ h .nil
    rwa [List.append_nil, List.append_nil] at this

/-! ## Text over a memory -/

/-- The calls print this text over this memory, which their strings lie in. -/
def LogsOver (mem : Store 64) (calls : List LogCall) (text : List U8) : Prop :=
  ∀ (env : LogEnv) (fuel : ℕ), env.mem = mem →
    (∀ call ∈ calls, (bytes call.fmt).length < fuel) →
    ∃ out, logCalls fuel env calls = some out ∧ Printed out text

theorem LogsOver.nil {mem : Store 64} : LogsOver mem [] [] := fun _ _ _ _ => ⟨[], rfl, Printed.nil⟩

theorem LogsOver.call {mem : Store 64} {call : LogCall} {text : List U8}
    (hfmt : bytes call.fmt = encode items) (hsep : Separated items)
    (hrender : Renders ⟨mem, fun i => call.args.getD i 0#64⟩ 0 items text)
    {calls : List LogCall} {rest : List U8} (h : LogsOver mem calls rest) :
    LogsOver mem (call :: calls) (text ++ rest) := by
  rintro env fuel rfl hfuel
  have hplace := env.placed call.fmt (hfmt ▸ zero_not_mem_encode items)
  have hlog := log_eq hplace (hfuel call List.mem_cons_self) (env.vaList call) env.decString
    env.hexString
  obtain ⟨hout, -⟩ := @logLoop_prints _ (env.vaList call)
    (logStart env.decString env.hexString) (bytes call.fmt).length items text [] hsep
    hrender (hfmt ▸ hplace) (Nat.le_of_eq (hfmt ▸ rfl)) Printed.nil
  generalize logLoop _ _ _ _ = st at hlog hout
  obtain ⟨out, hcalls, hrest⟩ := h { env with decString := st.decString, hexString := st.hexString }
    fuel rfl fun c hc => hfuel c (List.mem_cons_of_mem _ hc)
  refine ⟨_, ?_, hout.append hrest⟩
  rw [logCalls, hlog, Option.bind_eq_bind, Option.bind_some, hcalls]
  rfl

theorem LogsOver.plain {mem : Store 64} {fmt : String} {args : List U64}
    (h : Plain (bytes fmt)) {calls : List LogCall} {rest : List U8}
    (hrest : LogsOver mem calls rest) :
    LogsOver mem (⟨fmt, args⟩ :: calls) (bytes fmt ++ rest) := by
  have hencode := @encode_plainItems (bytes fmt) [] h
  rw [List.append_nil, encode_nil, List.append_nil] at hencode
  refine LogsOver.call hencode.symm ?_ ?_ hrest
  · have hsep := (@separated_plainItems (bytes fmt) [] h).mpr trivial
    rwa [List.append_nil] at hsep
  · have hrender := @renders_plainItems (bytes fmt) [] ⟨mem, fun i => args.getD i 0#64⟩ 0 _ h .nil
    rwa [List.append_nil, List.append_nil] at hrender

end FacelessOS
