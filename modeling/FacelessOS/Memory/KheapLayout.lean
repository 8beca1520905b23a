import FacelessOS.Memory.KheapBlocks
import Mathlib.Data.List.Induction
import Mathlib.Data.List.Nodup
import Mathlib.Data.List.Pairwise

/-!
# The layout of the heap

`Layout` says that the block list, the headers in memory and the live allocations
fit together: headers lie apart, the data of a live block ends before the next
header, and the bytes outside headers are still zero. One lemma for each thing an
operation can do to the block list (`Layout.reuse`, `Layout.append`,
`Layout.free`) keeps it, given the room that the operation needs.
-/

namespace FacelessOS

open ByteStore LinkedList

/-- The end of the addresses a header can lie at. -/
def heapTop : ℕ := 0x500 + (0x500 + 0x40000000) + headerSize

/-- A byte of heap memory. -/
def HeapByte (x : U64) : Prop := kheapStart.toNat ≤ x.toNat ∧ x.toNat < heapTop

/-! ## The invariant -/

def HeadersApart (b c : U64) : Prop :=
  b.toNat + headerSize ≤ c.toNat ∨ c.toNat + headerSize ≤ b.toNat

instance : Std.Symm HeadersApart := ⟨fun _ _ h => Or.symm h⟩

/-- The data of block `b` ends before the next header. -/
def DataFits (blocks : List U64) (b sz : U64) : Prop :=
  b.toNat + headerSize + sz.toNat ≤ 2 ^ 64 ∧
    ∀ c ∈ blocks, b.toNat < c.toNat → b.toNat + headerSize + sz.toNat ≤ c.toNat

structure Layout (m : Store 64) (blocks : List U64) (live : List (U64 × U64)) :
    Prop where
  chain : BlockList m blocks
  region : ∀ b ∈ blocks, kheapStart.toNat ≤ b.toNat ∧ b.toNat + headerSize ≤ heapTop
  apart : blocks.Pairwise HeadersApart
  magic : ∀ b ∈ blocks, Block.magic m b = kheapMagic
  live_nodup : (live.map Prod.fst).Nodup
  live_block : ∀ p sz, (p, sz) ∈ live → ∃ b ∈ blocks, p = Block.dataStart b ∧
    Block.isFree m b = 0#8 ∧ DataFits blocks b sz
  busy_live : ∀ b ∈ blocks, Block.isFree m b = 0#8 →
    ∃ sz, (Block.dataStart b, sz) ∈ live
  zero : ∀ x, HeapByte x → (∀ b ∈ blocks, ¬ Within b headerSize x) → m x = 0#8

theorem dataStart_inj {b c : U64} (h : Block.dataStart b = Block.dataStart c) : b = c :=
  (BitVec.add_left_inj _).mp h

theorem within_header_iff {b x : U64} (hb : b.toNat + headerSize ≤ heapTop) :
    Within b headerSize x ↔ b.toNat ≤ x.toNat ∧ x.toNat < b.toNat + headerSize := by
  apply within_iff
  rw [heapTop, headerSize] at hb
  rw [headerSize]
  omega

theorem HeadersApart.apart {b c : U64} (h : HeadersApart b c)
    (hb : b.toNat + headerSize ≤ heapTop) (hc : c.toNat + headerSize ≤ heapTop) :
    Apart b headerSize c headerSize := by
  intro x hx hy
  rw [within_header_iff hb] at hx
  rw [within_header_iff hc] at hy
  rcases h with h | h <;> omega

theorem toNat_dataStart {b : U64} (hb : b.toNat + headerSize ≤ heapTop) :
    (Block.dataStart b).toNat = b.toNat + headerSize := by
  rw [heapTop, headerSize] at hb
  rw [Block.dataStart, headerSize, BitVec.toNat_add, BitVec.toNat_ofNat]
  omega

namespace Layout

variable {m m' : Store 64} {blocks : List U64} {live : List (U64 × U64)}

theorem headersApart (h : Layout m blocks live) {b c : U64} (hb : b ∈ blocks)
    (hc : c ∈ blocks) (hne : b ≠ c) : HeadersApart b c :=
  h.apart.forall hb hc hne

theorem dataStart_ne_zero (h : Layout m blocks live) {b : U64} (hb : b ∈ blocks) :
    Block.dataStart b ≠ 0#64 := by
  intro hzero
  have hdata := toNat_dataStart (h.region b hb).2
  have hpos : 0 < headerSize := by decide
  rw [hzero, BitVec.toNat_ofNat, Nat.zero_mod] at hdata
  omega

theorem heapByte (h : Layout m blocks live) {b x : U64} (hb : b ∈ blocks)
    (hx : Within b headerSize x) : HeapByte x := by
  obtain ⟨hlo, hhi⟩ := h.region b hb
  rw [within_header_iff hhi] at hx
  exact ⟨by omega, by omega⟩

theorem congr (h : Layout m blocks live) (heq : ∀ x, HeapByte x → m' x = m x) :
    Layout m' blocks live := by
  have hhead : ∀ b ∈ blocks, ∀ x, Within b headerSize x → m' x = m x :=
    fun b hb x hx => heq x (h.heapByte hb hx)
  refine ⟨h.chain.congr fun b hb => next_congr (hhead b hb), h.region, h.apart,
    fun b hb => ?_, h.live_nodup, fun p sz hp => ?_, fun b hb hbusy => ?_, ?_⟩
  · rw [magic_congr (hhead b hb), h.magic b hb]
  · obtain ⟨b, hb, rfl, hbusy, hfits⟩ := h.live_block p sz hp
    exact ⟨b, hb, rfl, by rw [isFree_congr (hhead b hb), hbusy], hfits⟩
  · rw [isFree_congr (hhead b hb)] at hbusy
    exact h.busy_live b hb hbusy
  · intro x hx hout
    rw [heq x hx, h.zero x hx hout]

end Layout

/-! ## What the operations do to it -/

namespace Layout

variable {m : Store 64} {blocks : List U64} {live : List (U64 × U64)}

section Steps

variable {s : Vm} {b prev sz : U64}

theorem setIsFree_fields (h : Layout s.mem blocks live) (hb : b ∈ blocks) (v : U8) :
    ∀ c ∈ blocks, Block.next (s.setIsFree b v).mem c = Block.next s.mem c ∧
      Block.magic (s.setIsFree b v).mem c = Block.magic s.mem c ∧
      Block.isFree (s.setIsFree b v).mem c = if c = b then v else Block.isFree s.mem c := by
  intro c hc
  exact Vm.fields_setIsFree
    (fun hcb => (h.headersApart hc hb hcb).apart (h.region c hc).2 (h.region b hb).2) v

theorem reuse (h : Layout s.mem blocks live) (hb : b ∈ blocks)
    (hfree : Block.isFree s.mem b ≠ 0#8) (hfits : DataFits blocks b sz) :
    Layout (s.setIsFree b 0#8).mem blocks ((Block.dataStart b, sz) :: live) := by
  have hfields := h.setIsFree_fields hb 0#8
  have hnew : Block.dataStart b ∉ live.map Prod.fst := by
    rintro hmem
    obtain ⟨⟨p, sz'⟩, hp, hpb⟩ := List.mem_map.mp hmem
    obtain ⟨c, -, rfl, hbusy, -⟩ := h.live_block p sz' hp
    rw [dataStart_inj hpb] at hbusy
    exact hfree hbusy
  refine ⟨h.chain.congr fun c hc => (hfields c hc).1, h.region, h.apart,
    fun c hc => ?_, List.nodup_cons.mpr ⟨hnew, h.live_nodup⟩, ?_, ?_, ?_⟩
  · rw [(hfields c hc).2.1, h.magic c hc]
  · intro p sz' hp
    rcases List.mem_cons.mp hp with heq | hp
    · obtain ⟨rfl, rfl⟩ := Prod.mk.inj heq
      exact ⟨b, hb, rfl, Vm.isFree_setIsFree _ _ _, hfits⟩
    · obtain ⟨c, hc, rfl, hbusy, hfits'⟩ := h.live_block p sz' hp
      refine ⟨c, hc, rfl, ?_, hfits'⟩
      rw [(hfields c hc).2.2, hbusy, ite_self]
  · intro c hc hbusy
    by_cases hcb : c = b
    · exact ⟨sz, by rw [hcb]; exact List.mem_cons_self⟩
    · rw [(hfields c hc).2.2, if_neg hcb] at hbusy
      obtain ⟨sz', hlive⟩ := h.busy_live c hc hbusy
      exact ⟨sz', List.mem_cons_of_mem _ hlive⟩
  · intro x hx hout
    rw [Vm.mem_setIsFree (hout b hb), h.zero x hx hout]

theorem free (h : Layout s.mem blocks live) (hb : b ∈ blocks)
    (hlive : (Block.dataStart b, sz) ∈ live) :
    Layout (s.setIsFree b 1#8).mem blocks (live.erase (Block.dataStart b, sz)) := by
  have hfields := h.setIsFree_fields hb 1#8
  have hnodup := List.Nodup.of_map _ h.live_nodup
  refine ⟨h.chain.congr fun c hc => (hfields c hc).1, h.region, h.apart,
    fun c hc => ?_, h.live_nodup.sublist (List.erase_sublist.map _), ?_, ?_, ?_⟩
  · rw [(hfields c hc).2.1, h.magic c hc]
  · intro p sz' hp
    obtain ⟨hne, hlive'⟩ := hnodup.mem_erase_iff.mp hp
    obtain ⟨c, hc, rfl, hbusy, hfits⟩ := h.live_block p sz' hlive'
    have hcb : c ≠ b := by
      rintro rfl
      exact hne (List.inj_on_of_nodup_map h.live_nodup hlive' hlive rfl)
    exact ⟨c, hc, rfl, by rw [(hfields c hc).2.2, if_neg hcb, hbusy], hfits⟩
  · intro c hc hbusy
    have hcb : c ≠ b := by
      rintro rfl
      rw [Vm.isFree_setIsFree] at hbusy
      exact absurd hbusy (by decide)
    rw [(hfields c hc).2.2, if_neg hcb] at hbusy
    obtain ⟨sz', hlive'⟩ := h.busy_live c hc hbusy
    refine ⟨sz', hnodup.mem_erase_iff.mpr ⟨fun heq => ?_, hlive'⟩⟩
    exact hcb (dataStart_inj (Prod.mk.inj heq).1)
  · intro x hx hout
    rw [Vm.mem_setIsFree (hout b hb), h.zero x hx hout]

/-- The place of a new header: within the region, and clear of every block. -/
structure RoomFor (blocks : List U64) (live : List (U64 × U64)) (n sz : U64) : Prop where
  region : kheapStart.toNat ≤ n.toNat ∧ n.toNat + headerSize ≤ heapTop
  no_wrap : n.toNat + headerSize + sz.toNat ≤ 2 ^ 64
  clear : ∀ b ∈ blocks, ∀ size, (Block.dataStart b, size) ∈ live →
    b.toNat + headerSize + size.toNat ≤ n.toNat ∨
      n.toNat + headerSize + sz.toNat ≤ b.toNat

theorem RoomFor.ne_zero {n : U64} (hroom : RoomFor blocks live n sz) : n ≠ 0#64 := by
  rintro rfl
  exact absurd hroom.region.1 (by decide)

theorem headersApart_of_roomFor {n : U64} (h : Layout s.mem blocks live)
    (hbusy : ∀ b ∈ blocks, Block.isFree s.mem b = 0#8) (hroom : RoomFor blocks live n sz) :
    ∀ b ∈ blocks, HeadersApart b n := by
  intro b hb
  obtain ⟨size, hlive⟩ := h.busy_live b hb (hbusy b hb)
  rcases hroom.clear b hb size hlive with hle | hle
  · exact Or.inl (by omega)
  · exact Or.inr (by omega)

theorem apart_of_roomFor {n : U64} (h : Layout s.mem blocks live)
    (hbusy : ∀ b ∈ blocks, Block.isFree s.mem b = 0#8) (hroom : RoomFor blocks live n sz) :
    ∀ b ∈ blocks, Apart b headerSize n headerSize := by
  intro b hb
  exact (h.headersApart_of_roomFor hbusy hroom b hb).apart (h.region b hb).2 hroom.region.2

theorem next_of_roomFor {n : U64} (h : Layout s.mem blocks live)
    (hbusy : ∀ b ∈ blocks, Block.isFree s.mem b = 0#8) (hroom : RoomFor blocks live n sz) :
    Block.next s.mem n = 0#64 := by
  have hapart := h.apart_of_roomFor hbusy hroom
  have hzero : Block.next s.mem n = Block.next (fun _ => 0#8) n := by
    refine next_congr fun x hx => h.zero x ?_ fun b hb hbx => hapart b hb x hbx hx
    obtain ⟨hlo, hhi⟩ := hroom.region
    rw [within_header_iff hhi] at hx
    exact ⟨by omega, by omega⟩
  rw [hzero]
  exact load64_zero _

structure AppendedFields (m m' : Store 64) (l : List U64) (prev n : U64) : Prop where
  next_old : ∀ b ∈ l, Block.next m' b = Block.next m b
  next_prev : Block.next m' prev = n
  next_new : Block.next m' n = 0#64
  magic : ∀ b ∈ l ++ [prev] ++ [n], Block.magic m' b = kheapMagic
  isFree : ∀ b ∈ l ++ [prev] ++ [n], Block.isFree m' b = 0#8
  keep : ∀ x, ¬ Within prev headerSize x → ¬ Within n headerSize x → m' x = m x

theorem append_fields {l : List U64} {n : U64} (h : Layout s.mem (l ++ [prev]) live)
    (hbusy : ∀ b ∈ l ++ [prev], Block.isFree s.mem b = 0#8)
    (hroom : RoomFor (l ++ [prev]) live n sz) :
    AppendedFields s.mem ((s.appendBlock prev n sz).setIsFree n 0#8).mem l prev n := by
  have hprev : ∀ b ∈ l, Apart b headerSize prev headerSize := by
    intro b hb
    have hbp : HeadersApart b prev :=
      (List.pairwise_append.mp h.apart).2.2 b hb prev (List.mem_singleton_self _)
    exact hbp.apart (h.region b (List.mem_append_left _ hb)).2 (h.region prev (by simp)).2
  have hhung := Vm.hungIn (s := s) sz hprev (h.apart_of_roomFor hbusy hroom)
  refine ⟨hhung.next_old, hhung.next_prev, ?_, ?_, ?_, hhung.keep⟩
  · rw [hhung.next_new, h.next_of_roomFor hbusy hroom]
  · intro b hb
    rcases List.mem_append.mp hb with hb | hb
    · rw [hhung.magic_old b hb, h.magic b hb]
    · rw [List.mem_singleton.mp hb, hhung.magic_new]
  · intro b hb
    rcases List.mem_append.mp hb with hb | hb
    · rw [hhung.isFree_old b hb, hbusy b hb]
    · rw [List.mem_singleton.mp hb, hhung.isFree_new]

theorem dataFits_new {n : U64} (h : Layout s.mem blocks live)
    (hbusy : ∀ b ∈ blocks, Block.isFree s.mem b = 0#8) (hroom : RoomFor blocks live n sz) :
    DataFits (blocks ++ [n]) n sz := by
  refine ⟨hroom.no_wrap, fun c hc hlt => ?_⟩
  rcases List.mem_append.mp hc with hc | hc
  · obtain ⟨size, hlive⟩ := h.busy_live c hc (hbusy c hc)
    exact (hroom.clear c hc size hlive).resolve_left (by omega)
  · rw [List.mem_singleton.mp hc] at hlt
    exact absurd hlt (Nat.lt_irrefl _)

theorem RoomFor.dataFits {n size : U64} (hroom : RoomFor blocks live n sz) (hb : b ∈ blocks)
    (hlive : (Block.dataStart b, size) ∈ live) (hfits : DataFits blocks b size) :
    DataFits (blocks ++ [n]) b size := by
  refine ⟨hfits.1, fun c hc hlt => ?_⟩
  rcases List.mem_append.mp hc with hc | hc
  · exact hfits.2 c hc hlt
  · rw [List.mem_singleton.mp hc] at hlt ⊢
    exact (hroom.clear b hb size hlive).resolve_right (by omega)

theorem append {l : List U64} {n : U64} (h : Layout s.mem (l ++ [prev]) live)
    (hbusy : ∀ b ∈ l ++ [prev], Block.isFree s.mem b = 0#8)
    (hroom : RoomFor (l ++ [prev]) live n sz) :
    Layout ((s.appendBlock prev n sz).setIsFree n 0#8).mem (l ++ [prev] ++ [n])
      ((Block.dataStart n, sz) :: live) := by
  have hfields := h.append_fields hbusy hroom
  have hnapart := h.headersApart_of_roomFor hbusy hroom
  have hnew : Block.dataStart n ∉ live.map Prod.fst := by
    intro hmem
    obtain ⟨⟨p, size⟩, hp, hpn⟩ := List.mem_map.mp hmem
    obtain ⟨c, hc, rfl, -, -⟩ := h.live_block p size hp
    have hcn := dataStart_inj hpn
    have hpos : 0 < headerSize := by decide
    rcases hnapart c hc with hle | hle <;> rw [hcn] at hle <;> omega
  refine ⟨?_, ?_, ?_, hfields.magic, List.nodup_cons.mpr ⟨hnew, h.live_nodup⟩, ?_, ?_, ?_⟩
  · rw [List.append_assoc]
    exact Chain.snoc h.chain hroom.ne_zero hfields.next_prev hfields.next_new hfields.next_old
  · intro b hb
    rcases List.mem_append.mp hb with hb | hb
    · exact h.region b hb
    · rw [List.mem_singleton.mp hb]
      exact hroom.region
  · rw [List.pairwise_append]
    refine ⟨h.apart, List.pairwise_singleton _ _, fun b hb c hc => ?_⟩
    rw [List.mem_singleton.mp hc]
    exact hnapart b hb
  · intro p size hp
    rcases List.mem_cons.mp hp with heq | hlive
    · obtain ⟨rfl, rfl⟩ := Prod.mk.inj heq
      have hmem : n ∈ l ++ [prev] ++ [n] := List.mem_append_right _ (List.mem_singleton_self _)
      exact ⟨n, hmem, rfl, hfields.isFree n hmem, h.dataFits_new hbusy hroom⟩
    · obtain ⟨b, hb, rfl, -, hfits⟩ := h.live_block p size hlive
      have hmem : b ∈ l ++ [prev] ++ [n] := List.mem_append_left _ hb
      exact ⟨b, hmem, rfl, hfields.isFree b hmem, hroom.dataFits hb hlive hfits⟩
  · intro b hb _
    rcases List.mem_append.mp hb with hb | hb
    · obtain ⟨size, hlive⟩ := h.busy_live b hb (hbusy b hb)
      exact ⟨size, List.mem_cons_of_mem _ hlive⟩
    · rw [List.mem_singleton.mp hb]
      exact ⟨sz, List.mem_cons_self⟩
  · intro x hx hout
    rw [hfields.keep x (hout prev (by simp)) (hout n (by simp))]
    exact h.zero x hx fun b hb => hout b (List.mem_append_left _ hb)

end Steps

end Layout

theorem KheapInits.layout {s s' : Kheap} (h : KheapInits s s')
    (hzero : ∀ x, HeapByte x → s.vm.mem x = 0#8)
    (hprivate : ∀ vm, MapsPage s.vm kheapStart kheapFlags vm →
      ∀ x, HeapByte x → vm.mem x = s.vm.mem x) :
    Layout s'.vm.mem [kheapStart] [] := by
  obtain ⟨vm, hvm, hfirst, -⟩ := h.maps
  refine ⟨.cons (by decide) ?_, ?_, List.pairwise_singleton _ _, ?_, List.nodup_nil,
    ?_, ?_, ?_⟩
  · rw [hfirst.next]
    exact .nil
  · intro b hb
    obtain rfl := List.mem_singleton.mp hb
    exact ⟨Nat.le_refl _, by decide⟩
  · intro b hb
    obtain rfl := List.mem_singleton.mp hb
    exact hfirst.magic
  · exact fun p sz hp => absurd hp List.not_mem_nil
  · intro b hb hbusy
    obtain rfl := List.mem_singleton.mp hb
    rw [hfirst.isFree] at hbusy
    exact absurd hbusy (by decide)
  · intro x hx hout
    rw [hfirst.mem x (hout kheapStart (List.mem_singleton_self _)), hprivate vm hvm x hx]
    exact hzero x hx

theorem toNat_newHeader {m sz : U64} (h : m + sz < kheapLimit) :
    kheapStart.toNat ≤ (kheapStart + m + sz).toNat ∧
      (kheapStart + m + sz).toNat + headerSize ≤ heapTop := by
  have hlt : (m + sz).toNat < 0x500 + 0x40000000 := h
  have hstart : kheapStart.toNat = 0x500 := rfl
  rw [BitVec.add_assoc, BitVec.toNat_add, hstart, heapTop]
  omega

theorem BlockList.search_end {m : Store 64} {blocks : List U64} {fuel : ℕ} {prev : U64}
    (h : BlockList m blocks)
    (hloop : firstFitLoop m fuel kheapStart 0#64 = some (0#64, prev)) :
    ∃ l, blocks = l ++ [prev] ∧ ∀ b ∈ l ++ [prev], Block.isFree m b = 0#8 := by
  rcases firstFitLoop_spec h hloop with ⟨-, hbusy, hprev⟩ | ⟨hne, -⟩
  · cases blocks using List.reverseRecOn with
    | nil => cases h
    | append_singleton l t =>
        rw [List.getLastD_concat] at hprev
        rw [hprev]
        exact ⟨l, rfl, hbusy⟩
  · exact absurd rfl hne

end FacelessOS
