import FacelessOS.Lib.Objects
import FacelessOS.Memory.HeapLimit
import FacelessOS.Memory.Mkpml4

/-!
# The heap as an object store

What `kmalloc` and `kfree` are for: a client that stores into its allocations, and nowhere
else, finds there what it stored. The heap keeps this promise (`heap_refines_objects`) as
long as each `kmalloc` returns a block that is clear of what is there (`ClientFits`): of
the listed headers, of the data of live allocations, and, where a block is made, of a `next`
that is not `NULL`, which a client may have left in memory that was freed.
-/

namespace FacelessOS

open ByteStore LinkedList Runs

inductive ClientOp where
  | call (op : HeapOp)
  | store (p : U64) (i : ℕ) (v : U8)

def HeapRun.setByte (r : HeapRun) (x : U64) (v : U8) : HeapRun :=
  { r with heap := { r.heap with vm := r.heap.vm.setByte x v } }

inductive ClientStep : HeapRun → ClientOp → HeapRun → Prop where
  | call {r r' : HeapRun} {op : HeapOp} : HeapStep r op r' → ClientStep r (.call op) r'
  | store {r : HeapRun} {p sz : U64} {i : ℕ} {v : U8} : (p, sz) ∈ r.live → i < sz.toNat →
      ClientStep r (.store p i v) (r.setByte (p + BitVec.ofNat 64 i) v)

/-- The data of block `b` lies clear of the listed headers and of live allocations. -/
def DataClear (r : HeapRun) (b sz : U64) : Prop :=
  (∀ c, Listed r.heap.vm.mem c → Apart (Block.dataStart b) sz.toNat c headerSize) ∧
    ∀ a ∈ r.live, Apart (Block.dataStart b) sz.toNat a.1 a.2.toNat

/-- This `kmalloc` keeps the block list and the live data, and the block that it returns,
found or made, is clear. -/
structure ClientFits (r : HeapRun) (sz : U64) : Prop where
  keeps : KeepsChain r.heap sz
  kept : ∀ vm, MapsHeap r.heap vm → ∀ a ∈ r.live, ∀ x, Within a.1 a.2.toNat x →
    vm.mem x = r.heap.vm.mem x
  reused : r.heap.memAllocated + sz < kheapLimit →
    ∀ b, FindsFree r.heap.vm.mem kheapStart b → DataClear r b sz
  placed : r.heap.memAllocated + sz < kheapLimit →
    (∀ b, ¬ FindsFree r.heap.vm.mem kheapStart b) → LastIn r.heap.vm.mem →
    DataClear r (kheapStart + r.heap.memAllocated + sz) sz ∧
      headerSize + sz.toNat ≤ 2 ^ 64 ∧
      ∀ a ∈ r.live, Apart a.1 a.2.toNat (kheapStart + r.heap.memAllocated + sz) headerSize

def ClientOp.Fits (r : HeapRun) : ClientOp → Prop
  | .call (.kmalloc sz) => ClientFits r sz
  | .call (.kfree _) => True
  | .store _ _ _ => True

/-! ## What the client sees -/

def bytesAt (m : Store 64) (p : U64) (n : ℕ) : List U8 :=
  (List.range n).map fun i => m (p + BitVec.ofNat 64 i)

/-- The live allocations with their contents. -/
def HeapRun.objects (r : HeapRun) : Objects.Store U64 U8 := fun p =>
  (r.live.find? fun a => a.1 = p).map fun a => bytesAt r.heap.vm.mem a.1 a.2.toNat

def ClientOp.toObjects : ClientOp → Objects.Op U64 U8
  | .call (.kmalloc sz) => .alloc sz.toNat
  | .call (.kfree p) => .free p
  | .store p i v => .store p i v

@[simp] theorem length_bytesAt (m : Store 64) (p : U64) (n : ℕ) :
    (bytesAt m p n).length = n := by
  rw [bytesAt, List.length_map, List.length_range]

theorem getElem?_bytesAt {m : Store 64} {p : U64} {n i : ℕ} (hi : i < n) :
    (bytesAt m p n)[i]? = some (m (p + BitVec.ofNat 64 i)) := by
  rw [bytesAt, List.getElem?_map, List.getElem?_range hi, Option.map_some]

theorem bytesAt_congr {m m' : Store 64} {p : U64} {n : ℕ}
    (h : ∀ x, Within p n x → m' x = m x) : bytesAt m' p n = bytesAt m p n :=
  List.map_congr_left fun _ hi => h _ (within_add (List.mem_range.mp hi))

theorem bytesAt_setByte (s : Vm) (p : U64) {n i : ℕ} (hi : i < n) (hn : n ≤ 2 ^ 64) (v : U8) :
    bytesAt (s.setByte (p + BitVec.ofNat 64 i) v).mem p n = (bytesAt s.mem p n).set i v := by
  apply List.ext_getElem?
  intro j
  rw [List.getElem?_set, length_bytesAt]
  by_cases hj : j < n
  · rw [getElem?_bytesAt hj, getElem?_bytesAt hj, Vm.mem_setByte, if_pos hi]
    by_cases hij : i = j
    · rw [if_pos hij, if_pos (by rw [hij])]
    · have hne : p + BitVec.ofNat 64 j ≠ p + BitVec.ofNat 64 i := by
        intro heq
        have hsame := congrArg BitVec.toNat ((BitVec.add_right_inj p).mp heq)
        rw [BitVec.toNat_ofNat, BitVec.toNat_ofNat, Nat.mod_eq_of_lt (by omega),
          Nat.mod_eq_of_lt (by omega)] at hsame
        exact hij hsame.symm
      rw [if_neg hij, if_neg hne]
  · have hlen : ∀ m : Store 64, (bytesAt m p n)[j]? = none := fun m =>
      List.getElem?_eq_none (by rw [length_bytesAt]; omega)
    rw [hlen, hlen, if_neg (by omega)]

theorem objects_eq_some {r : HeapRun} (hnodup : (r.live.map Prod.fst).Nodup) {p : U64}
    {c : List U8} : r.objects p = some c ↔
      ∃ sz, (p, sz) ∈ r.live ∧ bytesAt r.heap.vm.mem p sz.toNat = c := by
  unfold HeapRun.objects
  rw [Option.map_eq_some_iff]
  constructor
  · rintro ⟨⟨q, sz⟩, hfind, rfl⟩
    obtain rfl : q = p := by simpa using List.find?_some hfind
    exact ⟨sz, List.mem_of_find?_eq_some hfind, rfl⟩
  · rintro ⟨sz, hlive, rfl⟩
    obtain ⟨⟨q, sz'⟩, hfind⟩ : ∃ a, r.live.find? (fun a => a.1 = p) = some a := by
      rw [← Option.isSome_iff_exists, List.find?_isSome]
      exact ⟨(p, sz), hlive, by simp⟩
    obtain rfl : q = p := by simpa using List.find?_some hfind
    have hmem := List.mem_of_find?_eq_some hfind
    obtain rfl := (Prod.mk.inj (List.inj_on_of_nodup_map hnodup hmem hlive rfl)).2
    exact ⟨(q, sz'), hfind, rfl⟩

theorem objects_eq_none {r : HeapRun} {p : U64} :
    r.objects p = none ↔ p ∉ r.live.map Prod.fst := by
  unfold HeapRun.objects
  rw [Option.map_eq_none_iff, List.find?_eq_none]
  constructor
  · intro hnone hmem
    obtain ⟨a, ha, rfl⟩ := List.mem_map.mp hmem
    exact hnone a ha (by simp)
  · intro hnone a ha heq
    refine hnone (List.mem_map.mpr ⟨a, ha, ?_⟩)
    simpa using heq

def KeepsLive (live : List (U64 × U64)) (m m' : Store 64) : Prop :=
  ∀ a ∈ live, ∀ x, Within a.1 a.2.toNat x → m' x = m x

section Views

variable {r : HeapRun} {s' : Kheap} {p sz : U64}

theorem objects_keep (h : KeepsLive r.live r.heap.vm.mem s'.vm.mem) :
    HeapRun.objects ⟨s', r.live⟩ = r.objects := by
  funext q
  unfold HeapRun.objects
  cases hfind : r.live.find? fun a => a.1 = q with
  | none => rfl
  | some a =>
      rw [Option.map_some, Option.map_some, bytesAt_congr (h a (List.mem_of_find?_eq_some hfind))]

theorem objects_cons (h : KeepsLive r.live r.heap.vm.mem s'.vm.mem) :
    HeapRun.objects ⟨s', (p, sz) :: r.live⟩ =
      Function.update r.objects p (some (bytesAt s'.vm.mem p sz.toNat)) := by
  funext q
  by_cases hqp : q = p
  · subst hqp
    rw [Function.update_self]
    unfold HeapRun.objects
    rw [List.find?_cons_of_pos (by simp), Option.map_some]
  · rw [Function.update_of_ne hqp, ← objects_keep h]
    show Option.map _ (((p, sz) :: r.live).find? fun a => decide (a.1 = q)) = _
    rw [List.find?_cons_of_neg (by simpa using fun heq => hqp heq.symm)]
    rfl

theorem objects_erase (hnodup : (r.live.map Prod.fst).Nodup) (hlive : (p, sz) ∈ r.live)
    (h : KeepsLive r.live r.heap.vm.mem s'.vm.mem) :
    HeapRun.objects ⟨s', r.live.erase (p, sz)⟩ = Function.update r.objects p none := by
  have herase : ∀ a, a ∈ r.live.erase (p, sz) ↔ a ≠ (p, sz) ∧ a ∈ r.live := fun a =>
    (List.Nodup.of_map _ hnodup).mem_erase_iff
  have hnodup' : ((r.live.erase (p, sz)).map Prod.fst).Nodup :=
    hnodup.sublist (List.erase_sublist.map _)
  funext q
  by_cases hqp : q = p
  · subst hqp
    rw [Function.update_self, objects_eq_none]
    intro hmem
    obtain ⟨a, ha, haq⟩ := List.mem_map.mp hmem
    obtain ⟨hne, ha⟩ := (herase a).mp ha
    exact hne (List.inj_on_of_nodup_map hnodup ha hlive haq)
  · rw [Function.update_of_ne hqp, ← objects_keep h]
    apply Option.ext
    intro c
    have hthis : HeapRun.objects ⟨s', r.live⟩ q = some c ↔ _ :=
      objects_eq_some (r := ⟨s', r.live⟩) hnodup
    rw [hthis, objects_eq_some (r := ⟨s', r.live.erase (p, sz)⟩) hnodup']
    refine exists_congr fun size => and_congr_left fun _ => ?_
    rw [herase]
    exact and_iff_right fun heq => hqp (Prod.mk.inj heq).1

end Views

theorem spares_toObjects {op : ClientOp} {p : U64} {i : ℕ}
    (h : op ≠ .call (.kfree p) ∧ ∀ w, op ≠ .store p i w) :
    Objects.Spares p i op.toObjects := by
  obtain ⟨hfree, hstore⟩ := h
  cases op with
  | call op =>
      cases op with
      | kmalloc sz => exact ⟨by simp [ClientOp.toObjects], by simp [ClientOp.toObjects]⟩
      | kfree q =>
          refine ⟨fun heq => hfree ?_, by simp [ClientOp.toObjects]⟩
          rw [(Objects.Op.free.inj heq : q = p)]
  | store q j w =>
      refine ⟨by simp [ClientOp.toObjects], fun v heq => hstore w ?_⟩
      obtain ⟨rfl, rfl, -⟩ := Objects.Op.store.inj heq
      rfl

/-! ## The invariant -/

/-- The list is kept, live pointers differ and their blocks are in use, and live data lies
apart from other data and from the headers. -/
structure ClientHeap (m : Store 64) (blocks : List U64) (live : List (U64 × U64)) : Prop
    extends BlockChain m blocks live where
  nodup : (live.map Prod.fst).Nodup
  busy : ∀ a ∈ live, Block.isFree m (blockOf a.1) = 0#8
  data : ∀ a ∈ live, ∀ b ∈ live, a.1 ≠ b.1 → Apart a.1 a.2.toNat b.1 b.2.toNat
  headers : ∀ a ∈ live, ∀ b ∈ blocks, Apart a.1 a.2.toNat b headerSize

namespace ClientHeap

variable {m m' : Store 64} {blocks : List U64} {live : List (U64 × U64)} {a : U64 × U64}

theorem block_mem (h : ClientHeap m blocks live) (ha : a ∈ live) : blockOf a.1 ∈ blocks := by
  obtain ⟨b, hb, hab⟩ := h.live_block a.1 a.2 ha
  rwa [hab, blockOf_dataStart]

theorem congr_headers (h : ClientHeap m blocks live)
    (heq : ∀ b ∈ blocks, ∀ x, Within b headerSize x → m' x = m x) :
    ClientHeap m' blocks live := by
  refine ⟨h.toBlockChain.congr heq, h.nodup, fun a ha => ?_, h.data, h.headers⟩
  rw [isFree_congr (heq _ (h.block_mem ha)), h.busy a ha]

theorem data_apart_header {n sz : U64} (hwrap : headerSize + sz.toNat ≤ 2 ^ 64) :
    Apart (Block.dataStart n) sz.toNat n headerSize := by
  intro x hx hy
  unfold Block.dataStart at hx
  have hoff : n + 29#64 = n + BitVec.ofNat 64 headerSize := rfl
  rw [hoff, within_offset_iff hwrap] at hx
  unfold Within at hy
  omega

theorem start : BlockChain m blocks [] → ClientHeap m blocks [] := fun h =>
  ⟨h, List.nodup_nil, fun _ ha => absurd ha List.not_mem_nil,
    fun _ ha => absurd ha List.not_mem_nil, fun _ ha => absurd ha List.not_mem_nil⟩

theorem handsOut {b sz : U64} (h : ClientHeap m blocks live) (hb : b ∈ blocks)
    (hbusy : Block.isFree m b = 0#8) (hnew : Block.dataStart b ∉ live.map Prod.fst)
    (hdata : ∀ a ∈ live, Apart (Block.dataStart b) sz.toNat a.1 a.2.toNat)
    (hheaders : ∀ c ∈ blocks, Apart (Block.dataStart b) sz.toNat c headerSize) :
    ClientHeap m blocks ((Block.dataStart b, sz) :: live) := by
  refine ⟨⟨h.chain, h.apart, h.magic, fun p size hp => ?_⟩,
    List.nodup_cons.mpr ⟨hnew, h.nodup⟩, List.forall_mem_cons.mpr ⟨?_, h.busy⟩, ?_,
    List.forall_mem_cons.mpr ⟨hheaders, h.headers⟩⟩
  · rcases List.mem_cons.mp hp with heq | hp
    · exact ⟨b, hb, (Prod.mk.inj heq).1⟩
    · exact h.live_block p size hp
  · rwa [blockOf_dataStart]
  · intro a ha c hc hne
    rcases List.mem_cons.mp ha with rfl | ha <;> rcases List.mem_cons.mp hc with rfl | hc
    · exact absurd rfl hne
    · exact hdata c hc
    · exact (hdata a ha).symm
    · exact h.data a ha c hc hne

/-- A block is taken or given back, and a list of allocations is left whose blocks keep
their mark. -/
theorem marks {s : Vm} {b : U64} {v : U8} {live' : List (U64 × U64)}
    (h : ClientHeap s.mem blocks live) (hb : b ∈ blocks) (hsub : live'.Sublist live)
    (hother : ∀ a ∈ live', blockOf a.1 ≠ b) :
    ClientHeap (s.setIsFree b v).mem blocks live' := by
  have hfields := h.setIsFree_fields hb v
  obtain ⟨hchain, hapart, hmagic, hblock⟩ := h.toBlockChain.setIsFree hb v
  refine ⟨⟨hchain, hapart, hmagic, fun p sz hp => hblock p sz (hsub.subset hp)⟩,
    h.nodup.sublist (hsub.map _), fun a ha => ?_,
    fun a ha c hc => h.data a (hsub.subset ha) c (hsub.subset hc),
    fun a ha => h.headers a (hsub.subset ha)⟩
  have hmem := h.block_mem (hsub.subset ha)
  rw [(hfields _ hmem).2.2, if_neg (hother a ha), h.busy a (hsub.subset ha)]

theorem appends {s : Vm} {l : List U64} {prev n : U64}
    (h : ClientHeap s.mem (l ++ [prev]) live) (size : U64) (hn : n ≠ 0#64)
    (hapart : ∀ b ∈ l ++ [prev], Apart b headerSize n headerSize)
    (hnext : Block.next s.mem n = 0#64)
    (hdata : ∀ a ∈ live, Apart a.1 a.2.toNat n headerSize) :
    ClientHeap ((s.appendBlock prev n size).setIsFree n 0#8).mem (l ++ [prev] ++ [n])
      live := by
  have hprev : ∀ b ∈ l, Apart b headerSize prev headerSize := fun b hb =>
    (List.pairwise_append.mp h.apart).2.2 b hb prev (List.mem_singleton_self _)
  have hhung := Vm.hungIn (s := s) size hprev hapart
  refine ⟨h.toBlockChain.append size hn hapart hnext, h.nodup, fun a ha => ?_, h.data,
    fun a ha b hb => ?_⟩
  · rw [hhung.isFree_old _ (h.block_mem ha), h.busy a ha]
  · rcases List.mem_append.mp hb with hb | hb
    · exact h.headers a ha b hb
    · rw [List.mem_singleton.mp hb]
      exact hdata a ha

/-! ## One step -/

variable {r : HeapRun} {sz p : U64} {s' : Kheap}

theorem notLive_of_blockOf {b : U64} (h : ∀ a ∈ live, blockOf a.1 ≠ b) :
    Block.dataStart b ∉ live.map Prod.fst := by
  intro hmem
  obtain ⟨a, ha, hab⟩ := List.mem_map.mp hmem
  exact h a ha (by rw [hab, blockOf_dataStart])

/-- **One `kmalloc` that fits**: live data is kept, and what is returned is new. -/
theorem kmalloc (h : ClientHeap r.heap.vm.mem blocks r.live) (hfits : ClientFits r sz)
    (hcall : Kmallocs r.heap sz p s') :
    (∃ blocks', ClientHeap s'.vm.mem blocks'
      (if p = 0#64 then r.live else (p, sz) :: r.live)) ∧
    KeepsLive r.live r.heap.vm.mem s'.vm.mem ∧ (p ≠ 0#64 → p ∉ r.live.map Prod.fst) := by
  obtain ⟨vm, hvm, halloc⟩ := hcall.allocates
  have hvm' : ClientHeap vm.mem blocks r.live := h.congr_headers fun b hb =>
    hfits.keeps.headers vm hvm b (h.chain.listed_iff.mpr hb)
  have hlisted : ∀ {c}, c ∈ blocks → Listed r.heap.vm.mem c := h.chain.listed_iff.mpr
  cases halloc with
  | rejected => exact ⟨⟨blocks, hvm'⟩, hfits.kept vm hvm, fun hne => absurd rfl hne⟩
  | @reused fuel hole prev hlimit hloop hne =>
      have hfind := (firstFitLoop_findsFree hloop).1 hne
      have hhole : hole ∈ blocks := hvm'.chain.listed_iff.mp hfind.listed
      have hother : ∀ a ∈ r.live, blockOf a.1 ≠ hole := by
        rintro a ha rfl
        exact hfind.isFree (hvm'.busy a ha)
      obtain ⟨hheaders, hdata⟩ :=
        hfits.reused hlimit hole ((hfits.keeps.findsFree_iff hvm).mp hfind)
      have hmarked := hvm'.marks (v := 0#8) hhole (List.Sublist.refl _) hother
      have hnew := notLive_of_blockOf hother
      refine ⟨⟨blocks, ?_⟩, fun a ha x hx => ?_, fun _ => hnew⟩
      · split
        · exact hmarked
        · exact hmarked.handsOut hhole (Vm.isFree_setIsFree _ _ _) hnew hdata
            fun c hc => hheaders c (hlisted hc)
      · rw [Vm.mem_setIsFree (hvm'.headers a ha hole hhole x hx), hfits.kept vm hvm a ha x hx]
  | @lost fuel prev hlimit hloop hend hnone =>
      obtain ⟨l, rfl, hapart, -⟩ := h.toBlockChain.room hfits.keeps hvm hlimit hloop hend
      rw [Vm.next_appendBlock_prev (hapart prev (by simp))] at hnone
      exact absurd hnone (newHeader_ne_zero hlimit)
  | @appended fuel prev hole hlimit hloop hend hhole _ =>
      obtain ⟨l, rfl, hapart, hnext⟩ := h.toBlockChain.room hfits.keeps hvm hlimit hloop hend
      rw [Vm.next_appendBlock_prev (hapart prev (by simp))] at hhole
      subst hhole
      have hnone : ∀ b, ¬ FindsFree r.heap.vm.mem kheapStart b := fun b hb =>
        (firstFitLoop_findsFree hloop).2 rfl b ((hfits.keeps.findsFree_iff hvm).mpr hb)
      obtain ⟨⟨hheaders, hdata⟩, hwrap, hheader⟩ := hfits.placed hlimit hnone
        (h.toBlockChain.lastIn hend)
      have happended := hvm'.appends sz (newHeader_ne_zero hlimit) hapart hnext hheader
      have hprev : ∀ b ∈ l, Apart b headerSize prev headerSize := fun b hb =>
        (List.pairwise_append.mp h.apart).2.2 b hb prev (List.mem_singleton_self _)
      have hhung := Vm.hungIn (s := vm) sz hprev hapart
      -- the place of the new header is not that of a live block
      have hother : ∀ a ∈ r.live,
          blockOf a.1 ≠ kheapStart + r.heap.memAllocated + sz := by
        intro a ha heq
        have hself := hapart _ (h.block_mem ha) (blockOf a.1) (within_self (by decide))
        rw [heq] at hself
        exact hself (within_self (by decide))
      have hnew := notLive_of_blockOf hother
      refine ⟨⟨l ++ [prev] ++ [kheapStart + r.heap.memAllocated + sz], ?_⟩,
        fun a ha x hx => ?_, fun _ => hnew⟩
      · split
        · exact happended
        · refine happended.handsOut (by simp) (Vm.isFree_setIsFree _ _ _) hnew hdata
            fun c hc => ?_
          rcases List.mem_append.mp hc with hc | hc
          · exact hheaders c (hlisted hc)
          · rw [List.mem_singleton.mp hc]
            exact data_apart_header hwrap
      · rw [hhung.keep x (h.headers a ha prev (by simp) x hx) (hheader a ha x hx),
          hfits.kept vm hvm a ha x hx]

/-- **One `kfree`** of a live pointer: live data is kept. -/
theorem kfree (h : ClientHeap r.heap.vm.mem blocks r.live) (hlive : (p, sz) ∈ r.live)
    (hcall : FacelessOS.kfree r.heap p = .ok s') :
    ClientHeap s'.vm.mem blocks (r.live.erase (p, sz)) ∧
      KeepsLive r.live r.heap.vm.mem s'.vm.mem := by
  obtain rfl := kfree_ok hcall
  have hblock : blockOf p ∈ blocks := h.block_mem hlive
  refine ⟨h.marks hblock List.erase_sublist fun a ha heq => ?_,
    fun a ha x hx => Vm.mem_setIsFree (h.headers a ha _ hblock x hx)⟩
  obtain ⟨hne, ha⟩ := (List.Nodup.of_map _ h.nodup).mem_erase_iff.mp ha
  refine hne (List.inj_on_of_nodup_map h.nodup ha hlive ?_)
  unfold blockOf at heq
  bv_omega

/-- **One store** into a live allocation: no header and no other allocation is concerned. -/
theorem setByte {i : ℕ} {v : U8} (h : ClientHeap r.heap.vm.mem blocks r.live)
    (hlive : (p, sz) ∈ r.live) (hi : i < sz.toNat) :
    ClientHeap (r.heap.vm.setByte (p + BitVec.ofNat 64 i) v).mem blocks r.live := by
  refine h.congr_headers fun b hb x hx => ?_
  rw [Vm.mem_setByte, if_neg]
  rintro rfl
  exact h.headers (p, sz) hlive b hb _ (within_add hi) hx

theorem objects_setByte {i : ℕ} {v : U8} (h : ClientHeap r.heap.vm.mem blocks r.live)
    (hlive : (p, sz) ∈ r.live) (hi : i < sz.toNat) :
    (r.setByte (p + BitVec.ofNat 64 i) v).objects =
      Function.update r.objects p (some ((bytesAt r.heap.vm.mem p sz.toNat).set i v)) := by
  funext q
  apply Option.ext
  intro c
  rw [objects_eq_some (r := r.setByte (p + BitVec.ofNat 64 i) v) h.nodup]
  by_cases hqp : q = p
  · subst hqp
    rw [Function.update_self, Option.some.injEq,
      ← bytesAt_setByte r.heap.vm q hi sz.isLt.le v]
    constructor
    · rintro ⟨size, hsize, rfl⟩
      obtain rfl := (Prod.mk.inj (List.inj_on_of_nodup_map h.nodup hsize hlive rfl)).2
      rfl
    · rintro rfl
      exact ⟨sz, hlive, rfl⟩
  · rw [Function.update_of_ne hqp, objects_eq_some h.nodup]
    refine exists_congr fun size => and_congr_right fun hsize => ?_
    have hkeep : ∀ x, Within q size.toNat x →
        (r.setByte (p + BitVec.ofNat 64 i) v).heap.vm.mem x = r.heap.vm.mem x := by
      intro x hx
      refine Vm.mem_setByte.trans (if_neg ?_)
      rintro rfl
      exact h.data (q, size) hsize (p, sz) hlive hqp _ hx (within_add hi)
    rw [bytesAt_congr hkeep]

end ClientHeap

/-- **One step that fits** is a step of the object store. -/
theorem ClientStep.refines {r r' : HeapRun} {op : ClientOp} {blocks : List U64}
    (hstep : ClientStep r op r') (hfits : op.Fits r)
    (h : ClientHeap r.heap.vm.mem blocks r.live) :
    (∃ blocks', ClientHeap r'.heap.vm.mem blocks' r'.live) ∧
      Objects.Step r.objects op.toObjects r'.objects := by
  cases hstep with
  | @call _ op hcall =>
      cases hcall with
      | @kmalloc sz p s' hcall =>
          obtain ⟨hinv, hkeep, hnew⟩ := h.kmalloc hfits hcall
          refine ⟨hinv, ?_⟩
          by_cases hp : p = 0#64
          · rw [if_pos hp, objects_keep hkeep]
            exact .refused
          · rw [if_neg hp, objects_cons hkeep]
            have halloc := Objects.Step.alloc (o := bytesAt s'.vm.mem p sz.toNat)
              (objects_eq_none.mpr (hnew hp))
            rwa [length_bytesAt] at halloc
      | @kfree p sz s' hlive hcall =>
          obtain ⟨hinv, hkeep⟩ := h.kfree hlive hcall
          refine ⟨⟨blocks, hinv⟩, ?_⟩
          rw [objects_erase h.nodup hlive hkeep]
          refine .free fun hnone => objects_eq_none.mp hnone ?_
          exact List.mem_map.mpr ⟨(p, sz), hlive, rfl⟩
  | @store p sz i v hlive hi =>
      refine ⟨⟨blocks, h.setByte hlive hi⟩, ?_⟩
      rw [h.objects_setByte hlive hi]
      exact .store ((objects_eq_some h.nodup).mpr ⟨sz, hlive, rfl⟩)
        (by rwa [length_bytesAt])

/-! ## Runs -/

/-- **The heap is an object store** where each `kmalloc` fits. Every run of calls and client
stores after `kheap_init`, over any memory, is a run of the object store; so a byte that was
stored into an allocation is there as long as the allocation is live and the byte is not
stored over. -/
theorem heap_refines_objects {s s₀ : Kheap} {r : HeapRun} {ops : List ClientOp}
    (hinit : KheapInits s s₀)
    (hrun : Run (Guarded ClientOp.Fits ClientStep) ⟨s₀, []⟩ ops r) :
    Run Objects.Step (fun _ => none) (ops.map ClientOp.toObjects) r.objects ∧
      ∀ before p i v after, ops = before ++ .store p i v :: after →
        (∀ op ∈ after, op ≠ .call (.kfree p) ∧ ∀ w, op ≠ .store p i w) →
        ∃ sz, (p, sz) ∈ r.live ∧ i < sz.toNat ∧ r.heap.vm.mem (p + BitVec.ofNat 64 i) = v := by
  obtain ⟨⟨blocks, h⟩, hobjects⟩ := hrun.simulates (R := Objects.Step)
    (P := fun r => ∃ blocks, ClientHeap r.heap.vm.mem blocks r.live)
    HeapRun.objects ClientOp.toObjects ⟨[kheapStart], .start hinit.blockChain⟩
    fun r op r' ⟨blocks, h⟩ hstep => hstep.2.refines hstep.1 h
  refine ⟨hobjects, ?_⟩
  rintro before p i v after rfl hspare
  rw [List.map_append, List.map_cons] at hobjects
  obtain ⟨t, -, hrest⟩ := run_append.mp hobjects
  have hspares : ∀ op ∈ after.map ClientOp.toObjects, Objects.Spares p i op := by
    intro op hop
    obtain ⟨call, hcall, rfl⟩ := List.mem_map.mp hop
    exact spares_toObjects (hspare call hcall)
  obtain ⟨c, hc, hbyte⟩ := Objects.reads_back hrest hspares
  obtain ⟨sz, hlive, rfl⟩ := (objects_eq_some h.nodup).mp hc
  have hi : i < sz.toNat := by
    by_contra hle
    rw [List.getElem?_eq_none (by rw [length_bytesAt]; omega)] at hbyte
    exact absurd hbyte (by simp)
  rw [getElem?_bytesAt hi] at hbyte
  exact ⟨sz, hlive, hi, Option.some.inj hbyte⟩

/-- `busyHeap` with a byte stored into its allocation of 16 bytes. -/
def markedHeap : Kheap := { busyHeap with vm := busyHeap.vm.setByte 0x520#64 0x41#8 }

theorem markedHeap_finds {b : U64} : ¬ FindsFree markedHeap.vm.mem kheapStart b := by
  intro h
  cases h with
  | here _ hfree => exact hfree (by decide +kernel)
  | skip _ _ hrest =>
      rw [show Block.next markedHeap.vm.mem kheapStart = 0#64 by decide +kernel] at hrest
      cases hrest with
      | here hne _ => exact hne rfl
      | skip hne _ _ => exact hne rfl

theorem lowPageHeap_clientFits : ClientFits ⟨lowPageHeap, []⟩ 16#64 := by
  have hchain := blockList_one (m := lowPageHeap.vm.mem) (by decide +kernel)
  refine ⟨lowPageHeap_keepsChain 16#64, fun _ _ a ha => absurd ha List.not_mem_nil,
    fun _ b hb => ⟨fun c hc => ?_, fun a ha => absurd ha List.not_mem_nil⟩,
    fun _ hnone => ?_⟩
  · rw [List.mem_singleton.mp (hchain.listed_iff.mp hb.listed),
      List.mem_singleton.mp (hchain.listed_iff.mp hc)]
    exact ClientHeap.data_apart_header (by decide)
  · exact absurd (.here (by decide) (by decide +kernel)) (hnone kheapStart)

theorem markedHeap_clientFits : ClientFits ⟨markedHeap, [(0x51d#64, 16#64)]⟩ 45#64 := by
  have hchain := blockList_one (m := markedHeap.vm.mem) (by decide +kernel)
  have hmapped : ∀ vm, MapsHeap markedHeap vm → vm = markedHeap.vm := fun vm hvm =>
    hvm.of_mapped (by decide +kernel)
  have hone : ∀ {c}, Listed markedHeap.vm.mem c → c = kheapStart := fun hc =>
    List.mem_singleton.mp (hchain.listed_iff.mp hc)
  have hlive : ∀ {a : U64 × U64}, a ∈ [(0x51d#64, 16#64)] → a = (0x51d#64, 16#64) :=
    List.mem_singleton.mp
  refine ⟨⟨fun vm hvm b _ x _ => ?_, fun _ _ last _ _ _ => ⟨fun b hb => ?_, fun vm hvm => ?_⟩⟩,
    fun vm hvm a _ x _ => ?_, fun _ b hb => absurd hb markedHeap_finds,
    fun _ _ _ => ⟨⟨fun c hc => ?_, fun a ha => ?_⟩, by decide, fun a ha => ?_⟩⟩
  · rw [hmapped vm hvm]
  · rw [hone hb]
    exact apart_of_le (by decide) (by decide)
  · rw [hmapped vm hvm]
    decide +kernel
  · rw [hmapped vm hvm]
  · rw [hone hc]
    exact (apart_of_le (by decide) (by decide)).symm
  · rw [hlive ha]
    exact (apart_of_le (by decide) (by decide)).symm
  · rw [hlive ha]
    exact apart_of_le (by decide) (by decide)

/-- Two requests with a store between them: the byte is there at the end. -/
theorem heap_refines_objects_lowPageHeap : ∃ r : HeapRun,
    Run Objects.Step (fun _ => none)
      [.alloc 16, .store 0x51d#64 3 0x41#8, .alloc 45] r.objects ∧
    r.live = [(0x55a#64, 45#64), (0x51d#64, 16#64)] ∧ r.heap.vm.mem 0x520#64 = 0x41#8 := by
  have hrun : (kmalloc 3 markedHeap 45#64).map Prod.fst = some 0x55a#64 := by decide +kernel
  obtain ⟨⟨p, s₂⟩, hcall, rfl⟩ := Option.map_eq_some_iff.mp hrun
  have hlive : (0x51d#64, 16#64) ∈ [(0x51d#64, 16#64)] := List.mem_singleton_self _
  have hstep₁ : Guarded ClientOp.Fits ClientStep ⟨lowPageHeap, []⟩ (.call (.kmalloc 16#64))
      ⟨busyHeap, [(0x51d#64, 16#64)]⟩ :=
    ⟨lowPageHeap_clientFits, .call (.kmalloc_of_ne lowPageHeap_kmalloc (by decide))⟩
  have hstep₂ : Guarded ClientOp.Fits ClientStep ⟨busyHeap, [(0x51d#64, 16#64)]⟩
      (.store 0x51d#64 3 0x41#8) ⟨markedHeap, [(0x51d#64, 16#64)]⟩ :=
    ⟨trivial, .store hlive (by decide)⟩
  have hstep₃ : Guarded ClientOp.Fits ClientStep ⟨markedHeap, [(0x51d#64, 16#64)]⟩
      (.call (.kmalloc 45#64)) ⟨s₂, [(0x55a#64, 45#64), (0x51d#64, 16#64)]⟩ :=
    ⟨markedHeap_clientFits, .call (.kmalloc_of_ne ⟨3, hcall⟩ (by decide))⟩
  obtain ⟨hobjects, hbytes⟩ := heap_refines_objects lowPageHeap_inits
    (((Run.start.snoc hstep₁).snoc hstep₂).snoc hstep₃)
  obtain ⟨-, -, -, hbyte⟩ := hbytes [.call (.kmalloc 16#64)] 0x51d#64 3 0x41#8
    [.call (.kmalloc 45#64)] rfl (by simp)
  exact ⟨_, hobjects, rfl, hbyte⟩

end FacelessOS
