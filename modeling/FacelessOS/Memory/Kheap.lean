import FacelessOS.Lib.LinkedList
import FacelessOS.Memory.Vmm

/-!
# The kernel heap (`kheap.c`)

A first-fit allocator over one linked list of blocks. The heap's addresses are
mapped to the physical frames of the same addresses, so its bytes are read and
written in the same memory as the page tables.

`struct Block` is packed: `is_free` at offset 0, `next` at 1, `prev` at 9 (never
used), `size` at 17, `magic` at 25, and the data from offset 29 on, which is the
pointer `kmalloc` returns. `sizeof(struct Block)` counts the first data byte and
is 30.
-/

namespace FacelessOS

open ByteStore LinkedList

def gb : U64 := 0x40000000#64
def kheapStart : U64 := 0x500#64
def kheapLimit : U64 := 0x500#64 + gb
def kheapEnd : U64 := 0x500#64 + (kheapLimit + 1#64)
def kheapMagic : U32 := 0xCA75101#32

def sizeofBlock : U64 := 30#64

/-- The bytes of a block before its data. -/
def headerSize : ℕ := 29

namespace Block

def isFree (m : Store 64) (b : U64) : U8 := m b
def next (m : Store 64) (b : U64) : U64 := load64 m (b + 1#64)
def size (m : Store 64) (b : U64) : U64 := load64 m (b + 17#64)
def magic (m : Store 64) (b : U64) : U32 := load32 m (b + 25#64)

def dataStart (b : U64) : U64 := b + 29#64

end Block

namespace Vm

def setIsFree (s : Vm) (b : U64) (v : U8) : Vm :=
  { s with mem := store8 s.mem b v, trace := .stored b 1 :: s.trace }

def setNext (s : Vm) (b v : U64) : Vm :=
  { s with
    mem := store64 s.mem (b + 1#64) v, trace := .stored (b + 1#64) 8 :: s.trace }

def setSize (s : Vm) (b v : U64) : Vm :=
  { s with
    mem := store64 s.mem (b + 17#64) v, trace := .stored (b + 17#64) 8 :: s.trace }

def setMagic (s : Vm) (b : U64) (v : U32) : Vm :=
  { s with
    mem := store32 s.mem (b + 25#64) v, trace := .stored (b + 25#64) 4 :: s.trace }

/-- The stores of `first_fit` that hang a block at `next` behind `prev`. The new
block is found again through `prev->next`, and the size asked for goes into
`prev`. -/
def appendBlock (s : Vm) (prev next size : U64) : Vm :=
  let s := s.setNext prev next
  let s := s.setMagic (Block.next s.mem prev) kheapMagic
  s.setSize prev size

end Vm

/-- Memory with the static `mem_allocated`; the static `kheap` is `kheapStart`. -/
structure Kheap where
  vm : Vm
  memAllocated : U64

def kheapFlags : U32 := pageBitPPresent ||| pageBitRwWritable

def kheapInit (fuel : ℕ) (s : Kheap) : Option Kheap := do
  let vm ← mapPage fuel s.vm kheapStart kheapFlags
  let vm := vm.setNext kheapStart 0#64
  let vm := vm.setIsFree kheapStart 1#8
  let vm := vm.setSize kheapStart 0#64
  let vm := vm.setMagic kheapStart kheapMagic
  some { s with vm := vm }

/-- The loop of `first_fit`: `current` and `prev` where it stops, `current`
being `NULL` if the list ends without a free block. The list may be circular,
so the loop runs on fuel. -/
def firstFitLoop (m : Store 64) : ℕ → U64 → U64 → Option (U64 × U64)
  | 0, _, _ => none
  | fuel + 1, current, prev =>
      if current = 0#64 then some (current, prev)
      else if Block.isFree m current = 0#8 then
        firstFitLoop m fuel (Block.next m current) current
      else some (current, prev)

/-- `first_fit`: the block found or made, or `NULL`. `prev + sizeof(struct Block)`
steps over that many blocks, not bytes. -/
def firstFit (fuel : ℕ) (s : Kheap) (size : U64) : Option (U64 × Kheap) := do
  let vm ← mapPage fuel s.vm (kheapStart + s.memAllocated) kheapFlags
  let s := { s with vm := vm }
  if s.memAllocated + size ≥ kheapLimit then some (0#64, s)
  else
    let (current, prev) ← firstFitLoop s.vm.mem fuel kheapStart 0#64
    if current ≠ 0#64 then some (current, s)
    else if prev + sizeofBlock * sizeofBlock > kheapEnd then some (0#64, s)
    else
      let vm := s.vm.appendBlock prev (kheapStart + s.memAllocated + size) size
      some (Block.next vm.mem prev, { s with vm := vm })

def kmalloc (fuel : ℕ) (s : Kheap) (sz : U64) : Option (U64 × Kheap) := do
  let (hole, s) ← firstFit fuel s sz
  if hole = 0#64 then some (0#64, s)
  else
    some (Block.dataStart hole,
      { vm := s.vm.setIsFree hole 0#8, memAllocated := s.memAllocated + sz })

/-- `kfree`, which panics with a message where the magic number is missing. -/
def kfree (s : Kheap) (block : U64) : Except String Kheap :=
  let blk := block - sizeofBlock + 1#64
  if Block.magic s.vm.mem blk ≠ kheapMagic then
    .error "Invalid free or kernel heap corruption detected..\n"
  else
    let vm := s.vm.setIsFree blk 1#8
    .ok { vm := vm, memAllocated := s.memAllocated - Block.size vm.mem blk }

/-- A call of `kheap_init` returns, in this state. -/
def KheapInits (s s' : Kheap) : Prop := ∃ fuel, kheapInit fuel s = some s'

/-- A call of `kmalloc` returns this pointer, in this state. -/
def Kmallocs (s : Kheap) (sz p : U64) (s' : Kheap) : Prop :=
  ∃ fuel, kmalloc fuel s sz = some (p, s')

/-! ## What the calls do -/

def Listed (m : Store 64) (b : U64) : Prop := Linked (Block.next m) 0#64 kheapStart b

def BlockList (m : Store 64) (blocks : List U64) : Prop :=
  Chain (Block.next m) 0#64 kheapStart blocks

theorem BlockList.listed_iff {m : Store 64} {blocks : List U64} (h : BlockList m blocks)
    {b : U64} : Listed m b ↔ b ∈ blocks :=
  h.linked_iff

theorem blockList_one {m : Store 64} (hnext : Block.next m kheapStart = 0#64) :
    BlockList m [kheapStart] :=
  .cons (by decide) (by rw [hnext]; exact .nil)

def FirstFree (m : Store 64) (b : U64) : Prop :=
  ∃ before after, BlockList m (before ++ b :: after) ∧
    (∀ c ∈ before, Block.isFree m c = 0#8) ∧ Block.isFree m b ≠ 0#8

/-- The search from a block, behind a previous one, stops at `c`, behind `p`. -/
inductive StopsAt (m : Store 64) (c p : U64) : U64 → U64 → Prop where
  | atEnd : c = 0#64 → StopsAt m c p c p
  | atFree : c ≠ 0#64 → Block.isFree m c ≠ 0#8 → StopsAt m c p c p
  | skip {current prev : U64} : current ≠ 0#64 → Block.isFree m current = 0#8 →
      StopsAt m c p (Block.next m current) current → StopsAt m c p current prev

theorem firstFitLoop_stopsAt {m : Store 64} {fuel : ℕ} {current prev c p : U64}
    (hloop : firstFitLoop m fuel current prev = some (c, p)) : StopsAt m c p current prev := by
  induction fuel generalizing current prev with
  | zero => exact absurd hloop (by simp [firstFitLoop])
  | succ fuel ih =>
      rw [firstFitLoop] at hloop
      split at hloop
      · rename_i hz
        obtain ⟨rfl, rfl⟩ := Prod.mk.inj (Option.some.inj hloop)
        exact .atEnd hz
      · rename_i hne
        split at hloop
        · rename_i hbusy
          exact .skip hne hbusy (ih hloop)
        · rename_i hfree
          obtain ⟨rfl, rfl⟩ := Prod.mk.inj (Option.some.inj hloop)
          exact .atFree hne hfree

theorem firstFitLoop_spec {m : Store 64} {fuel : ℕ} {current prev c p : U64}
    {l : List U64} (h : Chain (Block.next m) 0#64 current l)
    (hloop : firstFitLoop m fuel current prev = some (c, p)) :
    (c = 0#64 ∧ (∀ b ∈ l, Block.isFree m b = 0#8) ∧ p = l.getLastD prev) ∨
    (c ≠ 0#64 ∧ ∃ before after, l = before ++ c :: after ∧
      (∀ b ∈ before, Block.isFree m b = 0#8) ∧ Block.isFree m c ≠ 0#8) := by
  have hstops := firstFitLoop_stopsAt hloop
  clear hloop
  induction h generalizing prev with
  | nil =>
      cases hstops with
      | atEnd hz => exact Or.inl ⟨hz, fun b hb => absurd hb List.not_mem_nil, rfl⟩
      | atFree hne _ => exact absurd rfl hne
      | skip hne _ _ => exact absurd rfl hne
  | @cons a l ha hl ih =>
      cases hstops with
      | atEnd hz => exact absurd hz ha
      | atFree _ hfree =>
          exact Or.inr ⟨ha, [], l, rfl, fun b hb => absurd hb List.not_mem_nil, hfree⟩
      | skip _ hbusy hrest =>
          rcases ih hrest with ⟨hc, hall, hp⟩ | ⟨hc, before, after, rfl, hall, hfree⟩
          · refine Or.inl ⟨hc, ?_, by rw [hp, List.getLastD_cons]⟩
            exact List.forall_mem_cons.mpr ⟨hbusy, hall⟩
          · exact Or.inr ⟨hc, a :: before, after, rfl,
              List.forall_mem_cons.mpr ⟨hbusy, hall⟩, hfree⟩

/-- Whatever the list, the search stops at a listed block, and behind one that ends the
list where it finds none. -/
theorem firstFitLoop_listed {m : Store 64} {fuel : ℕ} {current prev c p : U64}
    (hcur : current = 0#64 ∨ Listed m current)
    (hprev : current = 0#64 → Listed m prev ∧ Block.next m prev = 0#64)
    (hloop : firstFitLoop m fuel current prev = some (c, p)) :
    (c ≠ 0#64 → Listed m c) ∧ (c = 0#64 → Listed m p ∧ Block.next m p = 0#64) := by
  have hstops := firstFitLoop_stopsAt hloop
  clear hloop
  induction hstops with
  | atEnd hz => exact ⟨fun hne => absurd hz hne, hprev⟩
  | atFree hne _ => exact ⟨fun _ => hcur.resolve_left hne, fun hz => absurd hz hne⟩
  | @skip current prev hne _ _ ih =>
      have hlisted := hcur.resolve_left hne
      refine ih ?_ fun hz => ⟨hlisted, hz⟩
      by_cases hz : Block.next m current = 0#64
      · exact Or.inl hz
      · exact Or.inr (hlisted.next hz)

end FacelessOS
