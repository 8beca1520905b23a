import FacelessOS.Lib.ByteStore
import FacelessOS.Memory.Pmm

/-!
# The virtual memory manager (`vmm.c`)

The page tables live in physical memory, which the kernel reads and writes
through pointers equal to the physical addresses. The memory map the frame
allocator works on is kept apart from the bytes written here.

`trace` is ghost state: it records, latest first, what `pmm_alloc` returned and
which bytes were stored, and no function of the kernel reads it.
-/

namespace FacelessOS

open ByteStore

def pageBitPPresent : U32 := 1
def pageBitRwWritable : U32 := 1 <<< 1
def pageBitUsUser : U32 := 1 <<< 2
def pageBitAAccessed : U32 := 1 <<< 5
def pageBitDDirty : U32 := 1 <<< 6
def pageAddrMask : U64 := 0x000ffffffffff000#64

/-- What the memory functions did, for the statements about whole calls. -/
inductive MemEvent where
  /-- `pmm_alloc` took this page, or found no memory left. -/
  | pmmAlloc (ret : Option U64)
  /-- This many bytes were stored from this address on. -/
  | stored (addr : U64) (n : ℕ)
deriving DecidableEq, Repr

/-- Physical memory, the statics of `vmm.c` and `pmm.c`, and `CR3`. -/
structure Vm where
  mem : Store 64
  pml4 : U64
  cr3 : U64
  pmm : Pmm
  trace : List MemEvent

instance tableSize_neZero : NeZero 512 := ⟨by decide⟩

namespace Vm

def pmmAlloc (s : Vm) : U64 × Vm :=
  let (ret, pmm) := FacelessOS.pmmAlloc s.pmm
  (ret, { s with
    pmm := pmm, trace := .pmmAlloc ((takeFrame s.pmm.gmmap).map Prod.fst) :: s.trace })

def memzero (s : Vm) (ptr : U64) (n : ℕ) : Vm :=
  { s with mem := fill s.mem ptr n 0, trace := .stored ptr n :: s.trace }

/-- `pmm_allocz`: `pmm_alloc`, then 512 zero words from the returned pointer,
which is not checked. -/
def pmmAllocz (s : Vm) : U64 × Vm :=
  let (alloc, s) := s.pmmAlloc
  (alloc, s.memzero alloc (512 * 8))

def entryAddr (table : U64) (i : Fin 512) : U64 := table + BitVec.ofNat 64 (8 * i)

def entry (s : Vm) (table : U64) (i : Fin 512) : U64 := load64 s.mem (entryAddr table i)

def setEntry (s : Vm) (table : U64) (i : Fin 512) (v : U64) : Vm :=
  { s with
    mem := store64 s.mem (entryAddr table i) v
    trace := .stored (entryAddr table i) 8 :: s.trace }

end Vm

def present (entry : U64) : Bool := entry &&& pageBitPPresent.setWidth 64 ≠ 0#64

def tableIdx (addr : U64) (shift : ℕ) : Fin 512 :=
  ⟨(addr >>> shift &&& 0x1FF#64).toNat, by
    rw [BitVec.toNat_and]
    exact Nat.lt_succ_of_le Nat.and_le_right⟩

def pml4Idx (addr : U64) : Fin 512 := tableIdx addr 39
def pdptIdx (addr : U64) : Fin 512 := tableIdx addr 30
def pdIdx (addr : U64) : Fin 512 := tableIdx addr 21
def ptIdx (addr : U64) : Fin 512 := tableIdx addr 12

/-- The value `map_page` puts into an entry for the page or table at `addr`. -/
def mkEntry (addr : U64) (flags : U32) : U64 :=
  (addr &&& pageAddrMask) ||| flags.setWidth 64

/-- Allocate a zeroed frame as the next table and enter it in
`table->entries[idx]`: the frame and the state. -/
def newTable (s : Vm) (table : U64) (idx : Fin 512) (flags : U32) : U64 × Vm :=
  let (frame, s) := s.pmmAllocz
  let s := s.memzero frame pageSize
  (frame, s.setEntry table idx (mkEntry frame flags))

/-- One level of the walk of `map_page`: if `table->entries[idx]` is not
present, a new table is entered there and itself mapped (`recur`); the result
is the table the entry points to afterwards. -/
def nextTable (recur : Vm → U64 → U32 → Option Vm) (s : Vm) (table : U64)
    (idx : Fin 512) (flags : U32) : Option (Vm × U64) :=
  if present (s.entry table idx) then
    some (s, s.entry table idx &&& pageAddrMask)
  else
    let (frame, s) := newTable s table idx flags
    (recur s frame flags).map fun s => (s, s.entry table idx &&& pageAddrMask)

/-- `map_page`. The recursion is bounded by fuel; `none` is a call cut off. -/
def mapPage : ℕ → Vm → U64 → U32 → Option Vm
  | 0, _, _, _ => none
  | fuel + 1, s, logical, flags => do
      let flags := flags ||| pageBitPPresent
      let (s, pdpt) ← nextTable (mapPage fuel) s s.pml4 (pml4Idx logical) flags
      let (s, pdt) ← nextTable (mapPage fuel) s pdpt (pdptIdx logical) flags
      let (s, pt) ← nextTable (mapPage fuel) s pdt (pdIdx logical) flags
      if present (s.entry pt (ptIdx logical)) then some s
      else some (s.setEntry pt (ptIdx logical) (mkEntry logical flags))

def unmapPage (s : Vm) (logical : U64) : U8 × Vm :=
  if logical.toNat % 0x1000 ≠ 0 then (0, s)
  else
    let pdpt := s.entry s.pml4 (pml4Idx logical) &&& pageAddrMask
    let pdt := s.entry pdpt (pdptIdx logical) &&& pageAddrMask
    let pt := s.entry pdt (pdIdx logical) &&& pageAddrMask
    if present (s.entry pt (ptIdx logical)) then
      (1, s.setEntry pt (ptIdx logical)
        ((logical &&& pageAddrMask) &&& ~~~ (pageBitPPresent.setWidth 64)))
    else (1, s)

/-- `vmm_init`: the allocated frame is dropped for the table in `CR3`, the
`NULL` page is unmapped, and the table is loaded again. -/
def vmmInit (s : Vm) : Vm :=
  let (alloc, s) := s.pmmAllocz
  let s := { s with pml4 := alloc }
  let s := { s with pml4 := s.cr3 }
  let s := (unmapPage s 0).2
  { s with cr3 := s.pml4 }

/-- A call of `map_page` returns, in this state. -/
def MapsPage (s : Vm) (logical : U64) (flags : U32) (s' : Vm) : Prop :=
  ∃ fuel, mapPage fuel s logical flags = some s'

end FacelessOS
