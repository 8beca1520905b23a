import FacelessOS.Basic

/-!
# The bootloader's tag list (`stivale2.h`, `get_tag` of `kernel.c`)

The bootloader hands the kernel a linked list of tags. A tag is read through
the struct its identifier names, so a tag of another kind is one whose
identifier is none of the three the kernel looks for.
-/

namespace FacelessOS

def stivale2StructTagTerminalId : U64 := 0xc2b3f4c3233b0974#64
def stivale2StructTagMemmapId : U64 := 0x2187f79e8612de07#64
def stivale2StructTagRsdpId : U64 := 0x9e1786930a375e78#64

def stivale2MmapUsable : U32 := 1
def stivale2MmapBootloaderReclaimable : U32 := 0x1000
def stivale2MmapKernelAndModules : U32 := 0x1001

structure MmapEntry where
  base : U64
  length : U64
  type : U32
deriving DecidableEq, Repr

/-- A tag of the list, with the fields the kernel reads through it. -/
inductive Stivale2Tag where
  | terminal (termWrite : U64)
  | memmap (memmap : List MmapEntry)
  | rsdp (rsdp : U64)
  | other (identifier : U64)
      (unknown : identifier ≠ stivale2StructTagTerminalId ∧
        identifier ≠ stivale2StructTagMemmapId ∧
        identifier ≠ stivale2StructTagRsdpId)

def Stivale2Tag.identifier : Stivale2Tag → U64
  | .terminal _ => stivale2StructTagTerminalId
  | .memmap _ => stivale2StructTagMemmapId
  | .rsdp _ => stivale2StructTagRsdpId
  | .other identifier _ => identifier

/-- `get_tag`: the first tag of the list with this identifier; `none` is `NULL`. -/
def getTag : List Stivale2Tag → U64 → Option Stivale2Tag
  | [], _ => none
  | curTag :: next, id =>
      if curTag.identifier = id then some curTag else getTag next id

end FacelessOS
