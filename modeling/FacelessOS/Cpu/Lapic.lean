import FacelessOS.Basic

/-!
# The local APIC (`lapic.c`)

The registers of the local APIC are memory-mapped. What matters of a call is the
sequence of its register writes; the loops that wait for the delivery status to
clear write nothing and end when the hardware lets them.
-/

namespace FacelessOS

def lapicEoi : U32 := 0x00b0#32
def lapicIcrlo : U32 := 0x0300#32
def lapicIcrhi : U32 := 0x0310#32

/-! Delivery mode -/
def icrInit : U32 := 0x00000500#32
def icrStartup : U32 := 0x00000600#32

/-! Destination mode, level and trigger mode -/
def icrPhysical : U32 := 0x00000000#32
def icrAssert : U32 := 0x00004000#32
def icrEdge : U32 := 0x00000000#32

/-! Destination shorthand -/
def icrNoShorthand : U32 := 0x00000000#32
def icrSelf : U32 := 0x00040000#32

def icrDestinationShift : ℕ := 24

/-- What the boot processor does while it wakes up the others. -/
inductive SmpEvent where
  | lapicWrite (reg data : U32)
  | log (call : LogCall)
  | pitSleep (ticks : U32)
deriving DecidableEq, Repr

def lapicSendEoi : List SmpEvent := [.lapicWrite lapicEoi 0#32]

/-- `lapic_get_id`, given the content of the register `LAPIC_ID`. -/
def lapicGetId (lapicId : U32) : U32 := lapicId >>> 24

def lapicSendInit (apicId : U32) : List SmpEvent :=
  [.lapicWrite lapicIcrhi (apicId <<< icrDestinationShift),
    .lapicWrite lapicIcrlo
      (icrInit ||| icrPhysical ||| icrAssert ||| icrEdge ||| icrNoShorthand),
    .log ⟨kinfo ++ "ICR send pending..\n", []⟩]

def lapicSendStartup (apicId vector : U32) : List SmpEvent :=
  [.lapicWrite lapicIcrhi (apicId <<< icrDestinationShift),
    .lapicWrite lapicIcrlo
      (vector ||| icrStartup ||| icrPhysical ||| icrAssert ||| icrEdge ||| icrSelf),
    .log ⟨kinfo ++ "ICR send pending..\n", []⟩]

end FacelessOS
