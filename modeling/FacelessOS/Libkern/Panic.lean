import FacelessOS.Debug.LogCalls

/-!
# Panics (`panic.c`)

Both functions clear the screen, print a banner and a line with one string in it.
-/

namespace FacelessOS

open ByteStore

def panicBanner : List LogCall :=
  [⟨"\x1b[H\x1b[2J\x1b[3J", []⟩, ⟨"\x1b[91m** KERNEL PANIC **\n", []⟩]

/-- `panic`, up to `cli; hlt`. -/
def panic (panicMsg : U64) : List LogCall := panicBanner ++ [⟨"\x1b[91m%s\n", [panicMsg]⟩]

/-- `fault_type` after the `switch` of `cpu_panic`. -/
def faultType (vectorFired : U32) : String :=
  match vectorFired.toNat with
  | 0x0 => "Divide Error"
  | 0x1 => "Debug Exception"
  | 0x3 => "Breakpoint Exception"
  | 0x4 => "Overflow Exception"
  | 0x5 => "Boundrange Exceeded"
  | 0x6 => "Invalid Opcode"
  | 0x7 => "Device Not Avl"
  | 0x8 => "Double Fault"
  | 0xA => "Invalid TSS"
  | 0xB => "Segment Not Present"
  | 0xC => "Stack Segment Fault"
  | 0xD => "General Protection Fault"
  | 0xE => "Page Fault"
  | _ => "Unknown Fault"

/-- `cpu_panic`, where the literals lie at these addresses. -/
def cpuPanic (address : String → U64) (vectorFired : U32) : List LogCall :=
  panicBanner ++ [⟨"\x1b[91mCaught: %s\n", [address (faultType vectorFired)]⟩]

/-- What they print. -/
def panicText (line : String) (message : List U8) : List U8 :=
  bytes "\x1b[H\x1b[2J\x1b[3J" ++ (bytes "\x1b[91m** KERNEL PANIC **\n" ++
    (bytes line ++ (message ++ [ascii '\n'])))

theorem plain_clear : Plain (bytes "\x1b[H\x1b[2J\x1b[3J") := by
  simp [Plain, bytes, ascii]

theorem plain_banner : Plain (bytes "\x1b[91m** KERNEL PANIC **\n") := by
  simp [Plain, bytes, ascii]

def messageItems : List Item := [.conv .s, .char (ascii '\n') (by decide)]

theorem logsOver_panic {mem : Store 64} {msg : U64} {message : List U8} {fmt line : String}
    (hfmt : bytes fmt = bytes line ++ encode messageItems)
    (hline : Plain (bytes line)) (hmsg : (strAt mem msg).Holds message) :
    LogsOver mem (panicBanner ++ [⟨fmt, [msg]⟩]) (panicText line message) := by
  have hlast : LogsOver mem [⟨fmt, [msg]⟩] (bytes line ++ (message ++ [ascii '\n']) ++ []) := by
    have hsep : Separated messageItems := trivial
    refine LogsOver.call (hfmt.trans (encode_plainItems hline).symm)
      ((separated_plainItems hline).mpr hsep) (renders_plainItems hline ?_) .nil
    exact .conv hmsg (.char .nil)
  rw [List.append_nil] at hlast
  exact .plain plain_clear (.plain plain_banner hlast)

/-- `cpu_panic` reports the name of the fault. -/
theorem cpuPanic_prints {mem : Store 64} {address : String → U64} {vectorFired : U32}
    (h : (strAt mem (address (faultType vectorFired))).Holds (bytes (faultType vectorFired))) :
    LogsOver mem (cpuPanic address vectorFired)
      (panicText "\x1b[91mCaught: " (bytes (faultType vectorFired))) :=
  logsOver_panic (by simp [bytes, messageItems, Conv.letter]) (by simp [Plain, bytes, ascii]) h

theorem panic_prints {mem : Store 64} {msg : U64} {message : List U8}
    (h : (strAt mem msg).Holds message) :
    LogsOver mem (panic msg) (panicText "\x1b[91m" message) :=
  logsOver_panic (by simp [bytes, messageItems, Conv.letter]) (by simp [Plain, bytes, ascii]) h

end FacelessOS
