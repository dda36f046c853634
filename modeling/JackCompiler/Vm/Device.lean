import JackCompiler.Diagnostic

/-!
Outputs that may run out of room or fail to flush.
-/

namespace JackCompiler

structure Device where
  /-- How many bytes the device takes in total. -/
  limit : Option Nat := none
  flushFails : Bool := false
  written : ByteArray := .empty

namespace Device

/-- Writes the bytes. If there is too little room, the bytes that fit are written and the device
is full. -/
def write (device : Device) (bytes : ByteArray) : Option IoFault × Device :=
  match device.limit with
  | none => (none, { device with written := device.written ++ bytes })
  | some limit =>
    let room := limit - device.written.size
    if bytes.size ≤ room then (none, { device with written := device.written ++ bytes })
    else
      (some .deviceFull, { device with written := device.written ++ bytes.extract 0 room })

def issue (device : Device) (command : Command) : Option IoFault × Device :=
  device.write command.line.toUTF8

def flush (device : Device) : Option IoFault :=
  if device.flushFails then some .flushFailed else none

end Device

/-- Whatever takes commands one by one. It may fail at every command, and in the end when it is
flushed. -/
class Output (ω : Type) where
  issue (output : ω) (command : Command) : Option IoFault × ω
  flush (output : ω) : Option IoFault

instance : Output Device where
  issue := Device.issue
  flush := Device.flush

end JackCompiler
