import JackCompiler.Proofs.SinglePassTranscript

/-!
An output that keeps the commands that were tried on it, and what is played on it while there is
room.
-/

namespace JackCompiler

/-- An output together with the commands that were tried on it, the latest first. -/
structure Recorder where
  device : Device
  attempts : List Command := []

namespace Recorder

def issue (recorder : Recorder) (command : Command) : Option IoFault × Recorder :=
  match recorder.device.issue command with
  | (fault, device) => (fault, ⟨device, command :: recorder.attempts⟩)

/-- The commands that were tried, in order. -/
def commands (recorder : Recorder) : List Command :=
  recorder.attempts.reverse

end Recorder

instance : Output Recorder where
  issue := Recorder.issue
  flush recorder := recorder.device.flush

/-- The text of commands, one on a line, as bytes. -/
def bytes (commands : List Command) : ByteArray :=
  (String.join (commands.map Command.line)).toUTF8

theorem bytes_nil : bytes [] = .empty :=
  rfl

theorem bytes_cons (command : Command) (rest : List Command) :
    bytes (command :: rest) = command.line.toUTF8 ++ bytes rest := by
  simp [bytes, String.join_cons]

theorem bytes_append (x y : List Command) : bytes (x ++ y) = bytes x ++ bytes y := by
  simp [bytes, String.join_append]

/-- An unlimited device never fails. -/
theorem unfailing_unlimited : Output.Unfailing fun recorder : Recorder =>
    recorder.device.limit = none := by
  rintro ⟨⟨limit, flushFails, written⟩, tried⟩ hlimit command
  obtain rfl : limit = none := hlimit
  exact ⟨_, rfl, rfl⟩

/-! ### Enough room -/

namespace Transcript

/-- The commands among the effects. -/
def commandsOf (effects : List Effect) : List Command :=
  commands ⟨effects, none⟩

/-- The records among the effects. -/
def recordsOf (effects : List Effect) : List LogRecord :=
  records ⟨effects, none⟩

section Limited

variable {limit : Option Nat} {flushFails : Bool} {written : ByteArray}
  {logged : List LogRecord} {tried : List Command}

/-- Effects that fit are played to the end. -/
theorem playOn_fits (effects : List Effect)
    (hfits : ∀ room, limit = some room →
      written.size + (bytes (commandsOf effects)).size ≤ room) :
    playOn logged (⟨⟨limit, flushFails, written⟩, tried⟩ : Recorder) effects =
      (none, (recordsOf effects).reverse ++ logged,
        ⟨⟨limit, flushFails, written ++ bytes (commandsOf effects)⟩,
          (commandsOf effects).reverse ++ tried⟩) := by
  induction effects generalizing written logged tried with
  | nil => simp [playOn, commandsOf, recordsOf, records, commands, bytes_nil]
  | cons effect rest ih =>
    cases effect with
    | logged record =>
      rw [playOn, ih hfits]
      simp [commandsOf, recordsOf, records, commands]
    | issued command =>
      have hcommands : commandsOf (.issued command :: rest) = command :: commandsOf rest := rfl
      rw [hcommands, bytes_cons] at hfits ⊢
      simp only [ByteArray.size_append] at hfits
      have hissue : Output.issue (⟨⟨limit, flushFails, written⟩, tried⟩ : Recorder) command =
          (none, ⟨⟨limit, flushFails, written ++ command.line.toUTF8⟩, command :: tried⟩) := by
        change Recorder.issue _ _ = _
        rw [Recorder.issue, Device.issue, Device.write]
        cases limit with
        | none => rfl
        | some room =>
          have hroom := hfits room rfl
          simp only [if_pos (show command.line.toUTF8.size ≤ room - written.size by omega)]
      have hrest : ∀ room, limit = some room →
          (written ++ command.line.toUTF8).size + (bytes (commandsOf rest)).size ≤ room := by
        intro room hlimit
        have hroom := hfits room hlimit
        rw [ByteArray.size_append]
        omega
      rw [playOn, hissue]
      dsimp only
      rw [ih hrest, ByteArray.append_assoc, List.reverse_cons, List.append_assoc]
      rfl

end Limited

/-- What is delivered to a device that is empty and has enough room. -/
theorem deliverOn_fits (transcript : Transcript) (flushFails : Bool) {limit : Option Nat}
    (hfits : ∀ room, limit = some room → (bytes transcript.commands).size ≤ room) :
    transcript.deliverOn (⟨⟨limit, flushFails, .empty⟩, []⟩ : Recorder) =
      ⟨⟨⟨limit, flushFails, bytes transcript.commands⟩, transcript.commands.reverse⟩,
        transcript.records,
        transcript.failure.or (if flushFails then some (.io .flushFailed) else none)⟩ := by
  have hroom (room : Nat) (hlimit : limit = some room) :
      ByteArray.empty.size + (bytes (commandsOf transcript.effects)).size ≤ room := by
    rw [ByteArray.size_empty, Nat.zero_add]
    exact hfits room hlimit
  rw [deliverOn, playOn_fits transcript.effects hroom, List.append_nil, List.append_nil,
    ByteArray.empty_append]
  dsimp only
  rw [List.reverse_reverse]
  cases flushFails <;> rfl

/-- What is delivered to a device without a limit. -/
theorem deliverOn_unlimited (transcript : Transcript) :
    transcript.deliverOn ({ device := {} } : Recorder) =
      ⟨⟨{ written := bytes transcript.commands }, transcript.commands.reverse⟩,
        transcript.records, transcript.failure⟩ := by
  have hunlimited (room : Nat) (hroom : none = some room) :
      (bytes transcript.commands).size ≤ room := nomatch hroom
  refine (transcript.deliverOn_fits false hunlimited).trans ?_
  simp

end Transcript

end JackCompiler
