import JackCompiler.Proofs.Recording
import JackCompiler.Proofs.SinglePassSources

/-!
Compiling onto an output that has little room or cannot be flushed. Such an output changes nothing
of what is compiled: it holds the start of what an unlimited one would hold, and compiling ends with
the first command that it has no room for.
-/

namespace JackCompiler

/-- An empty output with room for `limit` bytes. -/
abbrev Device.withRoom (limit : Nat) (flushFails : Bool) : Device :=
  { limit := some limit, flushFails }

/-! ### Playing on a limited device -/

namespace Transcript

section Limited

variable {room : Nat} {flushFails : Bool} {written : ByteArray} {logged : List LogRecord}
  {tried : List Command}

/-- A command without enough room is the last to be tried. The output is filled up with its
start. -/
theorem playOn_full (command : Command) (after : List Effect) (hwritten : written.size ≤ room)
    (hfull : room < written.size + command.line.toUTF8.size) :
    playOn logged (⟨⟨some room, flushFails, written⟩, tried⟩ : Recorder)
        (.issued command :: after) =
      (some .deviceFull, logged,
        ⟨⟨some room, flushFails,
          written ++ command.line.toUTF8.extract 0 (room - written.size)⟩, command :: tried⟩) := by
  have hroom : ¬command.line.toUTF8.size ≤ room - written.size := by omega
  have hissue : Output.issue (⟨⟨some room, flushFails, written⟩, tried⟩ : Recorder) command =
      (some .deviceFull, ⟨⟨some room, flushFails,
        written ++ command.line.toUTF8.extract 0 (room - written.size)⟩, command :: tried⟩) := by
    change Recorder.issue _ _ = _
    rw [Recorder.issue, Device.issue, Device.write]
    simp only [if_neg hroom]
  rw [playOn, hissue]

/-- Of effects that do not fit as a whole, there is a first command that does not fit. -/
theorem exists_full (effects : List Effect) (hwritten : written.size ≤ room)
    (hfull : room < written.size + (bytes (commandsOf effects)).size) :
    ∃ before command after, effects = before ++ .issued command :: after ∧
      written.size + (bytes (commandsOf before)).size ≤ room ∧
      room < written.size + (bytes (commandsOf before)).size + command.line.toUTF8.size := by
  induction effects generalizing written with
  | nil =>
    have hempty : bytes (commandsOf []) = .empty := rfl
    rw [hempty] at hfull
    exact absurd hfull (Nat.not_lt.2 hwritten)
  | cons effect rest ih =>
    cases effect with
    | logged record =>
      obtain ⟨before, command, after, rfl, hfits, hlimit⟩ := ih hwritten hfull
      exact ⟨.logged record :: before, command, after, rfl, hfits, hlimit⟩
    | issued command =>
      have hcommands (rest : List Effect) :
          commandsOf (.issued command :: rest) = command :: commandsOf rest := rfl
      by_cases hfits : written.size + command.line.toUTF8.size ≤ room
      · rw [hcommands, bytes_cons, ByteArray.size_append] at hfull
        rw [← ByteArray.size_append] at hfits
        have hrest : room <
            (written ++ command.line.toUTF8).size + (bytes (commandsOf rest)).size := by
          rw [ByteArray.size_append]
          omega
        obtain ⟨before, other, after, rfl, hbefore, hlimit⟩ := ih hfits hrest
        rw [ByteArray.size_append] at hbefore hlimit
        refine ⟨.issued command :: before, other, after, rfl, ?_, ?_⟩
        · rw [hcommands, bytes_cons, ByteArray.size_append]
          omega
        · rw [hcommands, bytes_cons, ByteArray.size_append]
          omega
      · exact ⟨[], command, rest, rfl, hwritten, Nat.not_le.1 hfits⟩

end Limited

/-! ### Delivery -/

variable (transcript : Transcript) (flushFails : Bool)

/-- What is delivered to a device without enough room: it is filled up, and the first command that
does not fit is the last to be tried. -/
theorem deliverOn_full {limit : Nat} (hfull : limit < (bytes transcript.commands).size) :
    ∃ before command after, transcript.effects = before ++ .issued command :: after ∧
      (bytes (commandsOf before)).size ≤ limit ∧
      limit < (bytes (commandsOf before ++ [command])).size ∧
      transcript.deliverOn ({ device := .withRoom limit flushFails } : Recorder) =
        ⟨⟨⟨some limit, flushFails, (bytes transcript.commands).extract 0 limit⟩,
          (commandsOf before ++ [command]).reverse⟩, recordsOf before,
          some (.io .deviceFull)⟩ := by
  have hempty : limit < ByteArray.empty.size + (bytes (commandsOf transcript.effects)).size := by
    rwa [ByteArray.size_empty, Nat.zero_add]
  obtain ⟨before, command, after, heffects, hbefore, hcommand⟩ :=
    exists_full transcript.effects (Nat.zero_le limit) hempty
  have hroom (room : Nat) (hlimit : some limit = some room) :
      ByteArray.empty.size + (bytes (commandsOf before)).size ≤ room :=
    Option.some.inj hlimit ▸ hbefore
  have hcommands : transcript.commands = commandsOf before ++ command :: commandsOf after := by
    rw [commands, heffects, List.filterMap_append]
    rfl
  rw [ByteArray.size_empty, Nat.zero_add] at hbefore hcommand
  -- the start of the command fills the room that is left
  have hwritten : bytes (commandsOf before) ++
      command.line.toUTF8.extract 0 (limit - (bytes (commandsOf before)).size) =
        (bytes transcript.commands).extract 0 limit := by
    have hstart : (bytes (commandsOf before)).extract 0 limit = bytes (commandsOf before) := by
      rw [← Nat.max_eq_left hbefore, ByteArray.extract_zero_max_size]
    have hlater : limit - (bytes (commandsOf before) ++ command.line.toUTF8).size = 0 := by
      rw [ByteArray.size_append]
      omega
    rw [hcommands, bytes_append, bytes_cons, ← ByteArray.append_assoc, ByteArray.extract_append,
      ByteArray.extract_append, hstart, hlater, Nat.zero_sub, Nat.zero_sub,
      ByteArray.extract_same, ByteArray.append_empty]
  refine ⟨before, command, after, heffects, hbefore, ?_, ?_⟩
  · rwa [bytes_append, bytes_cons, bytes_nil, ByteArray.append_empty, ByteArray.size_append]
  · rw [deliverOn, heffects, playOn_append, playOn_fits before hroom, List.append_nil,
      List.append_nil, ByteArray.empty_append]
    dsimp only
    rw [playOn_full command after hbefore hcommand, hwritten, List.reverse_append]
    dsimp only
    rw [List.reverse_reverse]
    rfl

end Transcript

/-! ### Compiling -/

/-- Compiling onto a device with room for `limit` bytes, against compiling onto one without a
limit. -/
structure Pass.Result.IsLimited (whole : Pass.Result Recorder) (limit : Nat) (flushFails : Bool)
    (limited : Pass.Result Recorder) : Prop where
  /-- The device gets the first `limit` bytes. -/
  written : limited.output.device.written = whole.output.device.written.extract 0 limit
  full : limited.failure = some (.io .deviceFull) ↔ limit < whole.output.device.written.size
  notFlushed : whole.output.device.written.size ≤ limit →
    (limited.failure = some (.io .flushFailed) ↔ whole.failure = none ∧ flushFails = true)
  same : whole.output.device.written.size ≤ limit → limited.failure ≠ some (.io .flushFailed) →
    limited.failure = whole.failure
  /-- Nothing is tried after the first command that does not fit. -/
  tried : limit < whole.output.device.written.size →
    ∃ before command after, whole.output.commands = before ++ command :: after ∧
      (bytes before).size ≤ limit ∧ limit < (bytes (before ++ [command])).size ∧
      limited.output.commands = before ++ [command]
  all : whole.output.device.written.size ≤ limit → limited.output.commands = whole.output.commands
  records : limited.records <+: whole.records
  nothing : ∀ error, whole.failure = some (.lexical error) →
    limited.output = { device := .withRoom limit flushFails }

/-- A transcript that fails for reasons of its own, and before it has done anything if the text is
not made of tokens. -/
structure Transcript.IsOwn (transcript : Transcript) : Prop where
  failure_ne : ∀ fault, transcript.failure ≠ some (.io fault)
  effects_eq : ∀ error, transcript.failure = some (.lexical error) → transcript.effects = []

theorem Transcript.isOwn_lexical (error : LexicalError) :
    (⟨[], some (.lexical error)⟩ : Transcript).IsOwn :=
  ⟨nofun, fun _ _ => rfl⟩

theorem Reader.isOwn_transcript (reader : Reader) : reader.transcript.IsOwn := by
  have hcases (diagnostic : Diagnostic) (h : reader.transcript.failure = some diagnostic) :
      (∃ error, diagnostic = .grammatical error) ∨
        ∃ name line, diagnostic = .undefinedName name line := by
    obtain ⟨failure, -, rfl⟩ := Option.map_eq_some_iff.1 h
    exact failure.locate_cases reader.source
  refine ⟨fun fault h => ?_, fun error h => ?_⟩
  · rcases hcases _ h with ⟨error, heq⟩ | ⟨name, line, heq⟩ <;> cases heq
  · rcases hcases _ h with ⟨error, heq⟩ | ⟨name, line, heq⟩ <;> cases heq

theorem Transcript.isLimited_deliverOn {transcript : Transcript} (h : transcript.IsOwn)
    (limit : Nat) (flushFails : Bool) :
    (transcript.deliverOn ({ device := {} } : Recorder)).IsLimited limit flushFails
      (transcript.deliverOn ({ device := .withRoom limit flushFails } : Recorder)) := by
  rw [transcript.deliverOn_unlimited]
  by_cases hfits : (bytes transcript.commands).size ≤ limit
  · have hroom (room : Nat) (hlimit : some limit = some room) :
        (bytes transcript.commands).size ≤ room := Option.some.inj hlimit ▸ hfits
    have hlimited := transcript.deliverOn_fits flushFails hroom
    rw [hlimited]
    have hnotFull := Nat.not_lt.2 hfits
    refine ⟨?_, iff_of_false ?_ hnotFull, fun _ => ?_, fun _ => ?_, fun h => absurd h hnotFull,
      fun _ => rfl, List.prefix_rfl, fun error herror => ?_⟩
    · dsimp only
      rw [← Nat.max_eq_left hfits, ByteArray.extract_zero_max_size]
    · cases hfailure : transcript.failure with
      | none => cases flushFails <;> simp
      | some failure => exact fun heq => h.failure_ne .deviceFull (hfailure.trans heq)
    · cases hfailure : transcript.failure with
      | none => cases flushFails <;> simp
      | some failure =>
        exact iff_of_false (fun heq => h.failure_ne .flushFailed (hfailure.trans heq)) nofun
    · cases hfailure : transcript.failure with
      | none => cases flushFails <;> simp
      | some failure => exact fun _ => rfl
    · rw [Transcript.commands, h.effects_eq error herror]
      rfl
  · have hfull := Nat.not_le.1 hfits
    obtain ⟨before, command, after, heffects, hbefore, hcommand, hlimited⟩ :=
      transcript.deliverOn_full flushFails hfull
    have hcommands : transcript.commands =
        Transcript.commandsOf before ++ command :: Transcript.commandsOf after := by
      rw [commands, heffects, List.filterMap_append]
      rfl
    rw [hlimited]
    refine ⟨rfl, iff_of_true rfl hfull, fun h => absurd h hfits, fun h => absurd h hfits,
      fun _ => ⟨_, command, Transcript.commandsOf after, ?_, hbefore, hcommand,
        List.reverse_reverse _⟩, fun h => absurd h hfits, ?_, fun error herror => ?_⟩
    · rw [Recorder.commands, List.reverse_reverse]
      exact hcommands
    · change _ <+: Transcript.records transcript
      rw [Transcript.records, heffects, List.filterMap_append]
      exact List.prefix_append _ _
    · rw [h.effects_eq error herror] at heffects
      exact absurd heffects (by simp)

/-- The compiler is run on a device of limited room, and on one without a limit. Of a source of
fewer than `2 ^ 32` bytes, the run without a limit comes to its end and does what compiling comes
to. If it comes to its end, so does the run with a limit, and it is the start of the other. -/
theorem compile_delivers_limited (source : String) :
    (source.utf8ByteSize < 2 ^ 32 → ∃ whole,
      Pass.compile source ({ device := {} } : Recorder) = some whole ∧
        whole.output.commands = (compile source).commands ∧
        whole.failure = (compile source).failure ∧
        whole.output.device.written = (compile source).output.toUTF8) ∧
    ∀ whole, Pass.compile source ({ device := {} } : Recorder) = some whole →
      ∀ limit flushFails, ∃ limited,
        Pass.compile source ({ device := .withRoom limit flushFails } : Recorder) = some limited ∧
          whole.IsLimited limit flushFails limited := by
  refine ⟨fun hsize => ?_, fun whole hwhole limit flushFails => ?_⟩
  · refine ⟨_, (Pass.transcribes_compile hsize _ _).trans
      (congrArg some (compile source).deliverOn_unlimited), ?_, rfl, rfl⟩
    exact List.reverse_reverse _
  · obtain ⟨transcript, htranscribes, hform⟩ :=
      Pass.exists_transcribes unfailing_unlimited rfl hwhole
    have hown : transcript.IsOwn := by
      obtain ⟨error, -, rfl⟩ | ⟨reader, -, -, rfl, -⟩ := hform
      · exact Transcript.isOwn_lexical error
      · exact reader.isOwn_transcript
    cases (htranscribes _ _).symm.trans hwhole
    exact ⟨_, htranscribes _ _, transcript.isLimited_deliverOn hown limit flushFails⟩

/-- In the witness class, and in a text that is not made of tokens. -/
theorem compile_delivers_limited_rowClass :
    ∃ whole, Pass.compile rowClass ({ device := {} } : Recorder) = some whole ∧
      (∃ limited, Pass.compile rowClass ({ device := .withRoom 20 true } : Recorder) =
        some limited ∧ limited.failure = some (.io .deviceFull) ∧
          limited.output.device.written.size = 20) ∧
      ∃ limited, Pass.compile rowClass ({ device := .withRoom 2000 true } : Recorder) =
        some limited ∧ limited.failure = some (.io .flushFailed) ∧
          limited.output.commands = whole.output.commands := by
  obtain ⟨hexists, hlimits⟩ := compile_delivers_limited rowClass
  obtain ⟨whole, hwhole, hcommands, hfailure, hwritten⟩ := hexists (by decide +kernel)
  have hnone : whole.failure = none :=
    hfailure.trans ((compile rowClass).deliver_unlimited.1.symm.trans rowClass_compiles)
  have hsize : whole.output.device.written.size = 618 := by
    rw [hwritten]
    decide +kernel
  obtain ⟨limited, hlimited, hfull⟩ := hlimits whole hwhole 20 true
  obtain ⟨roomy, hroomy, hfits⟩ := hlimits whole hwhole 2000 true
  refine ⟨whole, hwhole, ⟨limited, hlimited, hfull.full.2 (by omega), ?_⟩, roomy, hroomy,
    (hfits.notFlushed (by omega)).2 ⟨hnone, rfl⟩, hfits.all (by omega)⟩
  rw [hfull.written, ByteArray.size_extract, hsize]
  rfl

end JackCompiler
