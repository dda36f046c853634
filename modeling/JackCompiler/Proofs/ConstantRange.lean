import JackCompiler.Proofs.BodyCommands
import JackCompiler.Proofs.Compilation

/-!
The numbers in generated code. Every count and every constant is at most the largest constant, with
one exception: a character of a string constant is pushed as its code, and codes are limited to
sixteen bits only.
-/

namespace JackCompiler

/-- The constant or the count of the command is at most the largest constant. -/
def Command.InRange : Command → Prop
  | push .constant n | call _ n | function _ n => n ≤ maxInteger
  | push _ _ | pop _ _ | operate _ | label _ | goto _ | ifGoto _ | ret => True

/-- The command pushes a character of one of the strings as its code. -/
def Command.PushesCharacter (lexemes : List Lexeme) (command : Command) : Prop :=
  ∃ text, .string text ∈ lexemes ∧ ∃ character ∈ text.toList,
    command = .push .constant character.toNat ∧ character.toNat ≤ 0xFFFF

theorem Scans.integer_le {source : String} {lexemes : List Lexeme} {value : Nat}
    (h : Scans source lexemes) (hmem : .integer value ∈ lexemes) : value ≤ maxInteger := by
  obtain ⟨tokens, last, htokens, -, rfl⟩ := h
  obtain ⟨token, htoken, hlexeme⟩ := List.mem_map.1 hmem
  have hkind : token.kind = .integer value := by
    unfold Token.lexeme TokenKind.lexeme at hlexeme
    split at hlexeme <;> cases hlexeme
    assumption
  obtain ⟨before, hnext⟩ := Scanner.next_of_mem_tokens htokens (List.mem_append_left _ htoken)
  exact Scanner.next_integer_le hnext hkind

variable {c : Context} {lexemes : List Lexeme}

theorem Command.InBody.inRange {command : Command} (h : command.InBody c lexemes)
    (hintegers : ∀ value, .integer value ∈ lexemes → value ≤ maxInteger) :
    command.InRange ∨ command.PushesCharacter lexemes := by
  cases command with
  | push segment n =>
    cases segment with
    | constant =>
      cases h with
      | zero => exact .inl (Nat.zero_le _)
      | integer hmem => exact .inl (hintegers _ hmem)
      | length hmem hlength => exact .inl hlength
      | character hmem hcharacter hstorable =>
        exact .inr ⟨_, hmem, _, hcharacter, rfl, hstorable⟩
    | _ => exact .inl trivial
  | call callee arguments => exact .inl h
  | function name locals => exact h.elim
  | _ => exact .inl trivial

namespace Tree

theorem prologue_inRange {fields : Nat} (h : fields ≤ maxInteger) (kind : SubroutineKind) :
    ∀ command ∈ prologue fields kind, command.InRange := by
  have hone : 1 ≤ maxInteger := by decide
  cases kind <;> simp [prologue, Command.InRange, h, hone]

/-- The lexemes of a body are among those of its class. -/
theorem Class.body_yield_subset {tree : Class} {subroutine : Subroutine}
    (h : subroutine ∈ tree.subroutines) : subroutine.body.yield ⊆ tree.yield := by
  intro lexeme hmem
  have hsubroutine : lexeme ∈ subroutine.yield := by simp [Subroutine.yield, hmem]
  have hall : lexeme ∈ tree.subroutines.flatMap Subroutine.yield :=
    List.mem_flatMap.2 ⟨subroutine, h, hsubroutine⟩
  simp [Class.yield, hall]

theorem Class.code_inRange {tree : Class} (h : tree.Allowed)
    (hintegers : ∀ value, .integer value ∈ tree.yield → value ≤ maxInteger) :
    ∀ command ∈ tree.code, command.InRange ∨ command.PushesCharacter tree.yield := by
  intro command hmem
  obtain ⟨⟨k, subroutine⟩, hnumbered, hcode⟩ := List.mem_flatMap.1 hmem
  have hsubroutine := mem_of_numbered hnumbered
  obtain ⟨hfits, huses⟩ := h.2 subroutine hsubroutine
  rcases List.mem_cons.1 hcode with rfl | hrest
  · exact .inl (hfits .local_)
  · rcases List.mem_append.1 hrest with hprologue | hbody
    · exact .inl (prologue_inRange (hfits .field) _ command hprologue)
    · exact (subroutine.body.code_inBody (body_yield_subset hsubroutine) huses k command
        hbody).inRange hintegers

end Tree

/-- In the output of a text that compiles every number is in range, unless it is the code of a
character of a string constant of the text. -/
theorem numbers_inRange_of_compile (source : String)
    (h : ((compile source).deliver {}).failure = none) :
    ∃ lexemes, Scans source lexemes ∧ ∀ command ∈ (compile source).commands,
      command.InRange ∨ command.PushesCharacter lexemes := by
  obtain ⟨tree, hscans, hallowed, hcommands⟩ := tree_of_delivered h
  refine ⟨tree.yield, hscans, ?_⟩
  rw [hcommands]
  exact Tree.Class.code_inRange hallowed fun _ hmem => hscans.integer_le hmem

theorem numbers_inRange_of_compile_rowClass :
    ((compile rowClass).deliver {}).failure = none ∧
      ∃ lexemes, Scans rowClass lexemes ∧ ∀ command ∈ (compile rowClass).commands,
        command.InRange ∨ command.PushesCharacter lexemes :=
  ⟨rowClass_compiles, numbers_inRange_of_compile rowClass rowClass_compiles⟩

/-- A class with a string of one character, whose code is above the largest constant. -/
def highCharacterClass : String :=
  "class A \x7b function void f() \x7b do B.c(\"\u8000\"); return; \x7d \x7d"

theorem character_not_inRange :
    ((compile highCharacterClass).deliver {}).failure = none ∧
      .push .constant 32768 ∈ (compile highCharacterClass).commands ∧
      ¬(Command.push .constant 32768).InRange := by
  refine ⟨(Transcript.deliver_unlimited _).1.trans ?_, ?_, ?_⟩
  · decide +kernel
  · decide +kernel
  · exact (by decide : ¬32768 ≤ maxInteger)

end JackCompiler
