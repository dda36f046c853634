import JackCompiler.Proofs.Refinement

/-!
Which texts compile, and to what. A text compiles exactly if it is split into the lexemes of a tree
whose declarations, calls and strings keep to the limits, and its commands are the code of the tree.
-/

namespace JackCompiler

/-- The text is split into these lexemes and the end of the text. -/
def Scans (source : String) (lexemes : List Lexeme) : Prop :=
  ∃ tokens last, Scanner.tokens source = .ok (tokens ++ [last]) ∧ last.kind = .endOfFile ∧
    tokens.map Token.lexeme = lexemes

theorem Scans.ofSource {source : String} {lexemes : List Lexeme} (h : Scans source lexemes) :
    ∃ reader, Reader.ofSource source = .ok reader ∧ reader.tokens.map Token.lexeme = lexemes ∧
      reader.last.kind = .endOfFile ∧
      ∀ token ∈ reader.tokens, token.kind ≠ .endOfFile ∧ token.Spelled := by
  obtain ⟨tokens, last, htokens, hlast, rfl⟩ := h
  have hreader : Reader.ofSource source = .ok (Reader.ofTokens source (tokens ++ [last])) := by
    rw [Reader.ofSource, htokens]
    rfl
  obtain ⟨htokens', hlast', hspelled⟩ := Reader.ofSource_tokens hreader
  have heq : tokens = (Reader.ofTokens source (tokens ++ [last])).tokens :=
    List.append_inj_left' (Except.ok.inj (htokens.symm.trans htokens')) rfl
  exact ⟨_, hreader, congrArg (List.map Token.lexeme) heq.symm, hlast', hspelled⟩

theorem Scans.of_ofSource {source : String} {reader : Reader}
    (h : Reader.ofSource source = .ok reader) :
    Scans source (reader.tokens.map Token.lexeme) := by
  obtain ⟨htokens, hlast, -⟩ := Reader.ofSource_tokens h
  exact ⟨reader.tokens, reader.last, htokens, hlast, rfl⟩

/-! ### Reading -/

namespace Reader

/-- A reading that reaches the end has read a tree. -/
theorem tree_of_directives {reader : Reader} {directives : List Directive}
    (hspelled : ∀ token ∈ reader.tokens, token.kind ≠ .endOfFile ∧ token.Spelled)
    (h : reader.directives = (directives, none)) :
    ∃ tree : Tree.Class, tree.yield = reader.tokens.map Token.lexeme ∧
      directives.map Directive.unplaced = tree.directives := by
  unfold Reader.directives at h
  split at h
  · rename_i t hclass
    cases h
    obtain ⟨hend, tree, hreads⟩ :=
      Reading.wholeClass_reads (fun token hmem => (hspelled token hmem).2) rfl hclass
    -- the end of the text is not among the tokens, so none of them are left
    have hnil : t.input.tokens = [] := by
      cases htokens : t.input.tokens with
      | nil => rfl
      | cons token rest =>
        have hmem : token ∈ t.input.tokens := htokens ▸ List.mem_cons_self
        have hkind : t.kind = token.kind := by
          rw [Reading.kind, Reader.peek, htokens, List.headD_cons]
        have hnot := hreads.forall_tokens (fun token hmem => (hspelled token hmem).1) token hmem
        exact absurd (hkind.symm.trans hend) hnot
    refine ⟨tree, ?_, ?_⟩
    · have hlexemes := hreads.lexemes_eq
      rw [Reading.lexemes, Reading.lexemes, hnil, List.map_nil, List.append_nil] at hlexemes
      exact hlexemes.symm
    · rw [List.map_reverse, hreads.code, List.map_nil, List.append_nil, List.reverse_reverse]
  · cases h

/-- The lexemes of a tree are read to the end. -/
theorem directives_of_tree {reader : Reader} {tree : Tree.Class}
    (hspelled : ∀ token ∈ reader.tokens, token.kind ≠ .endOfFile ∧ token.Spelled)
    (hlast : reader.last.kind = .endOfFile) (h : reader.tokens.map Token.lexeme = tree.yield)
    (huses : ∀ subroutine ∈ tree.subroutines, Tree.CountableCalls subroutine.body.uses) :
    ∃ directives, reader.directives = (directives, none) ∧
      directives.map Directive.unplaced = tree.directives := by
  obtain ⟨t, hclass⟩ := Reading.wholeClass_complete tree (s := { input := reader })
    (fun token hmem => (hspelled token hmem).2) rfl hlast h huses
  have hdirectives : reader.directives = (t.code.reverse, none) := by
    rw [Reader.directives, hclass]
  obtain ⟨other, hyield, hother⟩ := tree_of_directives hspelled hdirectives
  obtain rfl : other = tree := Tree.Class.yield_injective (hyield.trans h)
  exact ⟨_, hdirectives, hother⟩

end Reader

/-! ### Compiling -/

theorem compile_of_ofSource {source : String} {reader : Reader} {directives : List Directive}
    {refusal : Option Refusal} (hreader : Reader.ofSource source = .ok reader)
    (hdirectives : reader.directives = (directives, refusal)) :
    compile source = .ofDirectives source directives refusal := by
  rw [compile, hreader]
  simp only [hdirectives]

theorem compile_of_tree {source : String} {tree : Tree.Class} (hscans : Scans source tree.yield)
    (hallowed : tree.Allowed) :
    (compile source).failure = none ∧ (compile source).commands = tree.code := by
  obtain ⟨reader, hreader, hlexemes, hlast, hspelled⟩ := hscans.ofSource
  obtain ⟨directives, hdirectives, hunplaced⟩ := Reader.directives_of_tree hspelled hlast hlexemes
    fun subroutine hmem => (hallowed.2 subroutine hmem).2.countable
  obtain ⟨last, hgenerates⟩ := tree.generates
  obtain ⟨g, hrun⟩ := hgenerates.complete Generator.knows_start hallowed
  obtain ⟨-, -, hcommands⟩ := hgenerates.sound Generator.knows_start hrun
  rw [← hunplaced, Generator.run_unplaced] at hrun
  rw [compile_of_ofSource hreader hdirectives, Transcript.ofDirectives, hrun]
  exact ⟨rfl, hcommands⟩

theorem tree_of_compile {source : String} (h : (compile source).failure = none) :
    ∃ tree : Tree.Class, Scans source tree.yield ∧ tree.Allowed := by
  cases hreader : Reader.ofSource source with
  | error error =>
    rw [compile, hreader] at h
    cases h
  | ok reader =>
    obtain ⟨htokens, hlast, hspelled⟩ := Reader.ofSource_tokens hreader
    cases hdirectives : reader.directives with
    | mk directives refusal =>
      rw [compile_of_ofSource hreader hdirectives, Transcript.ofDirectives] at h
      cases hrun : ({} : Generator).run directives with
      | error failure =>
        rw [hrun] at h
        cases h
      | ok g =>
        rw [hrun] at h
        obtain rfl : refusal = none := Option.map_eq_none_iff.1 h
        obtain ⟨tree, hyield, hunplaced⟩ := Reader.tree_of_directives hspelled hdirectives
        obtain ⟨last, hgenerates⟩ := tree.generates
        rw [← Generator.run_unplaced, hunplaced] at hrun
        exact ⟨tree, hyield ▸ Scans.of_ofSource hreader,
          (hgenerates.sound Generator.knows_start hrun).1⟩

/-! ### Writing -/

namespace Transcript

/-- A device without a limit takes every line. -/
theorem play_unlimited (effects : List Effect) (records : List LogRecord) (device : Device)
    (h : device.limit = none) :
    ∃ later, play records device effects = (none, later,
      { device with written := device.written ++
          (String.join ((⟨effects, none⟩ : Transcript).commands.map Command.line)).toUTF8 }) := by
  induction effects generalizing records device with
  | nil =>
    refine ⟨records.reverse, ?_⟩
    simp [play, commands]
  | cons effect rest ih =>
    cases effect with
    | logged record => exact ih (record :: records) device h
    | issued command =>
      obtain ⟨limit, flushFails, written⟩ := device
      obtain rfl : limit = none := h
      obtain ⟨later, hplay⟩ := ih records ⟨none, flushFails, written ++ command.line.toUTF8⟩ rfl
      refine ⟨later, ?_⟩
      rw [play, Device.issue, Device.write]
      dsimp only
      rw [hplay]
      simp [commands, String.join_cons, ByteArray.append_assoc]

theorem deliver_unlimited (transcript : Transcript) :
    (transcript.deliver {}).failure = transcript.failure ∧
      (transcript.deliver {}).device.written = transcript.output.toUTF8 := by
  obtain ⟨later, hplay⟩ := play_unlimited transcript.effects [] {} rfl
  have hwritten : (⟨transcript.effects, none⟩ : Transcript).commands = transcript.commands := rfl
  rw [hwritten] at hplay
  unfold deliver
  rw [hplay]
  dsimp only
  cases transcript.failure with
  | some failure => exact ⟨rfl, ByteArray.empty_append⟩
  | none => exact ⟨rfl, ByteArray.empty_append⟩

end Transcript

/-- A text that compiles is that of a tree whose code it compiles to. -/
theorem tree_of_delivered {source : String} (h : ((compile source).deliver {}).failure = none) :
    ∃ tree : Tree.Class, Scans source tree.yield ∧ tree.Allowed ∧
      (compile source).commands = tree.code := by
  obtain ⟨hfailure, -⟩ := (compile source).deliver_unlimited
  obtain ⟨tree, hscans, hallowed⟩ := tree_of_compile (hfailure.symm.trans h)
  exact ⟨tree, hscans, hallowed, (compile_of_tree hscans hallowed).2⟩

/-- A class with statements and terms of many kinds. -/
def rowClass : String :=
  "class Row \x7b field Array x; method int f(int i) \x7b let x[x[i] + 1] = -i * g(\"a\"); " ++
    "while (~(i = 9)) \x7b if (i > 5) \x7b return x[i]; \x7d else \x7b do Out.p(i); \x7d \x7d " ++
    "return i; \x7d \x7d"

theorem rowClass_compiles : ((compile rowClass).deliver {}).failure = none :=
  (compile rowClass).deliver_unlimited.1.trans (by decide +kernel)

end JackCompiler
