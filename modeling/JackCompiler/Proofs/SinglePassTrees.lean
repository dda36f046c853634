import JackCompiler.Proofs.Recording
import JackCompiler.Proofs.SinglePassSources

/-!
What a single pass accepts, in texts of any size. The tokens that are kept are the lexemes of a
tree, and the pass writes the code of the tree. In a text of fewer than `2 ^ 32` bytes these are the
tokens of the text.
-/

namespace JackCompiler

/-- These are the lexemes of the tokens that are kept of the source, up to its end. -/
def Kept (source : String) (lexemes : List Lexeme) : Prop :=
  ∃ tokens last, Scanner.keptTokens? source = some (.ok (tokens ++ [last])) ∧
    last.kind = .endOfFile ∧ tokens.map Token.lexeme = lexemes

/-- No name among the tokens that are kept is the keyword that a method's receiver is declared
as. -/
theorem Kept.identifier_ne_this {source : String} {lexemes : List Lexeme} (h : Kept source lexemes)
    {name : String} (hmem : .identifier name ∈ lexemes) : name ≠ "this" := by
  obtain ⟨tokens, last, htokens, -, rfl⟩ := h
  obtain ⟨earlier, other, heq, -, hspelled⟩ := Scanner.keptTokensFrom_end htokens
  obtain rfl : tokens = earlier := List.append_inj_left' heq rfl
  obtain ⟨token, htoken, hlexeme⟩ := List.mem_map.1 hmem
  have hnone := (hspelled token htoken).2.1.not_keyword hlexeme
  rintro rfl
  exact absurd hnone (by decide +kernel)

/-- If nothing is wrong with the tokens of a reader, they are the lexemes of a tree and compiled to
its code. -/
theorem Reader.tree_of_transcript {reader : Reader}
    (hspelled : ∀ token ∈ reader.tokens, token.kind ≠ .endOfFile ∧ token.Spelled)
    (h : reader.transcript.failure = none) :
    ∃ tree : Tree.Class, tree.yield = reader.tokens.map Token.lexeme ∧ tree.Allowed ∧
      reader.transcript.commands = tree.code := by
  have hwork : reader.work.2 = none := Option.map_eq_none_iff.1 h
  have hcommands (effects : List Effect) (heffects : reader.work.1 = effects) :
      reader.transcript.commands = (⟨effects, none⟩ : Transcript).commands :=
    heffects ▸ rfl
  cases hrun : ({} : Generator).run reader.directives.1 with
  | error stopped =>
    simp only [Reader.work, hrun] at hwork
    cases hwork
  | ok g =>
    simp only [Reader.work, hrun] at hwork hcommands
    have hrefusal : reader.directives.2 = none := Option.map_eq_none_iff.1 hwork
    obtain ⟨tree, hyield, hunplaced⟩ :=
      Reader.tree_of_directives hspelled (Prod.ext rfl hrefusal)
    obtain ⟨last, hgenerates⟩ := tree.generates
    rw [← Generator.run_unplaced, hunplaced] at hrun
    obtain ⟨hallowed, -, hcode⟩ := hgenerates.sound Generator.knows_start hrun
    exact ⟨tree, hyield, hallowed, (hcommands _ rfl).trans hcode⟩

/-- A single pass over the source, onto an output without a limit, comes to its end without a
failure, and this is what it comes to. -/
def Pass.Accepts (source : String) (result : Pass.Result Recorder) : Prop :=
  Pass.compile source { device := {} } = some result ∧ result.failure = none

/-- What a single pass accepts is a tree, and its code is all that is written. -/
theorem tree_of_pass {source : String} {result : Pass.Result Recorder}
    (h : Pass.Accepts source result) :
    ∃ tree : Tree.Class, Kept source tree.yield ∧ tree.Allowed ∧
      result.output.commands = tree.code ∧ result.output.device.written = bytes tree.code := by
  obtain ⟨hresult, hok⟩ := h
  obtain ⟨transcript, htranscribes, hform⟩ :=
    Pass.exists_transcribes unfailing_unlimited rfl hresult
  have hdelivered := (htranscribes Recorder { device := {} }).symm.trans hresult
  rw [transcript.deliverOn_unlimited] at hdelivered
  cases hdelivered
  obtain ⟨error, -, rfl⟩ | ⟨reader, rfl, hkeeps, rfl, hspelled⟩ := hform
  · cases hok
  · obtain ⟨tree, hyield, hallowed, hcommands⟩ := Reader.tree_of_transcript hspelled hok
    refine ⟨tree, ⟨_, _, hkeeps.tokens, hkeeps.last, hyield.symm⟩, hallowed, ?_, ?_⟩
    · exact (List.reverse_reverse _).trans hcommands
    · exact congrArg bytes hcommands

end JackCompiler
