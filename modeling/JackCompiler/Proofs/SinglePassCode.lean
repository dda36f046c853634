import JackCompiler.Proofs.ControlFlow
import JackCompiler.Proofs.Jumps
import JackCompiler.Proofs.SinglePassTrees
import JackCompiler.Proofs.StackDepth
import JackCompiler.Proofs.Storage

/-!
What holds of the code of a tree holds of what a single pass writes, in texts of any size. Where the
texts of tokens come from does not matter for jumps, for the depth of the stack and for storage.
-/

namespace JackCompiler

theorem exists_of_mem_labels {first count : Nat} {code : List Command} {name : String}
    (h : Labelled first count code) (hmem : name ∈ labels code) :
    ∃ n, n < first + count ∧ name = labelName n := by
  obtain ⟨n, hn, rfl⟩ := List.mem_map.1 (h.labels.mem_iff.1 hmem)
  exact ⟨n, (List.mem_range'_1.1 hn).2, rfl⟩

/-- In what a single pass writes, control flows as the statements of a tree say, the depth of the
stack is known and every place is declared. The numbers of labels are below twice the number of
choices and loops, so that 32 bits are enough for fewer than `2 ^ 31` of these. -/
theorem code_of_pass {source : String} {result : Pass.Result Recorder}
    (h : Pass.Accepts source result) :
    ∃ tree : Tree.Class, Kept source tree.yield ∧ tree.PreservedIn result.output.commands ∧
      DepthsKnown result.output.commands ∧ tree.StoredIn result.output.commands ∧
      WellLabelled (2 * tree.yield.countP Lexeme.isBranch) result.output.commands ∧
      ∀ name ∈ labels result.output.commands,
        ∃ n, n < 2 * tree.yield.countP Lexeme.isBranch ∧ name = labelName n := by
  obtain ⟨tree, hkept, hallowed, hcommands, -⟩ := tree_of_pass h
  have hlabels : WellLabelled (2 * tree.yield.countP Lexeme.isBranch) tree.code := by
    rw [tree.countP_yield]
    exact tree.wellLabelled
  rw [hcommands]
  refine ⟨tree, hkept, tree.preservedIn_code, (Tree.Class.code_balanced hallowed).depthsKnown,
    Tree.Class.storedIn_code hallowed, hlabels, fun name hmem => ?_⟩
  obtain ⟨n, hn, hname⟩ := exists_of_mem_labels hlabels.toLabelled hmem
  exact ⟨n, by rwa [Nat.zero_add] at hn, hname⟩

end JackCompiler
