import JackCompiler.Proofs.Compilation

/-!
The limits that a text must keep to, in terms of its tree alone: how many names it declares, which
names it uses, how many arguments its calls have and what its strings contain.
-/

namespace JackCompiler

namespace Tree

/-! ### Names in a tree -/

/-- The name that a use depends on. -/
def Use.name? : Use → Option String
  | .value name => some name
  | .call owner _ => owner
  | .literal _ => none

mutual

theorem Expression.identifier_of_use (e : Expression) {use : Use} {name : String}
    (h : use ∈ e.uses) (hname : use.name? = some name) : .identifier name ∈ e.yield := by
  cases e with
  | mk first rest =>
    rcases List.mem_append.1 h with hfirst | hrest
    · exact List.mem_append_left _ (first.identifier_of_use hfirst hname)
    · exact List.mem_append_right _ (rest.identifier_of_use hrest hname)
termination_by structural e

theorem Operations.identifier_of_use (x : Operations) {use : Use} {name : String}
    (h : use ∈ x.uses) (hname : use.name? = some name) : .identifier name ∈ x.yield := by
  cases x with
  | nil => cases h
  | cons operator operand rest =>
    apply List.mem_cons_of_mem
    rcases List.mem_append.1 h with hoperand | hrest
    · exact List.mem_append_left _ (operand.identifier_of_use hoperand hname)
    · exact List.mem_append_right _ (rest.identifier_of_use hrest hname)
termination_by structural x

theorem Term.identifier_of_use (e : Term) {use : Use} {name : String} (h : use ∈ e.uses)
    (hname : use.name? = some name) : .identifier name ∈ e.yield := by
  cases e with
  | integer value => cases h
  | constant word => cases h
  | string text =>
    obtain rfl := List.mem_singleton.1 h
    cases hname
  | variable_ name' =>
    obtain rfl := List.mem_singleton.1 h
    cases hname
    exact List.mem_cons_self
  | element array index =>
    rcases List.mem_cons.1 h with rfl | hindex
    · cases hname
      exact List.mem_cons_self
    · apply List.mem_cons_of_mem
      apply List.mem_cons_of_mem
      exact List.mem_append_left _ (index.identifier_of_use hindex hname)
  | call call => exact call.identifier_of_use h hname
  | group inner =>
    apply List.mem_cons_of_mem
    exact List.mem_append_left _ (inner.identifier_of_use h hname)
  | unary operator operand =>
    exact List.mem_cons_of_mem _ (operand.identifier_of_use h hname)
termination_by structural e

theorem Call.identifier_of_use (call : Call) {use : Use} {name : String} (h : use ∈ call.uses)
    (hname : use.name? = some name) : .identifier name ∈ call.yield := by
  cases call with
  | own callee arguments =>
    rcases List.mem_cons.1 h with rfl | harguments
    · cases hname
    · apply List.mem_cons_of_mem
      apply List.mem_cons_of_mem
      exact List.mem_append_left _ (arguments.identifier_of_use harguments hname)
  | member owner callee arguments =>
    rcases List.mem_cons.1 h with rfl | harguments
    · cases hname
      exact List.mem_cons_self
    · iterate 4 apply List.mem_cons_of_mem
      exact List.mem_append_left _ (arguments.identifier_of_use harguments hname)
termination_by structural call

theorem Arguments.identifier_of_use (x : Arguments) {use : Use} {name : String}
    (h : use ∈ x.uses) (hname : use.name? = some name) : .identifier name ∈ x.yield := by
  cases x with
  | nil => cases h
  | cons first rest =>
    rcases List.mem_append.1 h with hfirst | hrest
    · exact List.mem_append_left _ (first.identifier_of_use hfirst hname)
    · exact List.mem_append_right _ (rest.further_of_use hrest hname)
termination_by structural x

theorem Arguments.further_of_use (x : Arguments) {use : Use} {name : String}
    (h : use ∈ x.uses) (hname : use.name? = some name) : .identifier name ∈ x.further := by
  cases x with
  | nil => cases h
  | cons first rest =>
    apply List.mem_cons_of_mem
    rcases List.mem_append.1 h with hfirst | hrest
    · exact List.mem_append_left _ (first.identifier_of_use hfirst hname)
    · exact List.mem_append_right _ (rest.further_of_use hrest hname)
termination_by structural x

end

mutual

theorem Statement.identifier_of_use (x : Statement) {use : Use} {name : String}
    (h : use ∈ x.uses) (hname : use.name? = some name) : .identifier name ∈ x.yield := by
  cases x with
  | assign target value =>
    rcases List.mem_cons.1 h with rfl | hvalue
    · cases hname
      simp [Statement.yield]
    · simp [Statement.yield, value.identifier_of_use hvalue hname]
  | assignElement array index value =>
    rcases List.mem_cons.1 h with rfl | hrest
    · cases hname
      simp [Statement.yield]
    · rcases List.mem_append.1 hrest with hindex | hvalue
      · simp [Statement.yield, index.identifier_of_use hindex hname]
      · simp [Statement.yield, value.identifier_of_use hvalue hname]
  | choice condition body =>
    rcases List.mem_append.1 h with hcondition | hbody
    · simp [Statement.yield, condition.identifier_of_use hcondition hname]
    · simp [Statement.yield, body.identifier_of_use hbody hname]
  | choiceElse condition body otherwise =>
    rcases List.mem_append.1 h with hcondition | hblocks
    · simp [Statement.yield, condition.identifier_of_use hcondition hname]
    · rcases List.mem_append.1 hblocks with hbody | hotherwise
      · simp [Statement.yield, body.identifier_of_use hbody hname]
      · simp [Statement.yield, otherwise.identifier_of_use hotherwise hname]
  | loop condition body =>
    rcases List.mem_append.1 h with hcondition | hbody
    · simp [Statement.yield, condition.identifier_of_use hcondition hname]
    · simp [Statement.yield, body.identifier_of_use hbody hname]
  | invoke call => simp [Statement.yield, call.identifier_of_use h hname]
  | returnNothing => cases h
  | returnValue value => simp [Statement.yield, value.identifier_of_use h hname]
termination_by structural x

theorem Statements.identifier_of_use (x : Statements) {use : Use} {name : String}
    (h : use ∈ x.uses) (hname : use.name? = some name) : .identifier name ∈ x.yield := by
  cases x with
  | nil => cases h
  | cons first rest =>
    rcases List.mem_append.1 h with hfirst | hrest
    · exact List.mem_append_left _ (first.identifier_of_use hfirst hname)
    · exact List.mem_append_right _ (rest.identifier_of_use hrest hname)
termination_by structural x

end

theorem Class.identifier_of_use {tree : Class} {subroutine : Subroutine}
    (hmem : subroutine ∈ tree.subroutines) {use : Use} {name : String}
    (h : use ∈ subroutine.body.uses) (hname : use.name? = some name) :
    .identifier name ∈ tree.yield := by
  have hbody := subroutine.body.identifier_of_use h hname
  have hsubroutine : .identifier name ∈ subroutine.yield := by simp [Subroutine.yield, hbody]
  have hall := List.mem_flatMap.2 ⟨subroutine, hmem, hsubroutine⟩
  simp only [Class.yield, List.mem_cons, List.mem_append]
  exact Or.inr (Or.inr (Or.inr (Or.inr (Or.inl hall))))

/-! ### Limits -/

/-- The names that the class declares in the scope, repeated ones each time. -/
def Class.names (scope : ClassScope) (tree : Class) : List String :=
  tree.classVariables.flatMap fun line => if line.scope = scope then line.names else []

namespace Subroutine

def argumentNames (subroutine : Subroutine) : List String :=
  subroutine.parameters.map fun parameter => parameter.name

def localNames (subroutine : Subroutine) : List String :=
  subroutine.locals.flatMap Variables.names

/-- The name is that of a variable in the subroutine. -/
def Declares (tree : Class) (subroutine : Subroutine) (name : String) : Prop :=
  name ∈ subroutine.argumentNames ∨ name ∈ subroutine.localNames ∨
    name ∈ tree.names .static ∨ name ∈ tree.names .field

/-- What a subroutine of the class must keep to, the hidden receiver of a method included. -/
structure Acceptable (tree : Class) (subroutine : Subroutine) : Prop where
  arguments :
    subroutine.argumentNames.length + (if subroutine.kind = .method then 1 else 0) ≤ maxInteger
  locals : subroutine.localNames.length ≤ maxInteger
  values : ∀ name, .value name ∈ subroutine.body.uses → subroutine.Declares tree name
  ownCalls : ∀ count, .call none count ∈ subroutine.body.uses → count + 1 ≤ maxInteger
  /-- A call of a method of a variable. -/
  receiverCalls : ∀ owner count, .call (some owner) count ∈ subroutine.body.uses →
    subroutine.Declares tree owner → count + 1 ≤ maxInteger
  /-- A call of a subroutine of a class. -/
  classCalls : ∀ owner count, .call (some owner) count ∈ subroutine.body.uses →
    ¬subroutine.Declares tree owner → count ≤ maxInteger
  literals : ∀ text, .literal text ∈ subroutine.body.uses →
    text.length ≤ maxInteger ∧ ∀ character ∈ text.toList, character.toNat ≤ 0xFFFF

end Subroutine

structure Class.Acceptable (tree : Class) : Prop where
  statics : (tree.names .static).length ≤ maxInteger
  fields : (tree.names .field).length ≤ maxInteger
  subroutines : ∀ subroutine ∈ tree.subroutines, subroutine.Acceptable tree

/-! ### Counts -/

theorem count_classDeclarations (list : List ClassVariables) (scope : ClassScope) :
    Declaration.count scope.kind (list.flatMap ClassVariables.declarations) =
      (list.flatMap fun line =>
        if line.scope = scope then line.names else []).length := by
  induction list with
  | nil => rfl
  | cons first rest ih =>
    have hkind : ∀ declaration ∈ first.declarations, declaration.kind = first.scope.kind := by
      intro declaration hmem
      obtain ⟨name, -, rfl⟩ := List.mem_map.1 hmem
      rfl
    have hscope : first.scope.kind = scope.kind ↔ first.scope = scope := by
      cases first.scope <;> cases scope <;> simp [ClassScope.kind]
    rw [List.flatMap_cons, Declaration.count_append, Declaration.count_of_kind hkind, ih,
      List.flatMap_cons, List.length_append]
    by_cases heq : first.scope = scope
    · rw [if_pos heq, if_pos (hscope.2 heq), ClassVariables.declarations, Variables.declarations,
        List.length_map]
    · rw [if_neg heq, if_neg (fun h => heq (hscope.1 h)), List.length_nil]

theorem Class.count_static (tree : Class) :
    tree.context.count .static = (tree.names .static).length :=
  (Declaration.count_reverse .static tree.declarations).trans
    (count_classDeclarations tree.classVariables .static)

theorem Class.count_field (tree : Class) :
    tree.context.count .field = (tree.names .field).length :=
  (Declaration.count_reverse .field tree.declarations).trans
    (count_classDeclarations tree.classVariables .field)

namespace Subroutine

theorem count_declarations (className : String) (subroutine : Subroutine) (kind : VariableKind) :
    Declaration.count kind (subroutine.declarations className) =
      (if VariableKind.argument = kind then
        subroutine.argumentNames.length + (if subroutine.kind = .method then 1 else 0) else 0) +
      (if VariableKind.local_ = kind then subroutine.localNames.length else 0) := by
  have hreceiver : ∀ declaration ∈ receiverDeclarations className subroutine.kind,
      declaration.kind = .argument := by
    cases subroutine.kind <;> simp [receiverDeclarations]
  have hlength : (receiverDeclarations className subroutine.kind).length =
      if subroutine.kind = .method then 1 else 0 := by
    cases subroutine.kind <;> rfl
  have hparameters : ∀ declaration ∈ subroutine.parameters.map Parameter.declaration,
      declaration.kind = .argument := by
    intro declaration hmem
    obtain ⟨parameter, -, rfl⟩ := List.mem_map.1 hmem
    rfl
  have hlocals : ∀ declaration ∈ subroutine.locals.flatMap (Variables.declarations .local_),
      declaration.kind = .local_ := by
    intro declaration hmem
    obtain ⟨line, -, hdeclaration⟩ := List.mem_flatMap.1 hmem
    obtain ⟨name, -, rfl⟩ := List.mem_map.1 hdeclaration
    rfl
  have hnames : (subroutine.locals.flatMap (Variables.declarations .local_)).length =
      subroutine.localNames.length := by
    simp [localNames, Variables.declarations, List.length_flatMap]
  rw [Subroutine.declarations, Declaration.count_append, Declaration.count_append,
    Declaration.count_of_kind hreceiver, Declaration.count_of_kind hparameters,
    Declaration.count_of_kind hlocals, hlength, hnames, List.length_map, argumentNames,
    List.length_map]
  by_cases hkind : VariableKind.argument = kind
  · simp only [if_pos hkind]
    omega
  · simp only [if_neg hkind]
    omega

theorem count_context_argument (tree : Class) (subroutine : Subroutine) :
    (subroutine.context tree).count .argument =
      subroutine.argumentNames.length + if subroutine.kind = .method then 1 else 0 := by
  have hcount := subroutine.count_declarations tree.name .argument
  have hreverse := Declaration.count_reverse .argument (subroutine.declarations tree.name)
  have hlocal : ¬VariableKind.local_ = .argument := by decide
  rw [if_pos rfl, if_neg hlocal, Nat.add_zero] at hcount
  exact hreverse.trans hcount

theorem count_context_local (tree : Class) (subroutine : Subroutine) :
    (subroutine.context tree).count .local_ = subroutine.localNames.length := by
  have hcount := subroutine.count_declarations tree.name .local_
  have hreverse := Declaration.count_reverse .local_ (subroutine.declarations tree.name)
  have hargument : ¬VariableKind.argument = .local_ := by decide
  rw [if_pos rfl, if_neg hargument, Nat.zero_add] at hcount
  exact hreverse.trans hcount

/-! ### Names -/

theorem mem_classNames (tree : Class) (name : String) :
    (∃ declaration ∈ tree.declarations, declaration.name = name) ↔
      name ∈ tree.names .static ∨ name ∈ tree.names .field := by
  constructor
  · rintro ⟨declaration, hmem, rfl⟩
    obtain ⟨line, hvariables, hdeclaration⟩ := List.mem_flatMap.1 hmem
    obtain ⟨name, hname, rfl⟩ := List.mem_map.1 hdeclaration
    cases hscope : line.scope with
    | static =>
      exact Or.inl (List.mem_flatMap.2 ⟨line, hvariables, by rwa [if_pos hscope]⟩)
    | field =>
      exact Or.inr (List.mem_flatMap.2 ⟨line, hvariables, by rwa [if_pos hscope]⟩)
  · intro h
    obtain ⟨scope, hname⟩ : ∃ scope, name ∈ tree.names scope := by
      rcases h with h | h
      · exact ⟨.static, h⟩
      · exact ⟨.field, h⟩
    obtain ⟨line, hvariables, hname⟩ := List.mem_flatMap.1 hname
    split at hname
    · exact ⟨_, List.mem_flatMap.2 ⟨line, hvariables, List.mem_map_of_mem hname⟩, rfl⟩
    · cases hname

theorem mem_ownNames (className : String) (subroutine : Subroutine) {name : String}
    (hthis : name ≠ "this") :
    (∃ declaration ∈ subroutine.declarations className, declaration.name = name) ↔
      name ∈ subroutine.argumentNames ∨ name ∈ subroutine.localNames := by
  constructor
  · rintro ⟨declaration, hmem, rfl⟩
    rcases List.mem_append.1 hmem with hreceiver | hrest
    · cases hkind : subroutine.kind with
      | constructor => simp [receiverDeclarations, hkind] at hreceiver
      | function => simp [receiverDeclarations, hkind] at hreceiver
      | method =>
        rw [receiverDeclarations.eq_def, hkind] at hreceiver
        obtain rfl := List.mem_singleton.1 hreceiver
        exact absurd rfl hthis
    · rcases List.mem_append.1 hrest with hparameter | hlocal
      · obtain ⟨parameter, hlisted, rfl⟩ := List.mem_map.1 hparameter
        exact Or.inl (List.mem_map.2 ⟨parameter, hlisted, rfl⟩)
      · obtain ⟨line, hvariables, hdeclaration⟩ := List.mem_flatMap.1 hlocal
        obtain ⟨name, hname, rfl⟩ := List.mem_map.1 hdeclaration
        exact Or.inr (List.mem_flatMap.2 ⟨line, hvariables, hname⟩)
  · rintro (hargument | hlocal)
    · obtain ⟨parameter, hparameter, rfl⟩ := List.mem_map.1 hargument
      refine ⟨parameter.declaration, ?_, rfl⟩
      exact List.mem_append_right _ (List.mem_append_left _ (List.mem_map_of_mem hparameter))
    · obtain ⟨line, hvariables, hname⟩ := List.mem_flatMap.1 hlocal
      refine ⟨⟨.local_, line.type.text, name⟩, ?_, rfl⟩
      apply List.mem_append_right
      apply List.mem_append_right
      exact List.mem_flatMap.2 ⟨line, hvariables, List.mem_map_of_mem hname⟩

/-- Only the hidden receiver of a method is a variable without being declared in the text. -/
theorem lookup_iff_declares (tree : Class) (subroutine : Subroutine) {name : String}
    (hthis : name ≠ "this") :
    ((subroutine.context tree).lookup? name).isSome ↔ subroutine.Declares tree name := by
  have hown := Declaration.isSome_lookup? name (subroutine.context tree).ofSubroutine
  have hclass := Declaration.isSome_lookup? name (subroutine.context tree).ofClass
  have hsome : ((subroutine.context tree).lookup? name).isSome ↔
      (Declaration.lookup? name (subroutine.context tree).ofSubroutine).isSome ∨
        (Declaration.lookup? name (subroutine.context tree).ofClass).isSome := by
    rw [Context.lookup?]
    cases Declaration.lookup? name (subroutine.context tree).ofSubroutine <;> simp
  have hreverse : ∀ declarations : List Declaration,
      (∃ declaration ∈ declarations.reverse, declaration.name = name) ↔
        ∃ declaration ∈ declarations, declaration.name = name := by simp
  rw [hsome, hown, hclass, Declares, ← or_assoc, ← mem_ownNames tree.name subroutine hthis,
    ← mem_classNames]
  exact or_congr (hreverse _) (hreverse _)

/-- The limits are those that the generator keeps to, as long as no name is a keyword. -/
theorem acceptable_iff (tree : Class) (subroutine : Subroutine)
    (hnames : ∀ use ∈ subroutine.body.uses, use.name? ≠ some "this")
    (hstatic : (tree.names .static).length ≤ maxInteger)
    (hfield : (tree.names .field).length ≤ maxInteger) :
    subroutine.Acceptable tree ↔ subroutine.Allowed tree := by
  have hlookup : ∀ {use name}, use ∈ subroutine.body.uses → use.name? = some name →
      (((subroutine.context tree).lookup? name).isSome ↔ subroutine.Declares tree name) := by
    intro use name hmem hname
    apply subroutine.lookup_iff_declares tree
    rintro rfl
    exact hnames use hmem hname
  constructor
  · intro h
    refine ⟨fun kind => ?_, fun use hmem => ?_⟩
    · cases kind with
      | static => exact tree.count_static ▸ hstatic
      | field => exact tree.count_field ▸ hfield
      | argument =>
        rw [count_context_argument]
        exact h.arguments
      | local_ =>
        rw [count_context_local]
        exact h.locals
    · cases use with
      | value name => exact (hlookup hmem rfl).2 (h.values name hmem)
      | literal text => exact h.literals text hmem
      | call owner count =>
        cases owner with
        | none => exact h.ownCalls count hmem
        | some owner =>
          rw [Context.Allows]
          by_cases howner : subroutine.Declares tree owner
          · rw [if_pos ((hlookup hmem rfl).2 howner)]
            exact h.receiverCalls owner count hmem howner
          · rw [if_neg fun hsome => howner ((hlookup hmem rfl).1 hsome)]
            exact h.classCalls owner count hmem howner
  · rintro ⟨hfits, hallows⟩
    have hargument := hfits .argument
    have hlocal := hfits .local_
    rw [count_context_argument] at hargument
    rw [count_context_local] at hlocal
    refine ⟨hargument, hlocal, ?_, ?_, ?_, ?_, ?_⟩
    · intro name hmem
      exact (hlookup hmem rfl).1 (hallows _ hmem)
    · intro count hmem
      exact hallows _ hmem
    · intro owner count hmem howner
      have hcall := hallows _ hmem
      rwa [Context.Allows, if_pos ((hlookup hmem rfl).2 howner)] at hcall
    · intro owner count hmem howner
      have hcall := hallows _ hmem
      rwa [Context.Allows, if_neg fun hsome => howner ((hlookup hmem rfl).1 hsome)] at hcall
    · intro text hmem
      exact hallows _ hmem

end Subroutine

theorem Class.acceptable_iff (tree : Class)
    (hnames : ∀ subroutine ∈ tree.subroutines, ∀ use ∈ subroutine.body.uses,
      use.name? ≠ some "this") : tree.Acceptable ↔ tree.Allowed := by
  constructor
  · intro h
    refine ⟨fun kind => ?_, fun subroutine hmem => ?_⟩
    · cases kind with
      | static => exact tree.count_static ▸ h.statics
      | field => exact tree.count_field ▸ h.fields
      | argument => exact Nat.zero_le _
      | local_ => exact Nat.zero_le _
    · exact (subroutine.acceptable_iff tree (hnames subroutine hmem) h.statics h.fields).1
        (h.subroutines subroutine hmem)
  · rintro ⟨hfits, hsubroutines⟩
    have hstatic : (tree.names .static).length ≤ maxInteger := tree.count_static ▸ hfits .static
    have hfield : (tree.names .field).length ≤ maxInteger := tree.count_field ▸ hfits .field
    refine ⟨hstatic, hfield, fun subroutine hmem => ?_⟩
    exact (subroutine.acceptable_iff tree (hnames subroutine hmem) hstatic hfield).2
      (hsubroutines subroutine hmem)

end Tree

/-! ### Acceptance -/

/-- No name in a text is the keyword that a method's receiver is declared as. -/
theorem Scans.identifier_ne_this {source : String} {lexemes : List Lexeme}
    (h : Scans source lexemes) {name : String} (hmem : .identifier name ∈ lexemes) :
    name ≠ "this" := by
  obtain ⟨reader, -, rfl, -, hspelled⟩ := h.ofSource
  obtain ⟨token, htoken, hlexeme⟩ := List.mem_map.1 hmem
  have hnone := (hspelled token htoken).2.not_keyword hlexeme
  rintro rfl
  exact absurd hnone (by decide +kernel)

theorem Scans.not_this {source : String} {tree : Tree.Class} (h : Scans source tree.yield) :
    ∀ subroutine ∈ tree.subroutines, ∀ use ∈ subroutine.body.uses, use.name? ≠ some "this" := by
  intro subroutine hsubroutine use huse hname
  exact h.identifier_ne_this (Tree.Class.identifier_of_use hsubroutine huse hname) rfl

theorem compile_lexical {source : String} {error : LexicalError}
    (h : Scanner.tokens source = .error error) : compile source = ⟨[], some (.lexical error)⟩ := by
  rw [compile, Reader.ofSource, h]
  rfl

theorem Failure.locate_cases (source : String) (failure : Failure) :
    (∃ error, failure.locate source = .grammatical error) ∨
      ∃ name line, failure.locate source = .undefinedName name line := by
  cases failure with
  | refused refusal => exact Or.inl ⟨_, rfl⟩
  | undefinedName name => exact Or.inr ⟨_, _, rfl⟩

/-- Past scanning, only the grammar and the names can be at fault. -/
theorem compile_failure_cases {source : String} {tokens : List Token}
    (h : Scanner.tokens source = .ok tokens) {failure : Diagnostic}
    (hfailure : (compile source).failure = some failure) :
    (∃ error, failure = .grammatical error) ∨ ∃ name line, failure = .undefinedName name line := by
  have hreader : Reader.ofSource source = .ok (Reader.ofTokens source tokens) := by
    rw [Reader.ofSource, h]
    rfl
  cases hdirectives : (Reader.ofTokens source tokens).directives with
  | mk directives refusal =>
    rw [compile_of_ofSource hreader hdirectives, Transcript.ofDirectives] at hfailure
    cases hrun : ({} : Generator).run directives with
    | error stop =>
      rw [hrun] at hfailure
      obtain rfl := Option.some.inj hfailure
      exact stop.1.locate_cases source
    | ok g =>
      rw [hrun] at hfailure
      obtain ⟨refusal, -, rfl⟩ := Option.map_eq_some_iff.1 hfailure
      exact (Failure.refused refusal).locate_cases source

/-- No text is at fault as bytes. -/
theorem compile_failure_ne_encoding (source : String) (fault : Utf8.Fault) :
    (compile source).failure ≠ some (.encoding fault) := by
  intro hfailure
  cases htokens : Scanner.tokens source with
  | error error =>
    rw [compile_lexical htokens] at hfailure
    cases hfailure
  | ok tokens =>
    obtain ⟨error, heq⟩ | ⟨name, line, heq⟩ := compile_failure_cases htokens hfailure <;> cases heq

/-- A text compiles exactly if it is the yield of a tree that keeps to the limits. Otherwise it is
scanning that fails, or else the grammar or a name is at fault. -/
theorem compile_accepts_iff (source : String) :
    (((compile source).deliver {}).failure = none ↔
      ∃ tokens last, Scanner.tokens source = .ok (tokens ++ [last]) ∧ last.kind = .endOfFile ∧
        ∃ tree : Tree.Class, tree.yield = tokens.map Token.lexeme ∧ tree.Acceptable) ∧
    (∀ error, Scanner.tokens source = .error error →
      ((compile source).deliver {}).failure = some (.lexical error)) ∧
    ∀ tokens, Scanner.tokens source = .ok tokens →
      ∀ failure, ((compile source).deliver {}).failure = some failure →
        (∃ error, failure = .grammatical error) ∨
          ∃ name line, failure = .undefinedName name line := by
  obtain ⟨hdelivered, -⟩ := (compile source).deliver_unlimited
  rw [hdelivered]
  refine ⟨⟨fun h => ?_, ?_⟩, fun error h => ?_, fun tokens h failure hfailure => ?_⟩
  · obtain ⟨tree, hscans, hallowed⟩ := tree_of_compile h
    have hacceptable := (tree.acceptable_iff hscans.not_this).2 hallowed
    obtain ⟨tokens, last, htokens, hlast, hyield⟩ := hscans
    exact ⟨tokens, last, htokens, hlast, tree, hyield.symm, hacceptable⟩
  · rintro ⟨tokens, last, htokens, hlast, tree, hyield, hacceptable⟩
    have hscans : Scans source tree.yield := ⟨tokens, last, htokens, hlast, hyield.symm⟩
    exact (compile_of_tree hscans ((tree.acceptable_iff hscans.not_this).1 hacceptable)).1
  · rw [compile_lexical h]
  · exact compile_failure_cases h hfailure

theorem compile_accepts_iff_rowClass :
    (((compile rowClass).deliver {}).failure = none ∧
      ∃ tokens last, Scanner.tokens rowClass = .ok (tokens ++ [last]) ∧ last.kind = .endOfFile ∧
        ∃ tree : Tree.Class, tree.yield = tokens.map Token.lexeme ∧ tree.Acceptable) ∧
    (∃ error, Scanner.tokens "#" = .error error ∧
      ((compile "#").deliver {}).failure = some (.lexical error)) ∧
    ∃ tokens, Scanner.tokens "class" = .ok tokens ∧
      ∃ failure, ((compile "class").deliver {}).failure = some failure ∧
        ((∃ error, failure = .grammatical error) ∨
          ∃ name line, failure = .undefinedName name line) := by
  refine ⟨⟨rowClass_compiles, (compile_accepts_iff rowClass).1.1 rowClass_compiles⟩, ?_, ?_⟩
  · have hfails : (Scanner.tokens "#").isOk = false := by decide +kernel
    cases h : Scanner.tokens "#" with
    | error error => exact ⟨error, rfl, (compile_accepts_iff "#").2.1 error h⟩
    | ok tokens =>
      rw [h] at hfails
      cases hfails
  · have hscans : (Scanner.tokens "class").isOk = true := by decide +kernel
    have hsome : ((compile "class").deliver {}).failure.isSome := by decide +kernel
    obtain ⟨failure, hfailure⟩ := Option.isSome_iff_exists.1 hsome
    cases h : Scanner.tokens "class" with
    | error error =>
      rw [h] at hscans
      cases hscans
    | ok tokens =>
      exact ⟨tokens, rfl, failure, hfailure,
        (compile_accepts_iff "class").2.2 tokens h failure hfailure⟩

end JackCompiler
