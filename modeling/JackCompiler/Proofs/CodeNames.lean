import JackCompiler.Proofs.Renaming
import JackCompiler.Proofs.ScopeHistory

/-!
The names in code. A label is a number after a letter, and what is called or defined has an
identifier or a type before a dot and an identifier behind it. That holds of all commands, whatever
the text is and wherever its compilation ends, because names come from words of the text and the
class is named before anything else is done.
-/

namespace JackCompiler

/-- An identifier, or one of the types that are keywords. -/
def IsTypeName (text : String) : Prop :=
  isIdentifier text = true ∨ text ∈ ["int", "char", "boolean"]

/-- The name of a subroutine behind that of its class. -/
def IsQualified (name : String) : Prop :=
  ∃ owner member, IsTypeName owner ∧ isIdentifier member = true ∧ name = owner ++ "." ++ member

def IsLabel (name : String) : Prop :=
  ∃ n, name = labelName n

def Command.WellNamed : Command → Prop
  | label name | goto name | ifGoto name => IsLabel name
  | call name _ | function name _ => IsQualified name
  | push _ _ | pop _ _ | operate _ | ret => True

/-! ### Words of the text -/

/-- A word is spelled as scanning finds it. -/
def Token.IsPiece (token : Token) : Prop :=
  token.kind.isWord = true → Piece token.text.toList (.token token.kind)

namespace Token.IsPiece

variable {token : Token}

theorem identifier (h : token.IsPiece) (hkind : token.kind = .identifier) :
    isIdentifier token.text = true := by
  have hpiece : Piece token.text.toList (.token .identifier) := hkind ▸ h (hkind ▸ rfl)
  have hspelled := Piece.identifier_iff.1 hpiece
  rwa [String.ofList_toList] at hspelled

theorem keyword (h : token.IsPiece) {word : Keyword} (hkind : token.kind = .keyword word) :
    token.text = word.text := by
  have hpiece : Piece token.text.toList (.token (.keyword word)) := hkind ▸ h (hkind ▸ rfl)
  exact String.toList_injective hpiece.of_keyword.symm

theorem typeName (h : token.IsPiece) {use : TypeUse}
    (hwants : (Goal.type use).wants token.kind = true) : IsTypeName token.text := by
  simp only [Goal.wants, List.mem_cons, List.not_mem_nil, or_false, decide_eq_true_eq] at hwants
  rcases hwants with hkind | hkind | hkind | hkind
  · exact Or.inr (by simp [h.keyword hkind, Keyword.text])
  · exact Or.inr (by simp [h.keyword hkind, Keyword.text])
  · exact Or.inr (by simp [h.keyword hkind, Keyword.text])
  · exact Or.inl (h.identifier hkind)

end Token.IsPiece

/-- The words of a text are spelled as scanning finds them. -/
theorem Reader.isPiece_of_ofSource {source : String} {reader : Reader}
    (h : Reader.ofSource source = .ok reader) :
    reader.last.kind = .endOfFile ∧ (∀ token ∈ reader.tokens, token.IsPiece) ∧
      reader.last.IsPiece := by
  obtain ⟨htokens, hlast, -⟩ := Reader.ofSource_tokens h
  have hpieces := List.forall_mem_append.1 (piece_of_tokens htokens)
  exact ⟨hlast, hpieces.1, hpieces.2 _ List.mem_cons_self⟩

/-! ### Directives -/

/-- The names that the directive puts into code are of the right form. -/
def Directive.WellNamed : Directive → Prop
  | .openClass name | .nameSubroutine _ name | .openBody _ name => isIdentifier name = true
  | .declare _ type _ => IsTypeName type
  | .emit command => command.WellNamed
  | .invoke owner member _ => isIdentifier owner.text = true ∧ isIdentifier member = true
  | .invokeOwn method _ => isIdentifier method.text = true
  | .openSubroutine _ _ | .require _ | .load _ | .store _ | .receiver _ | .build _ => True

def Callee.WellNamed : Callee → Prop
  | .own name => isIdentifier name.text = true
  | .member owner name => isIdentifier owner.text = true ∧ isIdentifier name = true

def NameUse.WellNamed : NameUse → Prop
  | .variable_ _ type | .parameter type => IsTypeName type
  | .member owner => isIdentifier owner.text = true
  | .class_ | .subroutine _ | .target | .callee => True

def Goal.WellNamed : Goal → Prop
  | .act directive => directive.WellNamed
  | .name use => use.WellNamed
  | .afterName single | .call single | .assignment single => isIdentifier single.text = true
  | .arguments callee | .moreArguments callee _ => callee.WellNamed
  | .otherwise done => IsLabel done
  | .moreVariables _ text => IsTypeName text
  | _ => True

theorem isQualified_library :
    ∀ name ∈ insertedCallees, IsQualified name := by
  have hnames : ∀ name ∈ insertedCallees, ∃ owner member : String,
      isIdentifier owner = true ∧ isIdentifier member = true ∧ name = owner ++ "." ++ member := by
    simp only [insertedCallees, List.forall_mem_cons]
    refine ⟨⟨"Memory", "alloc", ?_⟩, ⟨"Math", "multiply", ?_⟩, ⟨"Math", "divide", ?_⟩,
      ⟨"String", "new", ?_⟩, ⟨"String", "appendChar", ?_⟩, List.forall_mem_nil _⟩ <;> decide +kernel
  intro name hmem
  obtain ⟨owner, member, howner, hmember, rfl⟩ := hnames name hmem
  exact ⟨owner, member, Or.inl howner, hmember, rfl⟩

theorem Symbol.binary?_wellNamed {mark : Symbol} {command : Command}
    (h : mark.binary? = some command) : command.WellNamed := by
  cases mark <;> cases h <;> first | trivial | exact isQualified_library _ (by decide)

namespace Goal

theorem wellNamed_next {goal : Goal} {token : Token} (htoken : token.IsPiece)
    (h : goal.wants token.kind = true) (hgoal : goal.WellNamed) :
    ∀ other ∈ goal.next token, other.WellNamed := by
  cases goal with
  | name use =>
    have hname : isIdentifier token.text = true := htoken.identifier (of_decide_eq_true h)
    cases use <;> simp_all [next, NameUse.goals, Goal.WellNamed, NameUse.WellNamed,
      Directive.WellNamed, Callee.WellNamed]
  | type use =>
    have htype : IsTypeName token.text := htoken.typeName h
    cases use <;> simp_all [next, TypeUse.goals, Goal.WellNamed, NameUse.WellNamed]
  | operations =>
    simp only [next]
    split
    · split
      · rename_i apply hbinary
        have happly : apply.WellNamed := Symbol.binary?_wellNamed hbinary
        simp [Goal.WellNamed, Directive.WellNamed, happly]
      · exact List.forall_mem_nil _
    · exact List.forall_mem_nil _
  | arguments callee =>
    cases callee <;> simp_all [next, Callee.directive, Goal.WellNamed, Directive.WellNamed,
      Callee.WellNamed]
  | term =>
    simp only [next]
    split <;> simp_all [Goal.WellNamed, Directive.WellNamed, Command.WellNamed]
    exact htoken.identifier ‹_›
  | afterName single =>
    simp only [next]
    split <;> simp_all [Goal.WellNamed, NameUse.WellNamed, Callee.WellNamed, Directive.WellNamed,
      Command.WellNamed]
  | statements | classVariables | subroutines =>
    simp only [next]
    split <;> simp_all [Goal.WellNamed, NameUse.WellNamed, Directive.WellNamed, Command.WellNamed]
  | _ => simp_all [next, Goal.WellNamed, NameUse.WellNamed, Directive.WellNamed, Command.WellNamed]

theorem wellNamed_fallback {goal : Goal} (hgoal : goal.WellNamed) :
    goal.fallback.All Directive.WellNamed Goal.WellNamed := by
  have hlabel : ∀ n, IsLabel (labelName n) := fun n => ⟨n, rfl⟩
  cases goal with
  | moreArguments callee count =>
    cases callee <;> simp_all [fallback, Fallback.All, Callee.directive, Goal.WellNamed,
      Directive.WellNamed, Callee.WellNamed]
  | _ =>
    simp_all [fallback, Fallback.All, guarded, Goal.WellNamed, Directive.WellNamed,
      Callee.WellNamed, Command.WellNamed]

end Goal

theorem Reader.directives_wellNamed {reader : Reader} (h : reader.last.kind = .endOfFile)
    (htokens : ∀ token ∈ reader.tokens, token.IsPiece) (hlast : reader.last.IsPiece) :
    ∀ directive ∈ reader.directives.1, directive.WellNamed := by
  refine (directives_all h ⟨Goal.wellNamed_next, Goal.wellNamed_fallback⟩ htokens hlast ?_).1
  simp [Agenda.ofReading, Goal.WellNamed, NameUse.WellNamed]

/-! ### Carrying out directives -/

theorem prologue_wellNamed (fields : Nat) (kind : SubroutineKind) :
    ∀ command ∈ Tree.prologue fields kind, command.WellNamed := by
  have halloc : IsQualified "Memory.alloc" := isQualified_library _ (by decide)
  cases kind <;> simp [Tree.prologue, Command.WellNamed, halloc]

theorem stringCode_wellNamed (text : String) :
    ∀ command ∈ Tree.stringCode text, command.WellNamed := by
  intro command hmem
  simp only [Tree.stringCode, List.mem_cons, List.mem_flatMap, List.not_mem_nil, or_false] at hmem
  rcases hmem with rfl | rfl | ⟨character, -, rfl | rfl⟩
  · trivial
  · exact isQualified_library _ (by decide)
  · trivial
  · exact isQualified_library _ (by decide)

namespace Generator

/-- The class has a name, variables have types, and all code so far is well named. -/
structure WellNamed (g : Generator) : Prop where
  className : isIdentifier g.className = true
  types : ∀ inClass name entry, g.scopes.binding? inClass name = some entry →
    IsTypeName entry.type
  commands : ∀ command ∈ g.commands, command.WellNamed

namespace WellNamed

variable {g : Generator}

theorem log (h : g.WellNamed) (level : Level) (target message : String) :
    (g.log level target message).WellNamed :=
  ⟨h.className, h.types, fun command hmem => h.commands command (by rwa [commands_log] at hmem)⟩

theorem issueAll (h : g.WellNamed) {code : List Command}
    (hcode : ∀ command ∈ code, command.WellNamed) : (g.issueAll code).WellNamed := by
  refine ⟨?_, ?_, ?_⟩
  · rw [className_issueAll]
    exact h.className
  · rw [scopes_issueAll]
    exact h.types
  · rw [commands_issueAll]
    exact List.forall_mem_append.2 ⟨h.commands, hcode⟩

theorem issue (h : g.WellNamed) {command : Command} (hcommand : command.WellNamed) :
    (g.issue command).WellNamed :=
  h.issueAll (List.forall_mem_singleton.2 hcommand)

theorem push (h : g.WellNamed) (entry : Variable) : (g.push entry).WellNamed := by
  have hcommand : (Command.push entry.kind.segment entry.index).WellNamed := trivial
  exact h.issue hcommand

theorem pop (h : g.WellNamed) (segment : Segment) (i : Nat) :
    (g.issue (.pop segment i)).WellNamed := by
  have hcommand : (Command.pop segment i).WellNamed := trivial
  exact h.issue hcommand

theorem type_of_lookup? (h : g.WellNamed) {name : String} {entry : Variable}
    (hentry : g.scopes.lookup? name = some entry) : IsTypeName entry.type := by
  obtain ⟨inClass, hbinding⟩ := Scopes.exists_binding?_of_lookup? hentry
  exact h.types inClass name entry hbinding

theorem withScopes (h : g.WellNamed) {scopes : Scopes}
    (htypes : ∀ inClass name entry, scopes.binding? inClass name = some entry →
      IsTypeName entry.type) : ({ g with scopes } : Generator).WellNamed :=
  ⟨h.className, htypes, h.commands⟩

theorem startSubroutine (h : g.WellNamed) :
    ({ g with scopes := g.scopes.startSubroutine } : Generator).WellNamed := by
  refine h.withScopes fun inClass name entry hentry => ?_
  rw [Scopes.binding?_startSubroutine] at hentry
  split at hentry
  · exact h.types inClass name entry hentry
  · cases hentry

theorem declare (h : g.WellNamed) {type : String} (htype : IsTypeName type)
    (kind : VariableKind) (name : String) (token : Token) :
    (reached (g.declare kind type name token)).WellNamed := by
  unfold Generator.declare Scopes.define?
  by_cases hroom : g.scopes.count kind < maxInteger
  · simp only [if_pos hroom]
    have htypes : ∀ inClass other entry,
        (({ g.scopes with counts := g.scopes.counts.increment kind } : Scopes).insert name
          ⟨type, kind, g.scopes.count kind⟩).binding? inClass other = some entry →
        IsTypeName entry.type := by
      intro inClass other entry hentry
      rw [Scopes.binding?_insert] at hentry
      split at hentry
      · cases hentry
        exact htype
      · exact h.types inClass other entry hentry
    exact (h.withScopes htypes).log _ _ _
  · simp only [if_neg hroom]
    exact h

theorem resolve (h : g.WellNamed) (name : Token) {f : Variable → Generator}
    (hf : ∀ entry, (f entry).WellNamed) : (reached ((g.resolve name).map f)).WellNamed := by
  unfold Generator.resolve
  split
  · exact hf _
  · exact h

theorem call (h : g.WellNamed) {callee : String} (hcallee : IsQualified callee) (arguments : Nat)
    (token : Token) : (reached (g.call callee arguments token)).WellNamed := by
  unfold Generator.call
  split
  · exact h.issue hcallee
  · exact h

theorem qualify (h : g.WellNamed) {name : String} (hname : isIdentifier name = true) :
    IsQualified (g.qualify name) :=
  ⟨g.className, name, Or.inl h.className, hname, rfl⟩

theorem openBody (h : g.WellNamed) (kind : SubroutineKind) {name : String}
    (hname : isIdentifier name = true) : (g.openBody kind name).WellNamed := by
  rw [openBody_eq]
  exact h.issueAll (List.forall_mem_cons.2 ⟨h.qualify hname, prologue_wellNamed _ kind⟩)

theorem build (h : g.WellNamed) (string : Token) : (reached (g.build string)).WellNamed := by
  rcases build_cases string.text with hbuilds | ⟨fault, -, hrejects⟩
  · rw [hbuilds g string rfl]
    exact h.issueAll (stringCode_wellNamed string.text)
  · rw [hrejects g string rfl]
    exact h

theorem receiver (h : g.WellNamed) (owner : Token) :
    (reached (g.perform (.receiver owner))).WellNamed := by
  simp only [Generator.perform]
  split
  · exact h.push _
  · exact h

theorem invoke (h : g.WellNamed) {owner : Token} (howner : isIdentifier owner.text = true)
    {member : String} (hmember : isIdentifier member = true) (arguments : Nat) :
    (reached (g.perform (.invoke owner member arguments))).WellNamed := by
  simp only [Generator.perform]
  split
  · next entry hentry =>
    exact h.call ⟨entry.type, member, h.type_of_lookup? hentry, hmember, rfl⟩ _ _
  · exact h.call ⟨owner.text, member, Or.inl howner, hmember, rfl⟩ _ _

/-- Carrying out a directive, whether it succeeds or fails, puts only such names into code. -/
theorem perform (h : g.WellNamed) {directive : Directive} (hdirective : directive.WellNamed) :
    (reached (g.perform directive)).WellNamed := by
  cases directive with
  | openClass name =>
    have hopened : ({ g with className := name } : Generator).WellNamed :=
      ⟨hdirective, h.types, h.commands⟩
    exact hopened.log _ _ _
  | openSubroutine kind keyword =>
    simp only [Generator.perform]
    split
    · exact h.startSubroutine.declare (Or.inl h.className) _ _ _
    · exact h.startSubroutine
  | nameSubroutine kind name => exact h.log _ _ _
  | openBody kind name => exact h.openBody kind hdirective
  | declare kind type name => exact h.declare hdirective kind _ name
  | emit command => exact h.issue hdirective
  | require name => exact h.resolve name fun _ => h
  | load name => exact h.resolve name fun entry => h.push entry
  | store name => exact h.resolve name fun entry => h.pop _ _
  | build string => exact h.build string
  | receiver owner => exact h.receiver owner
  | invoke owner member arguments => exact h.invoke hdirective.1 hdirective.2 arguments
  | invokeOwn method arguments => exact h.call (h.qualify hdirective) _ _

theorem run (h : g.WellNamed) {directives : List Directive}
    (hdirectives : ∀ directive ∈ directives, directive.WellNamed) :
    (reached (g.run directives)).WellNamed := by
  induction directives generalizing g with
  | nil => exact h
  | cons directive rest ih =>
    obtain ⟨hfirst, hrest⟩ := List.forall_mem_cons.1 hdirectives
    have hstep := h.perform hfirst
    rw [run_cons]
    cases hperform : g.perform directive with
    | ok next =>
      rw [hperform] at hstep
      exact ih hstep hrest
    | error stop =>
      rw [hperform] at hstep
      exact hstep

end WellNamed

theorem wellNamed_opened {name : String} (hname : isIdentifier name = true) :
    ({ className := name } : Generator).WellNamed := by
  refine ⟨hname, fun inClass other entry hentry => ?_, List.forall_mem_nil _⟩
  cases (Scopes.binding?_empty inClass other).symm.trans hentry

/-- Nothing is done before the class has its name. -/
theorem run_wellNamed {directives : List Directive}
    (hdirectives : ∀ directive ∈ directives, directive.WellNamed)
    (hhead : directives = [] ∨ ∃ name rest, directives = .openClass name :: rest) :
    ∀ command ∈ (reached (({} : Generator).run directives)).commands, command.WellNamed := by
  rcases hhead with rfl | ⟨name, rest, rfl⟩
  · exact List.forall_mem_nil _
  · obtain ⟨hname, hrest⟩ := List.forall_mem_cons.1 hdirectives
    rw [run_cons]
    exact (((wellNamed_opened hname).log _ _ _).run hrest).commands

end Generator

/-- All commands of a text are well named, also where its compilation fails. -/
theorem compile_wellNamed (source : String) :
    ∀ command ∈ (compile source).commands, command.WellNamed := by
  cases hreader : Reader.ofSource source with
  | error error =>
    have hnone : (compile source).commands = [] := by
      rw [compile, hreader]
      rfl
    rw [hnone]
    exact List.forall_mem_nil _
  | ok reader =>
    obtain ⟨hlast, htokens, hend⟩ := Reader.isPiece_of_ofSource hreader
    rw [compile_eq_work hreader, Reader.work_commands]
    exact Generator.run_wellNamed (Reader.directives_wellNamed hlast htokens hend)
      (Reader.directives_head hlast)

end JackCompiler
