import JackCompiler.Proofs.Generation
import JackCompiler.Proofs.ReadingCompleteness

/-!
Compiling in one pass is the same as reading a tree and generating its code. The directives that
reading adds for a tree issue exactly the code of the tree, so a text that compiles has one tree,
and its code is what is written.
-/

namespace JackCompiler

namespace Tree

open Generator

/-! ### Expressions and statements -/

mutual

theorem Expression.generates (c : Context) (e : Expression) :
    Generates c e.directives (c.AllowsAll e.uses) (e.code c) c := by
  cases e with
  | mk first rest =>
    exact ((first.generates c).trans (rest.generates c)).congr Context.allowsAll_append.symm
termination_by structural e

theorem Operations.generates (c : Context) (x : Operations) :
    Generates c x.directives (c.AllowsAll x.uses) (x.code c) c := by
  cases x with
  | nil => exact (Generates.refl c).congr (by simp [Operations.uses, Context.AllowsAll])
  | cons operator operand rest =>
    have h := (operand.generates c).trans ((Generates.emit c operator.command).trans
      (rest.generates c))
    exact h.congr (by rw [Operations.uses, Context.allowsAll_append, true_and])
termination_by structural x

theorem Term.generates (c : Context) (e : Term) :
    Generates c e.directives (c.AllowsAll e.uses) (e.code c) c := by
  cases e with
  | integer value =>
    exact (Generates.emit c _).congr (by simp [Term.uses, Context.AllowsAll])
  | string text =>
    exact (generates_build c (.unplaced text)).congr (by simp [Term.uses, Context.AllowsAll,
      Token.unplaced])
  | constant word =>
    exact (Generates.emits c word.code).congr (by simp [Term.uses, Context.AllowsAll])
  | variable_ name =>
    exact (generates_load c (.unplaced name)).congr (by simp [Term.uses, Context.AllowsAll,
      Token.unplaced])
  | element array index =>
    have hload := generates_load c (.unplaced array)
    have haccess := Generates.emits c [.operate .add, .pop .pointer 1, .push .that 0]
    exact (hload.trans ((index.generates c).trans haccess)).congr (by
      rw [Term.uses, Context.allowsAll_cons, and_true]
      rfl)
  | call call => exact call.generates c
  | group inner => exact inner.generates c
  | unary operator operand =>
    exact ((operand.generates c).trans (Generates.emit c operator.command)).congr
      (by rw [Term.uses, and_true])
termination_by structural e

theorem Call.generates (c : Context) (call : Call) :
    Generates c call.directives (c.AllowsAll call.uses) (call.code c) c := by
  cases call with
  | own name arguments =>
    have hcall := generates_invokeOwn c (.unplaced name) arguments.count
    have h := (Generates.emit c (.push .pointer 0)).trans ((arguments.generates c).trans hcall)
    exact h.congr (by rw [Call.uses, Context.allowsAll_cons, true_and, and_comm])
  | member owner name arguments =>
    have hreceiver := generates_receiver c (.unplaced owner)
    cases hentry : c.lookup? owner with
    | some entry =>
      have hcall := generates_invoke_variable
        (show c.lookup? (Token.unplaced owner).text = some entry from hentry) name arguments.count
      have h := hreceiver.trans ((arguments.generates c).trans hcall)
      have hcode : (Call.member owner name arguments).code c =
          c.load owner ++ (arguments.code c ++
            [.call (entry.type ++ "." ++ name) (arguments.count + 1)]) := by
        simp only [Call.code, Context.load, hentry, Option.elim_some, List.cons_append,
          List.nil_append]
      rw [hcode]
      exact h.congr (by rw [Call.uses, Context.allowsAll_cons, true_and, and_comm]; rfl)
    | none =>
      have hcall := generates_invoke_class
        (show c.lookup? (Token.unplaced owner).text = none from hentry) name arguments.count
      have h := hreceiver.trans ((arguments.generates c).trans hcall)
      have hcode : (Call.member owner name arguments).code c =
          c.load owner ++ (arguments.code c ++
            [.call (owner ++ "." ++ name) arguments.count]) := by
        simp only [Call.code, Context.load, hentry, Option.elim_none, List.nil_append]
      rw [hcode]
      exact h.congr (by rw [Call.uses, Context.allowsAll_cons, true_and, and_comm]; rfl)
termination_by structural call

theorem Arguments.generates (c : Context) (x : Arguments) :
    Generates c x.directives (c.AllowsAll x.uses) (x.code c) c := by
  cases x with
  | nil => exact (Generates.refl c).congr (by simp [Arguments.uses, Context.AllowsAll])
  | cons first rest =>
    exact ((first.generates c).trans (rest.generates c)).congr Context.allowsAll_append.symm
termination_by structural x

end

theorem Statement.generates_assign (c : Context) (k : Nat) (name : String) (value : Expression) :
    Generates c ((Statement.assign name value).directives k)
      (c.AllowsAll (Statement.assign name value).uses)
      ((Statement.assign name value).code c k) c := by
  have h := (generates_require c (.unplaced name)).trans
    ((value.generates c).trans (generates_store c (.unplaced name)))
  apply h.congr
  rw [Statement.uses, Context.allowsAll_cons]
  constructor
  · rintro ⟨hname, hvalue, -⟩
    exact ⟨hname, hvalue⟩
  · rintro ⟨hname, hvalue⟩
    exact ⟨hname, hvalue, hname⟩

theorem Statement.generates_assignElement (c : Context) (k : Nat) (array : String)
    (index value : Expression) :
    Generates c ((Statement.assignElement array index value).directives k)
      (c.AllowsAll (Statement.assignElement array index value).uses)
      ((Statement.assignElement array index value).code c k) c := by
  have hbase := (generates_require c (.unplaced array)).trans (generates_load c (.unplaced array))
  have hstore := Generates.emits c [.pop .temp 0, .pop .pointer 1, .push .temp 0, .pop .that 0]
  have h := hbase.trans ((index.generates c).trans
    ((Generates.emit c (.operate .add)).trans ((value.generates c).trans hstore)))
  apply h.congr
  rw [Statement.uses, Context.allowsAll_cons, Context.allowsAll_append]
  constructor
  · rintro ⟨⟨harray, -⟩, hindex, -, hvalue, -⟩
    exact ⟨harray, hindex, hvalue⟩
  · rintro ⟨harray, hindex, hvalue⟩
    exact ⟨⟨harray, harray⟩, hindex, trivial, hvalue, trivial⟩

/-- A condition and the jump where it does not hold. -/
theorem Expression.generates_guard (c : Context) (condition : Expression) (otherwise : String) :
    Generates c (condition.directives ++ [.emit (.operate .not), .emit (.ifGoto otherwise)])
      (c.AllowsAll condition.uses)
      (condition.code c ++ [.operate .not, .ifGoto otherwise]) c :=
  ((condition.generates c).trans (Generates.emits c [.operate .not, .ifGoto otherwise])).congr
    (by rw [and_true])

mutual

theorem Statement.generates (c : Context) (k : Nat) (x : Statement) :
    Generates c (x.directives k) (c.AllowsAll x.uses) (x.code c k) c := by
  cases x with
  | assign name value => exact Statement.generates_assign c k name value
  | assignElement array index value =>
    exact Statement.generates_assignElement c k array index value
  | choice condition body =>
    have hguard := condition.generates_guard c (labelName (2 * k))
    have hend := Generates.emits c [.goto (labelName (2 * k + 1)), .label (labelName (2 * k)),
      .label (labelName (2 * k + 1))]
    have h := hguard.trans ((body.generates c (k + 1)).trans hend)
    rw [List.append_assoc, List.append_assoc] at h
    exact h.congr (by rw [Statement.uses, Context.allowsAll_append, and_true])
  | choiceElse condition body otherwise =>
    have hguard := condition.generates_guard c (labelName (2 * k))
    have hmiddle := Generates.emits c [.goto (labelName (2 * k + 1)), .label (labelName (2 * k))]
    have hend := Generates.emit c (.label (labelName (2 * k + 1)))
    have h := hguard.trans ((body.generates c (k + 1)).trans (hmiddle.trans
      ((otherwise.generates c (k + 1 + body.branches)).trans hend)))
    rw [List.append_assoc, List.append_assoc] at h
    exact h.congr (by
      rw [Statement.uses, Context.allowsAll_append, Context.allowsAll_append, true_and, and_true])
  | loop condition body =>
    have hstart := Generates.emit c (.label (labelName (2 * k)))
    have hguard := condition.generates_guard c (labelName (2 * k + 1))
    have hend := Generates.emits c [.goto (labelName (2 * k)), .label (labelName (2 * k + 1))]
    have h := hstart.trans (hguard.trans ((body.generates c (k + 1)).trans hend))
    rw [List.append_assoc, List.append_assoc] at h
    exact h.congr (by rw [Statement.uses, Context.allowsAll_append, true_and, and_true])
  | invoke call =>
    exact ((call.generates c).trans (Generates.emit c (.pop .temp 0))).congr
      (by rw [Statement.uses, and_true])
  | returnNothing =>
    exact (Generates.emits c [.push .constant 0, .ret]).congr
      (by simp [Statement.uses, Context.AllowsAll])
  | returnValue value =>
    exact ((value.generates c).trans (Generates.emit c .ret)).congr
      (by rw [Statement.uses, and_true])
termination_by structural x

theorem Statements.generates (c : Context) (k : Nat) (x : Statements) :
    Generates c (x.directives k) (c.AllowsAll x.uses) (x.code c k) c := by
  cases x with
  | nil => exact (Generates.refl c).congr (by simp [Statements.uses, Context.AllowsAll])
  | cons first rest =>
    exact ((first.generates c k).trans (rest.generates c (k + first.branches))).congr
      Context.allowsAll_append.symm
termination_by structural x

end

/-! ### Subroutines and classes -/

theorem Variables.directives_eq (kind : VariableKind) (line : Variables) :
    line.directives kind = (line.declarations kind).map fun declaration =>
      .declare declaration.kind declaration.type (.unplaced declaration.name) := by
  rw [Variables.directives, Variables.declarations, List.map_map]
  rfl

theorem Parameter.directives_eq (parameters : List Parameter) :
    parameters.map Parameter.directive = (parameters.map Parameter.declaration).map
      fun declaration =>
        .declare declaration.kind declaration.type (.unplaced declaration.name) := by
  rw [List.map_map]
  rfl

theorem Class.directives_eq (tree : Class) :
    tree.classVariables.flatMap ClassVariables.directives = tree.declarations.map fun declaration =>
      .declare declaration.kind declaration.type (.unplaced declaration.name) := by
  rw [Class.declarations, List.map_flatMap]
  congr 1
  funext line
  exact line.directives_eq line.scope.kind

theorem Subroutine.locals_eq (locals : List Variables) :
    locals.flatMap (Variables.directives .local_) =
      (locals.flatMap (Variables.declarations .local_)).map fun declaration =>
        .declare declaration.kind declaration.type (.unplaced declaration.name) := by
  rw [List.map_flatMap]
  congr 1
  funext line
  exact line.directives_eq .local_

theorem Class.inClass_declarations (tree : Class) :
    ∀ declaration ∈ tree.declarations, declaration.kind.inClass = true := by
  intro declaration hmem
  obtain ⟨line, -, hdeclaration⟩ := List.mem_flatMap.1 hmem
  obtain ⟨name, -, rfl⟩ := List.mem_map.1 hdeclaration
  cases line.scope <;> rfl

theorem Subroutine.inClass_declarations (className : String) (subroutine : Subroutine) :
    ∀ declaration ∈ subroutine.declarations className, declaration.kind.inClass = false := by
  intro declaration hmem
  rcases List.mem_append.1 hmem with hreceiver | hrest
  · cases hkind : subroutine.kind with
    | constructor => simp [receiverDeclarations, hkind] at hreceiver
    | function => simp [receiverDeclarations, hkind] at hreceiver
    | method =>
      rw [receiverDeclarations.eq_def, hkind] at hreceiver
      obtain rfl := List.mem_singleton.1 hreceiver
      rfl
  · rcases List.mem_append.1 hrest with hparameter | hlocal
    · obtain ⟨parameter, -, rfl⟩ := List.mem_map.1 hparameter
      rfl
    · obtain ⟨line, -, hdeclaration⟩ := List.mem_flatMap.1 hlocal
      obtain ⟨name, -, rfl⟩ := List.mem_map.1 hdeclaration
      rfl

/-- Whatever the subroutine before it declared is gone when a subroutine starts. -/
theorem Subroutine.context_eq (tree : Class) (subroutine : Subroutine) (own : List Declaration) :
    (({ tree.context with ofSubroutine := own } : Context).startSubroutine.declareAll
        (receiverDeclarations tree.name subroutine.kind)).declareAll
      (subroutine.parameters.map Parameter.declaration ++
        subroutine.locals.flatMap (Variables.declarations .local_)) = subroutine.context tree := by
  rw [← Context.declareAll_append, ← Subroutine.declarations,
    Context.declareAll_ofSubroutine _ (subroutine.inClass_declarations tree.name)]
  simp [Subroutine.context, Subroutine.declarations, Context.startSubroutine]

/-- What a subroutine of the class must keep to. -/
def Subroutine.Allowed (tree : Class) (subroutine : Subroutine) : Prop :=
  (subroutine.context tree).Fits ∧ (subroutine.context tree).AllowsAll subroutine.body.uses

theorem Subroutine.generates (tree : Class) (own : List Declaration) (k : Nat)
    (subroutine : Subroutine) :
    Generates { tree.context with ofSubroutine := own } (subroutine.directives k)
      (subroutine.Allowed tree) (subroutine.code (subroutine.context tree) k)
      (subroutine.context tree) := by
  let c : Context := { tree.context with ofSubroutine := own }
  let opened := c.startSubroutine.declareAll (receiverDeclarations tree.name subroutine.kind)
  have hopen : Generates c _ True [] opened :=
    generates_openSubroutine c subroutine.kind (.unplaced "")
  have hname := generates_nameSubroutine opened subroutine.kind subroutine.name
  have hdeclare := generates_declareAll (subroutine.parameters.map Parameter.declaration ++
    subroutine.locals.flatMap (Variables.declarations .local_)) opened
  rw [show opened.declareAll _ = subroutine.context tree from subroutine.context_eq tree own]
    at hdeclare
  have hbody := generates_openBody (subroutine.context tree) subroutine.kind subroutine.name
  have hcode := subroutine.body.generates (subroutine.context tree) k
  have h := hopen.trans (hname.trans (hdeclare.trans (hbody.trans hcode)))
  rw [List.map_append, ← Parameter.directives_eq, ← Subroutine.locals_eq, List.append_assoc] at h
  apply h.congr
  rw [Subroutine.Allowed, true_and, true_and, true_and]

theorem subroutines_generate (tree : Class) (list : List Subroutine) (own : List Declaration)
    (k : Nat) :
    ∃ last, Generates { tree.context with ofSubroutine := own } (subroutineDirectives k list)
      (∀ subroutine ∈ list, subroutine.Allowed tree)
      ((numbered k list).flatMap fun (k, subroutine) => subroutine.code (subroutine.context tree) k)
      { tree.context with ofSubroutine := last } := by
  induction list generalizing own k with
  | nil => exact ⟨own, (Generates.refl _).congr (by simp)⟩
  | cons first rest ih =>
    obtain ⟨last, hrest⟩ :=
      ih (first.declarations tree.name).reverse (k + first.body.branches)
    refine ⟨last, ?_⟩
    exact ((first.generates tree own k).trans hrest).congr List.forall_mem_cons.symm

/-- What a class must keep to. -/
def Class.Allowed (tree : Class) : Prop :=
  tree.context.Fits ∧ ∀ subroutine ∈ tree.subroutines, subroutine.Allowed tree

theorem Class.generates (tree : Class) :
    ∃ last, Generates {} tree.directives tree.Allowed tree.code
      { tree.context with ofSubroutine := last } := by
  have hopen := generates_openClass {} tree.name
  have hdeclare := generates_declareAll tree.declarations { className := tree.name }
  rw [Context.declareAll_ofClass _ tree.inClass_declarations, ← tree.directives_eq] at hdeclare
  obtain ⟨last, hsubroutines⟩ := subroutines_generate tree tree.subroutines [] 0
  have hcontext : ({ className := tree.name, ofClass := tree.declarations.reverse ++ [] } : Context)
      = tree.context := by
    rw [List.append_nil]
    rfl
  rw [hcontext] at hdeclare
  refine ⟨last, (hopen.trans (hdeclare.trans hsubroutines)).congr ?_⟩
  rw [Class.Allowed, true_and]

end Tree

/-! ### Places

Where the tokens of its directives stand makes no difference to what a generator does, only to how
it reports a failure. -/

namespace Generator

theorem toOption_declare (g : Generator) (kind : VariableKind) (type name : String)
    (token other : Token) :
    (g.declare kind type name token).toOption = (g.declare kind type name other).toOption := by
  unfold declare
  split <;> rfl

theorem toOption_map_resolve (g : Generator) (f : Variable → Generator) (name : Token) :
    ((g.resolve name).map f).toOption = (g.scopes.lookup? name.text).map f := by
  unfold resolve
  cases g.scopes.lookup? name.text <;> rfl

theorem toOption_call (g : Generator) (callee : String) (arguments : Nat) (token other : Token) :
    (g.call callee arguments token).toOption = (g.call callee arguments other).toOption := by
  unfold call
  split <;> rfl

theorem toOption_build (g : Generator) (string : Token) :
    (g.build (.unplaced string.text)).toOption = (g.build string).toOption := by
  unfold build
  simp only [Token.unplaced]
  cases string.text.toList.find? (0xFFFF < ·.toNat) with
  | some character => rfl
  | none =>
    by_cases hlength : string.text.toList.length ≤ maxInteger
    · rw [if_pos hlength]
      exact congrArg Except.toOption (if_pos hlength)
    · rw [if_neg hlength]
      exact (congrArg Except.toOption (if_neg hlength)).trans rfl

theorem toOption_bind {α β : Type} (x : Outcome α) (f : α → Outcome β) :
    (x >>= f).toOption = x.toOption.bind fun a => (f a).toOption := by
  cases x <;> rfl

theorem eq_ok_iff {α : Type} (x : Outcome α) (a : α) : x = .ok a ↔ x.toOption = some a := by
  cases x <;> simp [Except.toOption]

theorem toOption_perform (g : Generator) (directive : Directive) :
    (g.perform directive.unplaced).toOption = (g.perform directive).toOption := by
  cases directive with
  | openSubroutine kind keyword =>
    by_cases hmethod : kind = .method
    · simp only [Directive.unplaced, perform, if_pos hmethod]
      exact toOption_declare _ _ _ _ _ _
    · simp only [Directive.unplaced, perform, if_neg hmethod]
  | declare kind type name => exact toOption_declare _ _ _ _ _ _
  | require name =>
    simp only [Directive.unplaced, perform, toOption_map_resolve, Token.unplaced]
  | load name => simp only [Directive.unplaced, perform, toOption_map_resolve, Token.unplaced]
  | store name => simp only [Directive.unplaced, perform, toOption_map_resolve, Token.unplaced]
  | build string => exact toOption_build g string
  | invoke owner member arguments =>
    simp only [Directive.unplaced, perform, Token.unplaced]
    cases g.scopes.lookup? owner.text with
    | some entry => exact toOption_call _ _ _ _ _
    | none => exact toOption_call _ _ _ _ _
  | invokeOwn method arguments => exact toOption_call _ _ _ _ _
  | _ => rfl

theorem toOption_run (directives : List Directive) (g : Generator) :
    (g.run (directives.map Directive.unplaced)).toOption = (g.run directives).toOption := by
  induction directives generalizing g with
  | nil => rfl
  | cons directive rest ih =>
    rw [List.map_cons, run_cons, run_cons, toOption_bind, toOption_bind, toOption_perform]
    congr 1
    funext next
    exact ih next

theorem run_unplaced (directives : List Directive) (g g' : Generator) :
    g.run (directives.map Directive.unplaced) = .ok g' ↔ g.run directives = .ok g' := by
  rw [eq_ok_iff, eq_ok_iff, toOption_run]

end Generator

end JackCompiler
