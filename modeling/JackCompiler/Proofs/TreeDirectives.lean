import JackCompiler.Proofs.SyntaxTrees

/-!
The directives of a tree, in the order in which reading adds them. A tree does not know where its
names stand in the text, so its directives are those of reading without the places of their tokens.
Choices and loops are numbered in the order in which they start, and the one with number `k` has
the labels `2 * k` and `2 * k + 1`.
-/

namespace JackCompiler

/-- A token that only says how something is spelled. -/
def Token.unplaced (text : String) : Token :=
  ⟨.identifier, text, ⟨0, 0⟩⟩

/-- The directive without the places of its tokens. -/
def Directive.unplaced : Directive → Directive
  | .openSubroutine kind _ => .openSubroutine kind (.unplaced "")
  | .declare kind type name => .declare kind type (.unplaced name.text)
  | .require name => .require (.unplaced name.text)
  | .load name => .load (.unplaced name.text)
  | .store name => .store (.unplaced name.text)
  | .build string => .build (.unplaced string.text)
  | .receiver owner => .receiver (.unplaced owner.text)
  | .invoke owner member arguments => .invoke (.unplaced owner.text) member arguments
  | .invokeOwn method arguments => .invokeOwn (.unplaced method.text) arguments
  | directive => directive

namespace Tree

def BinaryOperator.command : BinaryOperator → Command
  | add => .operate .add
  | subtract => .operate .sub
  | multiply => .call "Math.multiply" 2
  | divide => .call "Math.divide" 2
  | and => .operate .and
  | or => .operate .or
  | less => .operate .lt
  | greater => .operate .gt
  | equal => .operate .eq

def UnaryOperator.command : UnaryOperator → Command
  | negate => .operate .neg
  | complement => .operate .not

def KeywordConstant.code : KeywordConstant → List Command
  | true_ => [.push .constant 0, .operate .not]
  | false_ | null_ => [.push .constant 0]
  | this_ => [.push .pointer 0]

mutual

def Expression.directives : Expression → List Directive
  | .mk first rest => first.directives ++ rest.directives

def Operations.directives : Operations → List Directive
  | .nil => []
  | .cons operator operand rest =>
    operand.directives ++ .emit operator.command :: rest.directives

def Term.directives : Term → List Directive
  | .integer value => [.emit (.push .constant value)]
  | .string text => [.build (.unplaced text)]
  | .constant word => word.code.map .emit
  | .variable_ name => [.load (.unplaced name)]
  | .element array index =>
    .load (.unplaced array) :: (index.directives ++
      [.emit (.operate .add), .emit (.pop .pointer 1), .emit (.push .that 0)])
  | .call call => call.directives
  | .group inner => inner.directives
  | .unary operator operand => operand.directives ++ [.emit operator.command]

def Call.directives : Call → List Directive
  | .own name arguments =>
    .emit (.push .pointer 0) ::
      (arguments.directives ++ [.invokeOwn (.unplaced name) arguments.count])
  | .member owner name arguments =>
    .receiver (.unplaced owner) ::
      (arguments.directives ++ [.invoke (.unplaced owner) name arguments.count])

def Arguments.directives : Arguments → List Directive
  | .nil => []
  | .cons first rest => first.directives ++ rest.directives

end

mutual

def Statement.directives (k : Nat) : Statement → List Directive
  | .assign name value =>
    .require (.unplaced name) :: (value.directives ++ [.store (.unplaced name)])
  | .assignElement array index value =>
    .require (.unplaced array) :: .load (.unplaced array) :: (index.directives ++
      .emit (.operate .add) :: (value.directives ++
        [.emit (.pop .temp 0), .emit (.pop .pointer 1), .emit (.push .temp 0),
          .emit (.pop .that 0)]))
  | .choice condition body =>
    condition.directives ++
      .emit (.operate .not) :: .emit (.ifGoto (labelName (2 * k))) ::
        (body.directives (k + 1) ++
          [.emit (.goto (labelName (2 * k + 1))), .emit (.label (labelName (2 * k))),
            .emit (.label (labelName (2 * k + 1)))])
  | .choiceElse condition body otherwise =>
    condition.directives ++
      .emit (.operate .not) :: .emit (.ifGoto (labelName (2 * k))) ::
        (body.directives (k + 1) ++
          .emit (.goto (labelName (2 * k + 1))) :: .emit (.label (labelName (2 * k))) ::
            (otherwise.directives (k + 1 + body.branches) ++
              [.emit (.label (labelName (2 * k + 1)))]))
  | .loop condition body =>
    .emit (.label (labelName (2 * k))) :: (condition.directives ++
      .emit (.operate .not) :: .emit (.ifGoto (labelName (2 * k + 1))) ::
        (body.directives (k + 1) ++
          [.emit (.goto (labelName (2 * k))), .emit (.label (labelName (2 * k + 1)))]))
  | .invoke call => call.directives ++ [.emit (.pop .temp 0)]
  | .returnNothing => [.emit (.push .constant 0), .emit .ret]
  | .returnValue value => value.directives ++ [.emit .ret]

def Statements.directives (k : Nat) : Statements → List Directive
  | .nil => []
  | .cons first rest => first.directives k ++ rest.directives (k + first.branches)

end

def Variables.directives (kind : VariableKind) (line : Variables) : List Directive :=
  line.names.map fun name => .declare kind line.type.text (.unplaced name)

def ClassVariables.directives (line : ClassVariables) : List Directive :=
  line.toVariables.directives line.scope.kind

def Parameter.directive (parameter : Parameter) : Directive :=
  .declare .argument parameter.type.text (.unplaced parameter.name)

def Subroutine.directives (k : Nat) (subroutine : Subroutine) : List Directive :=
  .openSubroutine subroutine.kind (.unplaced "") ::
    .nameSubroutine subroutine.kind subroutine.name ::
      (subroutine.parameters.map Parameter.directive ++
        (subroutine.locals.flatMap (Variables.directives .local_) ++
          .openBody subroutine.kind subroutine.name :: subroutine.body.directives k))

def subroutineDirectives (k : Nat) : List Subroutine → List Directive
  | [] => []
  | first :: rest => first.directives k ++ subroutineDirectives (k + first.body.branches) rest

def Class.directives (tree : Class) : List Directive :=
  .openClass tree.name ::
    (tree.classVariables.flatMap ClassVariables.directives ++
      subroutineDirectives 0 tree.subroutines)

def subroutineBranches : List Subroutine → Nat
  | [] => 0
  | first :: rest => first.body.branches + subroutineBranches rest

end Tree

end JackCompiler
