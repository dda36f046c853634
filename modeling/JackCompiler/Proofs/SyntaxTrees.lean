import JackCompiler.Directive.Basic
import JackCompiler.Proofs.Lexemes

/-!
Syntax trees of the grammar, one constructor for each way a rule can be read, and the lexemes each
tree stands for. Reading builds no tree; trees are what its result is measured against.
-/

namespace JackCompiler.Tree

inductive BinaryOperator where
  | add | subtract | multiply | divide | and | or | less | greater | equal
deriving DecidableEq

def BinaryOperator.symbol : BinaryOperator → Symbol
  | add => .plus
  | subtract => .minus
  | multiply => .star
  | divide => .slash
  | and => .amp
  | or => .pipe
  | less => .less
  | greater => .greater
  | equal => .equal

inductive UnaryOperator where
  | negate | complement
deriving DecidableEq

def UnaryOperator.symbol : UnaryOperator → Symbol
  | negate => .minus
  | complement => .tilde

inductive KeywordConstant where
  | true_ | false_ | null_ | this_
deriving DecidableEq

def KeywordConstant.keyword : KeywordConstant → Keyword
  | true_ => .true_
  | false_ => .false_
  | null_ => .null_
  | this_ => .this_

mutual

/-- A term and what follows it: `term (op term)*`. -/
inductive Expression where
  | mk (first : Term) (rest : Operations)

inductive Operations where
  | nil
  | cons (operator : BinaryOperator) (operand : Term) (rest : Operations)

inductive Term where
  | integer (value : Nat)
  | string (text : String)
  | constant (word : KeywordConstant)
  | variable_ (name : String)
  | element (array : String) (index : Expression)
  | call (call : Call)
  | group (inner : Expression)
  | unary (operator : UnaryOperator) (operand : Term)

/-- A call of a method of the current object, or of a subroutine of the class or object `owner`. -/
inductive Call where
  | own (name : String) (arguments : Arguments)
  | member (owner name : String) (arguments : Arguments)

inductive Arguments where
  | nil
  | cons (first : Expression) (rest : Arguments)

end

mutual

inductive Statement where
  | assign (name : String) (value : Expression)
  | assignElement (array : String) (index value : Expression)
  | choice (condition : Expression) (body : Statements)
  | choiceElse (condition : Expression) (body otherwise : Statements)
  | loop (condition : Expression) (body : Statements)
  | invoke (call : Call)
  | returnNothing
  | returnValue (value : Expression)

inductive Statements where
  | nil
  | cons (first : Statement) (rest : Statements)

end

inductive TypeName where
  | int_ | char_ | boolean_
  | class_ (name : String)
deriving DecidableEq

def TypeName.text : TypeName → String
  | int_ => Keyword.int_.text
  | char_ => Keyword.char_.text
  | boolean_ => Keyword.boolean_.text
  | class_ name => name

/-- Variables of one type. -/
structure Variables where
  type : TypeName
  first : String
  others : List String
deriving DecidableEq

def Variables.names (line : Variables) : List String :=
  line.first :: line.others

inductive ClassScope where
  | static | field
deriving DecidableEq

namespace ClassScope

def keyword : ClassScope → Keyword
  | static => .static_
  | field => .field_

def kind : ClassScope → VariableKind
  | static => .static
  | field => .field

end ClassScope

structure ClassVariables extends Variables where
  scope : ClassScope
deriving DecidableEq

structure Parameter where
  type : TypeName
  name : String
deriving DecidableEq

/-- A subroutine without a return type returns `void`. -/
structure Subroutine where
  kind : SubroutineKind
  returnType : Option TypeName
  name : String
  parameters : List Parameter
  locals : List Variables
  body : Statements

structure Class where
  name : String
  classVariables : List ClassVariables
  subroutines : List Subroutine

/-! ### The lexemes of a tree -/

mutual

def Expression.yield : Expression → List Lexeme
  | .mk first rest => first.yield ++ rest.yield

def Operations.yield : Operations → List Lexeme
  | .nil => []
  | .cons operator operand rest => .symbol operator.symbol :: (operand.yield ++ rest.yield)

def Term.yield : Term → List Lexeme
  | .integer value => [.integer value]
  | .string text => [.string text]
  | .constant word => [.keyword word.keyword]
  | .variable_ name => [.identifier name]
  | .element array index =>
    .identifier array :: .symbol .leftBracket :: (index.yield ++ [.symbol .rightBracket])
  | .call call => call.yield
  | .group inner => .symbol .leftParen :: (inner.yield ++ [.symbol .rightParen])
  | .unary operator operand => .symbol operator.symbol :: operand.yield

def Call.yield : Call → List Lexeme
  | .own name arguments =>
    .identifier name :: .symbol .leftParen :: (arguments.yield ++ [.symbol .rightParen])
  | .member owner name arguments =>
    .identifier owner :: .symbol .dot :: .identifier name :: .symbol .leftParen ::
      (arguments.yield ++ [.symbol .rightParen])

def Arguments.yield : Arguments → List Lexeme
  | .nil => []
  | .cons first rest => first.yield ++ rest.further

/-- The lexemes of arguments that have others before them. -/
def Arguments.further : Arguments → List Lexeme
  | .nil => []
  | .cons first rest => .symbol .comma :: (first.yield ++ rest.further)

end

/-- Arguments have no fewer lexemes if there are others before them. -/
theorem Arguments.yield_subset_further (x : Arguments) : x.yield ⊆ x.further := by
  cases x with
  | nil => exact List.Subset.refl _
  | cons first rest => exact List.subset_cons_self _ _

mutual

def Statement.yield : Statement → List Lexeme
  | .assign name value =>
    .keyword .let_ :: .identifier name :: .symbol .equal :: (value.yield ++ [.symbol .semicolon])
  | .assignElement array index value =>
    .keyword .let_ :: .identifier array :: .symbol .leftBracket :: (index.yield ++
      .symbol .rightBracket :: .symbol .equal :: (value.yield ++ [.symbol .semicolon]))
  | .choice condition body =>
    .keyword .if_ :: .symbol .leftParen :: (condition.yield ++
      .symbol .rightParen :: .symbol .leftBrace :: (body.yield ++ [.symbol .rightBrace]))
  | .choiceElse condition body otherwise =>
    .keyword .if_ :: .symbol .leftParen :: (condition.yield ++
      .symbol .rightParen :: .symbol .leftBrace :: (body.yield ++
        .symbol .rightBrace :: .keyword .else_ :: .symbol .leftBrace ::
          (otherwise.yield ++ [.symbol .rightBrace])))
  | .loop condition body =>
    .keyword .while_ :: .symbol .leftParen :: (condition.yield ++
      .symbol .rightParen :: .symbol .leftBrace :: (body.yield ++ [.symbol .rightBrace]))
  | .invoke call => .keyword .do_ :: (call.yield ++ [.symbol .semicolon])
  | .returnNothing => [.keyword .return_, .symbol .semicolon]
  | .returnValue value => .keyword .return_ :: (value.yield ++ [.symbol .semicolon])

def Statements.yield : Statements → List Lexeme
  | .nil => []
  | .cons first rest => first.yield ++ rest.yield

end

def TypeName.lexeme : TypeName → Lexeme
  | int_ => .keyword .int_
  | char_ => .keyword .char_
  | boolean_ => .keyword .boolean_
  | class_ name => .identifier name

/-- Names after the first one, each after a comma. -/
def furtherNames (names : List String) : List Lexeme :=
  names.flatMap fun name => [.symbol .comma, .identifier name]

def Variables.yield (line : Variables) : List Lexeme :=
  line.type.lexeme :: .identifier line.first ::
    (furtherNames line.others ++ [.symbol .semicolon])

def ClassVariables.yield (line : ClassVariables) : List Lexeme :=
  .keyword line.scope.keyword :: line.toVariables.yield

def Parameter.yield (parameter : Parameter) : List Lexeme :=
  [parameter.type.lexeme, .identifier parameter.name]

def parametersYield : List Parameter → List Lexeme
  | [] => []
  | first :: rest => first.yield ++ rest.flatMap fun other => .symbol .comma :: other.yield

def localsYield (locals : List Variables) : List Lexeme :=
  locals.flatMap fun line => .keyword .var_ :: line.yield

def subroutineKeyword : SubroutineKind → Keyword
  | .constructor => .constructor_
  | .function => .function_
  | .method => .method_

def returnLexeme : Option TypeName → Lexeme
  | none => .keyword .void_
  | some type => type.lexeme

def Subroutine.yield (subroutine : Subroutine) : List Lexeme :=
  .keyword (subroutineKeyword subroutine.kind) :: returnLexeme subroutine.returnType ::
    .identifier subroutine.name :: .symbol .leftParen ::
      (parametersYield subroutine.parameters ++ .symbol .rightParen :: .symbol .leftBrace ::
        (localsYield subroutine.locals ++ (subroutine.body.yield ++ [.symbol .rightBrace])))

def Class.yield (tree : Class) : List Lexeme :=
  .keyword .class_ :: .identifier tree.name :: .symbol .leftBrace ::
    (tree.classVariables.flatMap ClassVariables.yield ++
      (tree.subroutines.flatMap Subroutine.yield ++ [.symbol .rightBrace]))

/-! ### Counts -/

def Arguments.count : Arguments → Nat
  | .nil => 0
  | .cons _ rest => rest.count + 1

mutual

/-- How many choices and loops there are, nested ones included. -/
def Statement.branches : Statement → Nat
  | .choice _ body | .loop _ body => body.branches + 1
  | .choiceElse _ body otherwise => body.branches + otherwise.branches + 1
  | _ => 0

def Statements.branches : Statements → Nat
  | .nil => 0
  | .cons first rest => first.branches + rest.branches

end

end JackCompiler.Tree
