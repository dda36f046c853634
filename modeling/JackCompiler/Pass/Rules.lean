import JackCompiler.Pass.Basic

/-!
The rules of the grammar as parts of a single pass. Each rule takes exactly the tokens of its
production, writes the commands for them as it goes, and leaves the current token on whatever
follows. A rule that a keyword or a name has already been taken for is given that token, and a loop
over things that stand one after another is a rule of its own.
-/

namespace JackCompiler

/-- A rule of the grammar, or a loop in one, with what it is given. -/
inductive Rule where
  | expression
  /-- A loop over operators and terms. -/
  | operations
  | term
  | index
  | call (name : Token)
  | arguments
  /-- A loop over commas and arguments. -/
  | moreArguments (count : Nat)
  | assignment
  | invocation
  | returning
  | condition (otherwise : String)
  /-- A loop over statements. -/
  | statements
  | choice
  | loop
  | block
  /-- A loop over names and commas. -/
  | names (kind : VariableKind) (type : String)
  | declaration (kind : VariableKind)
  /-- A loop over declarations. -/
  | classVariables
  /-- A loop over declarations. -/
  | localVariables
  /-- A loop over parameters and commas. -/
  | moreParameters
  | parameters
  | body (kind : SubroutineKind) (name : String)
  | subroutine (kind : SubroutineKind) (keyword : Token)
  /-- A loop over subroutines. -/
  | subroutines
  | wholeClass

namespace Pass

variable {ω : Type}

/-- Primitive types and names of classes. A subroutine may give nothing instead. -/
def isType (allowVoid : Bool) : TokenKind → Bool
  | .keyword .int_ | .keyword .char_ | .keyword .boolean_ | .identifier => true
  | .keyword .void_ => allowVoid
  | _ => false

/-- What a message calls them. -/
def typeName (allowVoid : Bool) : String :=
  if allowVoid then "a type or 'void'" else "a type"

def type (allowVoid : Bool) : Pass ω Token := do
  let kind ← kind
  if isType allowVoid kind then expectAny [kind] else unexpected (typeName allowVoid)

end Pass

namespace Rule

open Pass

/-- What a rule gives. Only arguments are counted. -/
abbrev Answer : Rule → Type
  | arguments | moreArguments _ => Nat
  | _ => Unit

/-- The part of a pass that a rule is. -/
def pass {ω : Type} [Output ω] : (rule : Rule) → Pass ω rule.Answer
  | expression => do
    term |>.pass
    operations |>.pass
  | operations => do
    match ← kind with
    | .symbol mark =>
      match mark.binary? with
      | some apply =>
        advance
        term |>.pass
        write apply
        operations |>.pass
      | none => return ()
    | _ => return ()
  | term => do
    match ← kind with
    | .integer value =>
      advance
      write (.push .constant value)
    | .string =>
      let string ← expect .string
      job (.build string)
    | .keyword .true_ =>
      advance
      write (.push .constant 0)
      write (.operate .not)
    | .keyword .false_ | .keyword .null_ =>
      advance
      write (.push .constant 0)
    | .keyword .this_ =>
      advance
      write (.push .pointer 0)
    | .symbol .leftParen =>
      advance
      expression |>.pass
      let _ ← expect (.symbol .rightParen)
    | .symbol .minus =>
      advance
      term |>.pass
      write (.operate .neg)
    | .symbol .tilde =>
      advance
      term |>.pass
      write (.operate .not)
    | .identifier =>
      -- A name is told apart by the token after it.
      match ← followingKind with
      | .symbol .leftBracket =>
        let name ← expect .identifier
        job (.load name)
        index |>.pass
        write (.pop .pointer 1)
        write (.push .that 0)
      | .symbol .leftParen | .symbol .dot =>
        let name ← expect .identifier
        call name |>.pass
      | _ =>
        let name ← expect .identifier
        job (.load name)
    | _ => unexpected "an expression"
  | index => do
    let _ ← expect (.symbol .leftBracket)
    expression |>.pass
    let _ ← expect (.symbol .rightBracket)
    write (.operate .add)
  | call name => do
    -- What is called is settled before any argument.
    let callee ← receiver name
    let count ← arguments |>.pass
    job (.call callee count name)
  | arguments => do
    let _ ← expect (.symbol .leftParen)
    if (← kind) = .symbol .rightParen then
      let _ ← expect (.symbol .rightParen)
      return 0
    else
      expression |>.pass
      let count ← moreArguments 1 |>.pass
      let _ ← expect (.symbol .rightParen)
      return count
  | moreArguments count => do
    if ← accept (.symbol .comma) then
      if maxInteger ≤ count then
        job (.refuse ⟨.tooManyArguments, (← get).input.peek⟩)
      else
        expression |>.pass
        moreArguments (count + 1) |>.pass
    else return count
  | assignment => do
    let name ← expect .identifier
    let entry ← job (.resolve name)
    if (← kind) = .symbol .leftBracket then
      -- The address of the element waits on the stack until the value is in `temp 0`.
      job (.push entry)
      index |>.pass
      let _ ← expect (.symbol .equal)
      expression |>.pass
      let _ ← expect (.symbol .semicolon)
      write (.pop .temp 0)
      write (.pop .pointer 1)
      write (.push .temp 0)
      write (.pop .that 0)
    else
      let _ ← expect (.symbol .equal)
      expression |>.pass
      let _ ← expect (.symbol .semicolon)
      job (.pop entry)
  | invocation => do
    let name ← expect .identifier
    call name |>.pass
    let _ ← expect (.symbol .semicolon)
    write (.pop .temp 0)
  | returning => do
    if (← kind) = .symbol .semicolon then
      write (.push .constant 0)
      let _ ← expect (.symbol .semicolon)
      write .ret
    else
      expression |>.pass
      let _ ← expect (.symbol .semicolon)
      write .ret
  | condition otherwise => do
    let _ ← expect (.symbol .leftParen)
    expression |>.pass
    let _ ← expect (.symbol .rightParen)
    write (.operate .not)
    write (.ifGoto otherwise)
  | statements => do
    match ← kind with
    | .keyword .let_ =>
      advance
      assignment |>.pass
      statements |>.pass
    | .keyword .if_ =>
      advance
      choice |>.pass
      statements |>.pass
    | .keyword .while_ =>
      advance
      loop |>.pass
      statements |>.pass
    | .keyword .do_ =>
      advance
      invocation |>.pass
      statements |>.pass
    | .keyword .return_ =>
      advance
      returning |>.pass
      statements |>.pass
    | _ => return ()
  | choice => do
    let otherwise ← newLabel
    let done ← newLabel
    condition otherwise |>.pass
    block |>.pass
    write (.goto done)
    write (.label otherwise)
    if ← accept (.keyword .else_) then
      block |>.pass
      write (.label done)
    else write (.label done)
  | loop => do
    let top ← newLabel
    let done ← newLabel
    write (.label top)
    condition done |>.pass
    block |>.pass
    write (.goto top)
    write (.label done)
  | block => do
    let _ ← expect (.symbol .leftBrace)
    statements |>.pass
    let _ ← expect (.symbol .rightBrace)
  | names kind type => do
    let name ← expect .identifier
    job (.declare kind type name.text name)
    if ← accept (.symbol .comma) then names kind type |>.pass else return ()
  | declaration kind => do
    let type ← type false
    names kind type.text |>.pass
    let _ ← expect (.symbol .semicolon)
  | classVariables => do
    match ← kind with
    | .keyword .static_ =>
      advance
      declaration .static |>.pass
      classVariables |>.pass
    | .keyword .field_ =>
      advance
      declaration .field |>.pass
      classVariables |>.pass
    | _ => return ()
  | localVariables => do
    if ← accept (.keyword .var_) then
      declaration .local_ |>.pass
      localVariables |>.pass
    else return ()
  | moreParameters => do
    let type ← type false
    let name ← expect .identifier
    job (.declare .argument type.text name.text name)
    if ← accept (.symbol .comma) then moreParameters |>.pass else return ()
  | parameters => do
    let _ ← expect (.symbol .leftParen)
    if (← kind) = .symbol .rightParen then
      let _ ← expect (.symbol .rightParen)
    else
      moreParameters |>.pass
      let _ ← expect (.symbol .rightParen)
  | body kind name => do
    let _ ← expect (.symbol .leftBrace)
    -- The function command tells the number of local variables.
    localVariables |>.pass
    job (.openBody kind name)
    statements |>.pass
    let _ ← expect (.symbol .rightBrace)
  | subroutine kind keyword => do
    job (.openSubroutine kind keyword)
    let _ ← type true
    let name ← expect .identifier
    job (.nameSubroutine kind name.text)
    parameters |>.pass
    body kind name.text |>.pass
  | subroutines => do
    match ← kind with
    | .keyword .constructor_ =>
      let keyword ← expect (.keyword .constructor_)
      subroutine .constructor keyword |>.pass
      subroutines |>.pass
    | .keyword .function_ =>
      let keyword ← expect (.keyword .function_)
      subroutine .function keyword |>.pass
      subroutines |>.pass
    | .keyword .method_ =>
      let keyword ← expect (.keyword .method_)
      subroutine .method keyword |>.pass
      subroutines |>.pass
    | _ => return ()
  | wholeClass => do
    let _ ← expect (.keyword .class_)
    let name ← expect .identifier
    job (.openClass name.text)
    let _ ← expect (.symbol .leftBrace)
    classVariables |>.pass
    subroutines |>.pass
    let _ ← expect (.symbol .rightBrace)
    if (← kind) = .endOfFile then return () else unexpected "end-of-file"
partial_fixpoint

end Rule

namespace Pass

variable {ω : Type} [Output ω]

/-! ### Compiling -/

/-- What is known after a text was compiled into an output. -/
structure Result (ω : Type) where
  output : ω
  records : List LogRecord
  failure : Option Diagnostic

/-- Puts the end of a pass at its place. There is no result if the place of a token that is refused
splits a character. -/
def Cause.locate? (source : String) : Cause → Option Diagnostic
  | failed (.refused refusal) => do
    let _ ← position? source (min refusal.token.span.index source.utf8ByteSize)
    some ((Failure.refused refusal).locate source)
  | failed failure => some (failure.locate source)
  | io fault => some (.io fault)

/-- Compiles the text of one class into an output, which is flushed at the end. All of the text is
split into tokens first. -/
def compile (source : String) (output : ω) : Option (Result ω) := do
  match ← Scanner.keptTokens? source with
  | .error error => some ⟨output, [], some (.lexical error)⟩
  | .ok tokens =>
    match ← Rule.wholeClass.pass { input := .ofTokens source tokens } { source, output } with
    | .ok (_, work) =>
      some ⟨work.output, work.records.reverse, (Output.flush work.output).map .io⟩
    | .error stop =>
      let failure ← stop.cause.locate? source
      some ⟨stop.output, stop.records.reverse, some failure⟩

end Pass

end JackCompiler
