import JackCompiler.Directive.Reading
import JackCompiler.Pass.Rules

/-!
The rules of reading with their calls in the open. The plan of a rule is what is left to do when it
has gone on alone for as long as it can: it calls a rule, begins another pass of its loop, stops at
a token, or is over. A plan calls nothing by itself and knows of no measure, so that whoever carries
it out sees every call. If each call comes to what the rule comes to, then so does the plan.
-/

namespace JackCompiler

/-- What is left to do of a rule. -/
inductive Plan where
  /-- Nothing. If arguments were read, this is how many there are. -/
  | finish (t : Reading) (count : Nat := 0)
  /-- Another pass of the loop. -/
  | again (rule : Rule) (t : Reading)
  /-- The tokens do not fit. -/
  | stop (failure : Reading.Stop)
  /-- A call, and what is done with the reading after it and the number of arguments in it. -/
  | call (rule : Rule) (t : Reading) (rest : Reading → Nat → Plan)

namespace Plan

/-- Goes on after a token, if it could be taken. -/
def take {n : Nat} (outcome : Reading.Outcome (Reading.Taken n))
    (rest : Token → Reading → Plan) : Plan :=
  match outcome with
  | .ok taken => rest taken.token taken.next
  | .error failure => .stop failure

/-- Stops at the current token. -/
def unexpected (s : Reading) (expected : String) : Plan :=
  .stop ⟨s.input.unexpected expected, s.code⟩

end Plan

namespace Rule

/-- What the rule is going to do, from the current token on. -/
def plan : Rule → Reading → Plan
  | expression, s => .call term s fun t _ => .call operations t fun u _ => .finish u
  | operations, s =>
    match s.operator? with
    | some (apply, ⟨_, t, _⟩) => .call term t fun u _ => .again operations (u.command apply)
    | none => .finish s
  | term, s =>
    match s.next? with
    | none => .unexpected s "an expression"
    | some ⟨token, t, _⟩ =>
      match token.kind with
      | .integer value => .finish (t.command (.push .constant value))
      | .string => .finish (t.emit (.build token))
      | .keyword .true_ => .finish ((t.command (.push .constant 0)).command (.operate .not))
      | .keyword .false_ | .keyword .null_ => .finish (t.command (.push .constant 0))
      | .keyword .this_ => .finish (t.command (.push .pointer 0))
      | .symbol .leftParen =>
        .call expression t fun u _ => .take (u.expectSymbol .rightParen) fun _ v => .finish v
      | .symbol .minus => .call term t fun u _ => .finish (u.command (.operate .neg))
      | .symbol .tilde => .call term t fun u _ => .finish (u.command (.operate .not))
      | .identifier =>
        match t.kind with
        | .symbol .leftBracket =>
          .call index (t.emit (.load token)) fun u _ =>
            .finish ((u.command (.pop .pointer 1)).command (.push .that 0))
        | .symbol .leftParen | .symbol .dot => .call (call token) t fun u _ => .finish u
        | _ => .finish (t.emit (.load token))
      | _ => .unexpected s "an expression"
  | index, s =>
    .take (s.expectSymbol .leftBracket) fun _ t =>
      .call expression t fun u _ =>
        .take (u.expectSymbol .rightBracket) fun _ v => .finish (v.command (.operate .add))
  | call name, s =>
    match s.accept? (.symbol .dot) with
    | some ⟨_, t, _⟩ =>
      .take (t.expect .identifier) fun member u =>
        .call arguments (u.emit (.receiver name)) fun v count =>
          .finish (v.emit (.invoke name member.text count))
    | none =>
      .call arguments (s.command (.push .pointer 0)) fun t count =>
        .finish (t.emit (.invokeOwn name count))
  | arguments, s =>
    .take (s.expectSymbol .leftParen) fun _ t =>
      if t.kind = .symbol .rightParen then
        .take (t.expectSymbol .rightParen) fun _ u => .finish u
      else
        .call expression t fun u _ =>
          .call (moreArguments 1) u fun v count =>
            .take (v.expectSymbol .rightParen) fun _ w => .finish w count
  | moreArguments count, s =>
    match s.accept? (.symbol .comma) with
    | some ⟨_, t, _⟩ =>
      if maxInteger ≤ count then .stop ⟨⟨.tooManyArguments, t.input.peek⟩, t.code⟩
      else .call expression t fun u _ => .again (moreArguments (count + 1)) u
    | none => .finish s count
  | assignment, s =>
    .take (s.expect .identifier) fun name t =>
      let t' := t.emit (.require name)
      if t'.kind = .symbol .leftBracket then
        .call index (t'.emit (.load name)) fun u _ =>
          .take (u.expectSymbol .equal) fun _ v =>
            .call expression v fun w _ =>
              .take (w.expectSymbol .semicolon) fun _ x =>
                .finish ((((x.command (.pop .temp 0)).command (.pop .pointer 1)).command
                  (.push .temp 0)).command (.pop .that 0))
      else
        .take (t'.expectSymbol .equal) fun _ u =>
          .call expression u fun v _ =>
            .take (v.expectSymbol .semicolon) fun _ w => .finish (w.emit (.store name))
  | invocation, s =>
    .take (s.expect .identifier) fun name t =>
      .call (call name) t fun u _ =>
        .take (u.expectSymbol .semicolon) fun _ v => .finish (v.command (.pop .temp 0))
  | returning, s =>
    if s.kind = .symbol .semicolon then
      .take ((s.command (.push .constant 0)).expectSymbol .semicolon) fun _ t =>
        .finish (t.command .ret)
    else
      .call expression s fun t _ =>
        .take (t.expectSymbol .semicolon) fun _ u => .finish (u.command .ret)
  | condition otherwise, s =>
    .take (s.expectSymbol .leftParen) fun _ t =>
      .call expression t fun u _ =>
        .take (u.expectSymbol .rightParen) fun _ v =>
          .finish ((v.command (.operate .not)).command (.ifGoto otherwise))
  | statements, s =>
    match s.next? with
    | none => .finish s
    | some ⟨token, t, _⟩ =>
      match token.kind with
      | .keyword .let_ => .call assignment t fun u _ => .again statements u
      | .keyword .if_ => .call choice t fun u _ => .again statements u
      | .keyword .while_ => .call loop t fun u _ => .again statements u
      | .keyword .do_ => .call invocation t fun u _ => .again statements u
      | .keyword .return_ => .call returning t fun u _ => .again statements u
      | _ => .finish s
  | choice, s =>
    let otherwise := labelName s.labels
    let done := labelName (s.labels + 1)
    .call (condition otherwise) s.takeLabels fun t _ =>
      .call block t fun u _ =>
        let u' := (u.command (.goto done)).command (.label otherwise)
        match u'.accept? (.keyword .else_) with
        | some ⟨_, v, _⟩ => .call block v fun w _ => .finish (w.command (.label done))
        | none => .finish (u'.command (.label done))
  | loop, s =>
    let top := labelName s.labels
    let done := labelName (s.labels + 1)
    .call (condition done) (s.takeLabels.command (.label top)) fun t _ =>
      .call block t fun u _ => .finish ((u.command (.goto top)).command (.label done))
  | block, s =>
    .take (s.expectSymbol .leftBrace) fun _ t =>
      .call statements t fun u _ => .take (u.expectSymbol .rightBrace) fun _ v => .finish v
  | names kind type, s =>
    .take (s.expect .identifier) fun name t =>
      let t' := t.emit (.declare kind type name)
      match t'.accept? (.symbol .comma) with
      | some ⟨_, u, _⟩ => .again (names kind type) u
      | none => .finish t'
  | declaration kind, s =>
    .take s.type fun type t =>
      .call (names kind type.text) t fun u _ =>
        .take (u.expectSymbol .semicolon) fun _ v => .finish v
  | classVariables, s =>
    match s.next? with
    | none => .finish s
    | some ⟨token, t, _⟩ =>
      match token.kind with
      | .keyword .static_ => .call (declaration .static) t fun u _ => .again classVariables u
      | .keyword .field_ => .call (declaration .field) t fun u _ => .again classVariables u
      | _ => .finish s
  | localVariables, s =>
    match s.accept? (.keyword .var_) with
    | some ⟨_, t, _⟩ => .call (declaration .local_) t fun u _ => .again localVariables u
    | none => .finish s
  | moreParameters, s =>
    .take s.type fun type t =>
      .take (t.expect .identifier) fun name u =>
        let u' := u.emit (.declare .argument type.text name)
        match u'.accept? (.symbol .comma) with
        | some ⟨_, v, _⟩ => .again moreParameters v
        | none => .finish u'
  | parameters, s =>
    .take (s.expectSymbol .leftParen) fun _ t =>
      if t.kind = .symbol .rightParen then
        .take (t.expectSymbol .rightParen) fun _ v => .finish v
      else
        .call moreParameters t fun u _ =>
          .take (u.expectSymbol .rightParen) fun _ v => .finish v
  | body kind name, s =>
    .take (s.expectSymbol .leftBrace) fun _ t =>
      .call localVariables t fun u _ =>
        .call statements (u.emit (.openBody kind name)) fun v _ =>
          .take (v.expectSymbol .rightBrace) fun _ w => .finish w
  | subroutine kind keyword, s =>
    .take (s.emit (.openSubroutine kind keyword)).returnType fun _ t =>
      .take (t.expect .identifier) fun name u =>
        .call parameters (u.emit (.nameSubroutine kind name.text)) fun v _ =>
          .call (body kind name.text) v fun w _ => .finish w
  | subroutines, s =>
    match s.next? with
    | none => .finish s
    | some ⟨token, t, _⟩ =>
      match token.kind with
      | .keyword .constructor_ =>
        .call (subroutine .constructor token) t fun u _ => .again subroutines u
      | .keyword .function_ =>
        .call (subroutine .function token) t fun u _ => .again subroutines u
      | .keyword .method_ =>
        .call (subroutine .method token) t fun u _ => .again subroutines u
      | _ => .finish s
  | wholeClass, s =>
    .take (s.expect (.keyword .class_)) fun _ t =>
      .take (t.expect .identifier) fun name u =>
        .take ((u.emit (.openClass name.text)).expectSymbol .leftBrace) fun _ v =>
          .call classVariables v fun w _ =>
            .call subroutines w fun x _ =>
              .take (x.expectSymbol .rightBrace) fun _ y =>
                if y.kind = .endOfFile then .finish y else .unexpected y "end-of-file"

/-- The reading after a rule that counts no arguments. -/
def plain {n : Nat} (t : Reading.Below n) : Reading × Nat :=
  (t.val, 0)

/-- The reading after arguments, and how many there are. -/
def counted {n : Nat} (found : Reading.Counted n) : Reading × Nat :=
  (found.2.val, found.1)

/-- What the rule comes to. -/
def read : Rule → Reading → Reading.Outcome (Reading × Nat)
  | expression, s => s.expression.map plain
  | operations, s => (s.operations (Nat.lt_succ_self s.left)).map plain
  | term, s => s.term.map plain
  | index, s => s.index.map plain
  | call name, s => (s.call name).map plain
  | arguments, s => s.arguments.map counted
  | moreArguments count, s => (s.moreArguments count (Nat.lt_succ_self s.left)).map counted
  | assignment, s => s.assignment.map plain
  | invocation, s => s.invocation.map plain
  | returning, s => s.returning.map plain
  | condition otherwise, s => (s.condition otherwise).map plain
  | statements, s => (s.statements (Nat.lt_succ_self s.left)).map plain
  | choice, s => s.choice.map plain
  | loop, s => s.loop.map plain
  | block, s => s.block.map plain
  | names kind type, s => (s.names kind type (Nat.lt_succ_self s.left)).map plain
  | declaration kind, s => (s.declaration kind).map plain
  | classVariables, s => (s.classVariables (Nat.lt_succ_self s.left)).map plain
  | localVariables, s => (s.localVariables (Nat.lt_succ_self s.left)).map plain
  | moreParameters, s => (s.moreParameters (Nat.lt_succ_self s.left)).map plain
  | parameters, s => s.parameters.map plain
  | body kind name, s => (s.body kind name).map plain
  | subroutine kind keyword, s => (s.subroutine kind keyword).map plain
  | subroutines, s => (s.subroutines (Nat.lt_succ_self s.left)).map plain
  | wholeClass, s => s.wholeClass.map fun t => (t, 0)

end Rule

/-- What a plan comes to, if every call in it comes to what the rule comes to. -/
def Plan.outcome : Plan → Reading.Outcome (Reading × Nat)
  | finish t count => .ok (t, count)
  | again rule t => rule.read t
  | stop failure => .error failure
  | call rule t rest => rule.read t >>= fun found => (rest found.1 found.2).outcome

/-! ### Loops -/

namespace Reading

open Rule

variable {n m : Nat}

section Outcomes

variable {α β γ : Type} {x : Outcome α} {f : α → Outcome β} {p : β → Reading × Nat}

theorem map_bind_congr {g : α → Outcome γ} {q : γ → Reading × Nat}
    (h : ∀ a, (f a).map p = (g a).map q) : (x >>= f).map p = (x >>= g).map q := by
  cases x with
  | error failure => rfl
  | ok a => exact h a

theorem map_bind_take {x : Outcome (Taken n)} {f : Taken n → Outcome β}
    {rest : Token → Reading → Plan}
    (h : ∀ taken, (f taken).map p = (rest taken.token taken.next).outcome) :
    (x >>= f).map p = (Plan.take x rest).outcome := by
  cases x with
  | error failure => rfl
  | ok taken => exact h taken

theorem map_bind_call {q : α → Reading × Nat} {rule : Rule} {t : Reading}
    {rest : Reading → Nat → Plan} (hread : rule.read t = x.map q)
    (h : ∀ a, (f a).map p = (rest (q a).1 (q a).2).outcome) :
    (x >>= f).map p = (Plan.call rule t rest).outcome := by
  rw [Plan.outcome, hread]
  cases x with
  | error failure => rfl
  | ok a => exact h a

theorem map_ite {c : Prop} [Decidable c] {x y : Outcome β} {a b : Plan}
    (ha : x.map p = a.outcome) (hb : y.map p = b.outcome) :
    (if c then x else y).map p = (if c then a else b).outcome := by
  split
  · exact ha
  · exact hb

/-- A call may be the last thing that a rule does. -/
theorem map_plain_call {x : Outcome (Below n)} {rule : Rule} {t : Reading}
    (hread : rule.read t = x.map plain) :
    x.map plain = (Plan.call rule t fun u _ => .finish u).outcome := by
  rw [Plan.outcome, hread]
  cases x <;> rfl

end Outcomes

/-! What a loop comes to does not depend on the number that its tokens are held below. -/

theorem plain_operations {s : Reading} (hn : s.left < n) (hm : s.left < m) :
    (s.operations hn).map plain = (s.operations hm).map plain := by
  rw [operations, operations]
  split
  · exact map_bind_congr fun u => plain_operations _ _
  · rfl
termination_by s.left
decreasing_by exact Nat.lt_trans u.property ‹_›

theorem counted_moreArguments {s : Reading} (count : Nat) (hn : s.left < n) (hm : s.left < m) :
    (s.moreArguments count hn).map counted = (s.moreArguments count hm).map counted := by
  rw [moreArguments, moreArguments]
  split
  · split
    · rfl
    · exact map_bind_congr fun u => counted_moreArguments _ _ _
  · rfl
termination_by s.left
decreasing_by exact Nat.lt_trans u.property ‹_›

theorem plain_statements {s : Reading} (hn : s.left < n) (hm : s.left < m) :
    (s.statements hn).map plain = (s.statements hm).map plain := by
  rw [statements, statements]
  split
  · rfl
  · split
    · exact map_bind_congr fun u => plain_statements _ _
    · exact map_bind_congr fun u => plain_statements _ _
    · exact map_bind_congr fun u => plain_statements _ _
    · exact map_bind_congr fun u => plain_statements _ _
    · exact map_bind_congr fun u => plain_statements _ _
    · rfl
termination_by s.left
decreasing_by all_goals exact Nat.lt_trans u.property ‹_›

theorem plain_names {s : Reading} (kind : VariableKind) (type : String) (hn : s.left < n)
    (hm : s.left < m) : (s.names kind type hn).map plain = (s.names kind type hm).map plain := by
  rw [names, names]
  refine map_bind_congr fun ⟨name, t, ht⟩ => ?_
  dsimp only
  split
  · exact plain_names _ _ _ _
  · rfl
termination_by s.left
decreasing_by exact Nat.lt_trans ‹_› ht

theorem plain_classVariables {s : Reading} (hn : s.left < n) (hm : s.left < m) :
    (s.classVariables hn).map plain = (s.classVariables hm).map plain := by
  rw [classVariables, classVariables]
  split
  · rfl
  · split
    · exact map_bind_congr fun u => plain_classVariables _ _
    · exact map_bind_congr fun u => plain_classVariables _ _
    · rfl
termination_by s.left
decreasing_by all_goals exact Nat.lt_trans u.property ‹_›

theorem plain_localVariables {s : Reading} (hn : s.left < n) (hm : s.left < m) :
    (s.localVariables hn).map plain = (s.localVariables hm).map plain := by
  rw [localVariables, localVariables]
  split
  · exact map_bind_congr fun u => plain_localVariables _ _
  · rfl
termination_by s.left
decreasing_by exact Nat.lt_trans u.property ‹_›

theorem plain_moreParameters {s : Reading} (hn : s.left < n) (hm : s.left < m) :
    (s.moreParameters hn).map plain = (s.moreParameters hm).map plain := by
  rw [moreParameters, moreParameters]
  refine map_bind_congr fun ⟨type, t, ht⟩ => map_bind_congr fun ⟨name, u, hu⟩ => ?_
  dsimp only
  split
  · exact plain_moreParameters _ _
  · rfl
termination_by s.left
decreasing_by exact Nat.lt_trans ‹_› (Nat.lt_trans hu ht)

theorem plain_subroutines {s : Reading} (hn : s.left < n) (hm : s.left < m) :
    (s.subroutines hn).map plain = (s.subroutines hm).map plain := by
  rw [subroutines, subroutines]
  split
  · rfl
  · split
    · exact map_bind_congr fun u => plain_subroutines _ _
    · exact map_bind_congr fun u => plain_subroutines _ _
    · exact map_bind_congr fun u => plain_subroutines _ _
    · rfl
termination_by s.left
decreasing_by all_goals exact Nat.lt_trans u.property ‹_›

end Reading

/-! ### Rules -/

namespace Rule

open Reading

theorem read_term (s : Reading) : term.read s = (term.plan s).outcome := by
  rw [read, plan, Reading.term]
  rcases s.next? with _ | ⟨token, t, ht⟩
  · rfl
  · dsimp only
    cases token.kind with
    | integer value => rfl
    | string => rfl
    | keyword word => cases word <;> rfl
    | symbol mark =>
      cases mark with
      | leftParen => exact map_bind_call rfl fun u => map_bind_take fun taken => rfl
      | minus => exact map_bind_call rfl fun u => rfl
      | tilde => exact map_bind_call rfl fun u => rfl
      | _ => rfl
    | identifier =>
      -- The kind behind the name decides what it is.
      cases t.kind with
      | symbol mark =>
        cases mark with
        | leftBracket => exact map_bind_call rfl fun u => rfl
        | leftParen => exact map_bind_call rfl fun u => rfl
        | dot => exact map_bind_call rfl fun u => rfl
        | _ => rfl
      | _ => rfl
    | endOfFile => rfl

theorem read_statements (s : Reading) : statements.read s = (statements.plan s).outcome := by
  rw [read, plan, Reading.statements]
  rcases s.next? with _ | ⟨token, t, ht⟩
  · rfl
  · dsimp only
    cases token.kind with
    | keyword word =>
      cases word with
      | let_ => exact map_bind_call rfl fun u => plain_statements _ _
      | if_ => exact map_bind_call rfl fun u => plain_statements _ _
      | while_ => exact map_bind_call rfl fun u => plain_statements _ _
      | do_ => exact map_bind_call rfl fun u => plain_statements _ _
      | return_ => exact map_bind_call rfl fun u => plain_statements _ _
      | _ => rfl
    | _ => rfl

theorem read_choice (s : Reading) : choice.read s = (choice.plan s).outcome := by
  rw [read, plan, Reading.choice]
  refine map_bind_call rfl fun t => map_bind_call rfl fun u => ?_
  dsimp only [plain]
  rcases Reading.accept? _ (.keyword .else_) with _ | taken
  · rfl
  · exact map_bind_call rfl fun w => rfl

theorem read_classVariables (s : Reading) :
    classVariables.read s = (classVariables.plan s).outcome := by
  rw [read, plan, Reading.classVariables]
  rcases s.next? with _ | ⟨token, t, ht⟩
  · rfl
  · dsimp only
    cases token.kind with
    | keyword word =>
      cases word with
      | static_ => exact map_bind_call rfl fun u => plain_classVariables _ _
      | field_ => exact map_bind_call rfl fun u => plain_classVariables _ _
      | _ => rfl
    | _ => rfl

theorem read_subroutines (s : Reading) :
    subroutines.read s = (subroutines.plan s).outcome := by
  rw [read, plan, Reading.subroutines]
  rcases s.next? with _ | ⟨token, t, ht⟩
  · rfl
  · dsimp only
    cases token.kind with
    | keyword word =>
      cases word with
      | constructor_ => exact map_bind_call rfl fun u => plain_subroutines _ _
      | function_ => exact map_bind_call rfl fun u => plain_subroutines _ _
      | method_ => exact map_bind_call rfl fun u => plain_subroutines _ _
      | _ => rfl
    | _ => rfl

/-- A rule does what its plan says. -/
theorem read_eq (rule : Rule) (s : Reading) : rule.read s = (rule.plan s).outcome := by
  cases rule with
  | expression =>
    rw [read, plan, Reading.expression]
    exact map_bind_call rfl fun t => map_plain_call (plain_operations _ _)
  | operations =>
    rw [read, plan, Reading.operations]
    rcases s.operator? with _ | ⟨apply, taken⟩
    · rfl
    · exact map_bind_call rfl fun u => plain_operations _ _
  | term => exact read_term s
  | index =>
    rw [read, plan, Reading.index]
    exact map_bind_take fun _ => map_bind_call rfl fun u => map_bind_take fun _ => rfl
  | call name =>
    rw [read, plan, Reading.call]
    rcases s.accept? (.symbol .dot) with _ | taken
    · exact map_bind_call rfl fun t => rfl
    · exact map_bind_take fun _ => map_bind_call rfl fun v => rfl
  | arguments =>
    rw [read, plan, Reading.arguments]
    refine map_bind_take fun _ => map_ite (map_bind_take fun _ => rfl) ?_
    refine map_bind_call rfl fun u => ?_
    exact map_bind_call (counted_moreArguments _ _ _) fun v => map_bind_take fun _ => rfl
  | moreArguments count =>
    rw [read, plan, Reading.moreArguments]
    rcases s.accept? (.symbol .comma) with _ | taken
    · rfl
    · exact map_ite rfl (map_bind_call rfl fun u => counted_moreArguments _ _ _)
  | assignment =>
    rw [read, plan, Reading.assignment]
    refine map_bind_take fun _ => map_ite ?_ ?_
    · refine map_bind_call rfl fun u => map_bind_take fun _ => ?_
      exact map_bind_call rfl fun w => map_bind_take fun _ => rfl
    · exact map_bind_take fun _ => map_bind_call rfl fun v => map_bind_take fun _ => rfl
  | invocation =>
    rw [read, plan, Reading.invocation]
    exact map_bind_take fun _ => map_bind_call rfl fun u => map_bind_take fun _ => rfl
  | returning =>
    rw [read, plan, Reading.returning]
    refine map_ite (map_bind_take fun _ => rfl) ?_
    exact map_bind_call rfl fun t => map_bind_take fun _ => rfl
  | condition otherwise =>
    rw [read, plan, Reading.condition]
    exact map_bind_take fun _ => map_bind_call rfl fun u => map_bind_take fun _ => rfl
  | statements => exact read_statements s
  | choice => exact read_choice s
  | loop =>
    rw [read, plan, Reading.loop]
    exact map_bind_call rfl fun t => map_bind_call rfl fun u => rfl
  | block =>
    rw [read, plan, Reading.block]
    refine map_bind_take fun _ => ?_
    exact map_bind_call (plain_statements _ _) fun u => map_bind_take fun _ => rfl
  | names kind type =>
    rw [read, plan, Reading.names]
    refine map_bind_take fun _ => ?_
    dsimp only
    rcases Reading.accept? _ (.symbol .comma) with _ | taken
    · rfl
    · exact plain_names _ _ _ _
  | declaration kind =>
    rw [read, plan, Reading.declaration]
    refine map_bind_take fun _ => ?_
    exact map_bind_call (plain_names _ _ _ _) fun u => map_bind_take fun _ => rfl
  | classVariables => exact read_classVariables s
  | localVariables =>
    rw [read, plan, Reading.localVariables]
    rcases s.accept? (.keyword .var_) with _ | taken
    · rfl
    · exact map_bind_call rfl fun u => plain_localVariables _ _
  | moreParameters =>
    rw [read, plan, Reading.moreParameters]
    refine map_bind_take fun _ => map_bind_take fun _ => ?_
    dsimp only
    rcases Reading.accept? _ (.symbol .comma) with _ | taken
    · rfl
    · exact plain_moreParameters _ _
  | parameters =>
    rw [read, plan, Reading.parameters]
    refine map_bind_take fun _ => ?_
    dsimp only
    split
    · exact map_bind_take fun _ => rfl
    · exact map_bind_call (plain_moreParameters _ _) fun u => map_bind_take fun _ => rfl
  | body kind name =>
    rw [read, plan, Reading.body]
    refine map_bind_take fun _ => map_bind_call (plain_localVariables _ _) fun u => ?_
    exact map_bind_call (plain_statements _ _) fun v => map_bind_take fun _ => rfl
  | subroutine kind keyword =>
    rw [read, plan, Reading.subroutine]
    refine map_bind_take fun _ => map_bind_take fun _ => ?_
    exact map_bind_call rfl fun v => map_bind_call rfl fun w => rfl
  | subroutines => exact read_subroutines s
  | wholeClass =>
    rw [read, plan, Reading.wholeClass]
    refine map_bind_take fun _ => map_bind_take fun _ => map_bind_take fun _ => ?_
    refine map_bind_call (plain_classVariables _ _) fun w => ?_
    refine map_bind_call (plain_subroutines _ _) fun x => map_bind_take fun _ => ?_
    exact map_ite rfl rfl

end Rule

end JackCompiler
