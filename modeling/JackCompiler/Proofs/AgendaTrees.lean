import JackCompiler.Proofs.Agenda
import JackCompiler.Proofs.NamePlaces

/-!
Work without a limit takes every tree that stands before it. Only the kinds of the tokens matter for
that; where the tokens are spelled as those of the tree, the directives that are added stop for the
first place with an undefined name.
-/

namespace JackCompiler.Agenda

open JackCompiler.Tree Generator

/-- The kind of the first place, or of what follows the places. -/
def startKind (places : List Place) (kind : TokenKind) : TokenKind :=
  (places.map fun place => place.1.kind).headD kind

/-- Work on the goals takes tokens of the kinds of the places if it knows what follows them. Where
the tokens are those of the places, they and the added directives are as judged. -/
def Walks (goals : List Goal) (places : List Place) (follow : TokenKind → Prop)
    (judge : List TokenPlace → List Directive → Prop) : Prop :=
  ∀ (s : Reading) (front back : List Token), s.input.tokens = front ++ back →
    front.map Token.kind = places.map (fun place => place.1.kind) →
    follow (back.headD s.input.last).kind →
    ∃ t added, t.input.tokens = back ∧ t.input.last = s.input.last ∧
      t.code = added.reverse ++ s.code ∧
      (∀ rest, Reaches none ⟨goals ++ rest, s⟩ ⟨rest, t⟩) ∧
      (front.map Token.lexeme = places.map Prod.fst → (∀ token ∈ front, token.Spelled) →
        judge (front.zip (places.map Prod.snd)) added)

namespace Walks

variable {goal : Goal} {goals others : List Goal} {places later : List Place}
  {follow follow' : TokenKind → Prop} {judge judge' : List TokenPlace → List Directive → Prop}

theorem nil (h : judge [] []) : Walks [] [] follow judge := by
  intro s front back htokens hkinds _
  obtain rfl := List.map_eq_nil_iff.1 hkinds
  exact ⟨s, [], htokens, rfl, rfl, fun _ => .refl, fun _ _ => h⟩

theorem mono (h : Walks goals places follow judge)
    (himp : ∀ front added, judge front added → judge' front added) :
    Walks goals places follow judge' := by
  intro s front back htokens hkinds hfollow
  obtain ⟨t, added, hback, hlast, hcode, hwork, hjudge⟩ := h s front back htokens hkinds hfollow
  exact ⟨t, added, hback, hlast, hcode, hwork, fun hl hs => himp _ _ (hjudge hl hs)⟩

theorem mono_follow (h : Walks goals places follow judge)
    (himp : ∀ kind, follow' kind → follow kind) : Walks goals places follow' judge :=
  fun s front back htokens hkinds hfollow =>
    h s front back htokens hkinds (himp _ hfollow)

theorem append (h : Walks goals places follow judge)
    (hfollow : ∀ kind, follow' kind → follow (startKind later kind))
    (k : Walks others later follow' fun front added => ∀ front' added', judge front' added' →
      judge' (front' ++ front) (added' ++ added)) :
    Walks (goals ++ others) (places ++ later) follow' judge' := by
  intro s front back htokens hkinds hnext
  rw [List.map_append] at hkinds
  obtain ⟨x, y, rfl, hx, hy⟩ := List.map_eq_append_iff.1 hkinds
  have hstart : follow ((y ++ back).headD s.input.last).kind := by
    have hkind : ((y ++ back).headD s.input.last).kind =
        startKind later (back.headD s.input.last).kind := by
      rw [startKind, ← hy]
      cases y <;> rfl
    rw [hkind]
    exact hfollow _ hnext
  rw [List.append_assoc] at htokens
  obtain ⟨t, m, htback, htlast, htcode, htwork, htjudge⟩ := h s x (y ++ back) htokens hx hstart
  rw [← htlast] at hnext
  obtain ⟨u, n, hback, hlast, hcode, hwork, hjudge⟩ := k t y back htback hy hnext
  refine ⟨u, m ++ n, hback, hlast.trans htlast, ?_, fun rest => ?_, fun hlexemes hspelled => ?_⟩
  · rw [hcode, htcode, List.reverse_append, List.append_assoc]
  · rw [List.append_assoc]
    exact (htwork _).trans (hwork _)
  · rw [List.map_append, List.map_append] at hlexemes
    have hlength : (x.map Token.lexeme).length = (places.map Prod.fst).length := by
      simpa using congrArg List.length hx
    obtain ⟨hxl, hyl⟩ := List.append_inj hlexemes hlength
    obtain ⟨hxs, hys⟩ := List.forall_mem_append.1 hspelled
    rw [List.map_append, List.zip_append (by simpa using hlength)]
    exact hjudge hyl hys _ _ (htjudge hxl hxs)

/-- Goals that take no tokens. -/
theorem behind (h : Walks goals places follow judge)
    (k : Walks others [] follow fun front added => ∀ front' added', judge front' added' →
      judge' (front' ++ front) (added' ++ added)) :
    Walks (goals ++ others) places follow judge' := by
  have hboth := h.append (fun kind hkind => hkind) k
  rwa [List.append_nil] at hboth

/-- A token whose spelling matters is taken. -/
theorem spelled {lexeme : Lexeme} {owner : Option Subroutine}
    (hwants : goal.wants lexeme.kind = true) (hend : lexeme.kind ≠ .endOfFile)
    (h : ∀ token, token.kind = lexeme.kind → Walks (goal.next token ++ goals) places follow
      fun front added => token.lexeme = lexeme → token.Spelled →
        judge ((token, owner) :: front) added) :
    Walks (goal :: goals) ((lexeme, owner) :: places) follow judge := by
  intro s front back htokens hkinds hfollow
  obtain ⟨token, x, rfl, hkind, hx⟩ := List.map_eq_cons_iff.1 hkinds
  obtain ⟨t, added, hback, hlast, hcode, hwork, hjudge⟩ :=
    h token hkind (s.withTokens (x ++ back)) x back rfl hx hfollow
  refine ⟨t, added, hback, hlast, hcode, fun rest => ?_, fun hlexemes hspelled => ?_⟩
  · have hrest := hwork rest
    rw [List.append_assoc] at hrest
    exact .head (.take htokens (by rwa [hkind]) (by rwa [hkind]) (isFull_none _)) hrest
  · obtain ⟨hl, hxl⟩ := List.cons.inj hlexemes
    obtain ⟨hs, hxs⟩ := List.forall_mem_cons.1 hspelled
    exact hjudge hxl hxs hl hs

theorem take {lexeme : Lexeme} (hwants : goal.wants lexeme.kind = true)
    (hend : lexeme.kind ≠ .endOfFile)
    (h : ∀ token, token.kind = lexeme.kind → Walks (goal.next token ++ goals) places follow
      fun front added => judge ((token, none) :: front) added) :
    Walks (goal :: goals) (plain lexeme :: places) follow judge :=
  spelled hwants hend fun token hkind => (h token hkind).mono fun _ _ hjudge _ _ => hjudge

theorem symbol {mark : Symbol}
    (h : ∀ token, Walks goals places follow
      fun front added => judge ((token, none) :: front) added) :
    Walks (.symbol mark :: goals) (plain (.symbol mark) :: places) follow judge :=
  take (decide_eq_true rfl) TokenKind.noConfusion fun token _ => h token

theorem instead (hgoals : goal.fallback = .goals others)
    (hnot : ∀ kind, follow kind → goal.wants (startKind places kind) = false)
    (h : Walks (others ++ goals) places follow judge) :
    Walks (goal :: goals) places follow judge := by
  intro s front back htokens hkinds hfollow
  obtain ⟨t, added, hback, hlast, hcode, hwork, hjudge⟩ := h s front back htokens hkinds hfollow
  refine ⟨t, added, hback, hlast, hcode, fun rest => ?_, hjudge⟩
  have hrest := hwork rest
  rw [List.append_assoc] at hrest
  have hkind : s.kind = startKind places (back.headD s.input.last).kind := by
    rw [kind_eq, htokens, startKind, ← hkinds]
    cases front <;> rfl
  exact .head (.goals (by rw [hkind]; exact hnot _ hfollow) hgoals) hrest

theorem emit {directive : Directive}
    (h : Walks goals places follow fun front added => judge front (directive :: added)) :
    Walks (.act directive :: goals) places follow judge := by
  intro s front back htokens hkinds hfollow
  obtain ⟨t, added, hback, hlast, hcode, hwork, hjudge⟩ :=
    h (s.emit directive) front back htokens hkinds hfollow
  refine ⟨t, directive :: added, hback, hlast, ?_, fun rest => .head (.emit rfl) (hwork rest),
    hjudge⟩
  rw [hcode, List.reverse_cons, List.append_assoc]
  rfl

theorem branch {expand : Nat → List Goal} (hbranch : goal.fallback = .branch expand)
    (h : ∀ label, Walks (expand label ++ goals) places follow judge) :
    Walks (goal :: goals) places follow judge := by
  intro s front back htokens hkinds hfollow
  obtain ⟨t, added, hback, hlast, hcode, hwork, hjudge⟩ :=
    h s.labels s.takeLabels front back htokens hkinds hfollow
  refine ⟨t, added, hback, hlast, hcode, fun rest => ?_, hjudge⟩
  have hrest := hwork rest
  rw [List.append_assoc] at hrest
  exact .head (.branch hbranch) hrest

end Walks

/-! ### Expressions -/

/-- What may follow a name that is a variable. -/
def NameEnds (kind : TokenKind) : Prop :=
  kind ≠ .symbol .leftBracket ∧ kind ≠ .symbol .leftParen ∧ kind ≠ .symbol .dot

/-- What may follow an expression. -/
def ExpressionEnds (kind : TokenKind) : Prop :=
  Goal.operations.wants kind = false ∧ NameEnds kind

theorem NameEnds.not_wants {kind : TokenKind} (h : NameEnds kind) (name : Token) :
    (Goal.afterName name).wants kind = false := by
  obtain ⟨hbracket, hparen, hdot⟩ := h
  simp [Goal.wants, hbracket, hparen, hdot]

/-- Directives in the body of the subroutine, which declare nothing. -/
abbrev Keeps (tree : Tree.Class) (owner : Subroutine) (places : List TokenPlace)
    (directives : List Directive) : Prop :=
  Resolves tree (owner.context tree) places directives (owner.context tree)

theorem binary?_symbol (operator : BinaryOperator) :
    operator.symbol.binary? = some operator.command := by
  cases operator <;> rfl

theorem Keeps.callee (tree : Tree.Class) (owner : Subroutine) (callee : Callee) (count : Nat) :
    Keeps tree owner [] [callee.directive count] := by
  cases callee with
  | own name =>
    exact .quiet (generates_invokeOwn _ name count) fun _ => ⟨nofun, nofun, nofun⟩
  | member receiver name =>
    cases hentry : (owner.context tree).lookup? receiver.text with
    | some entry =>
      exact .quiet (generates_invoke_variable hentry name count) fun _ => ⟨nofun, nofun, nofun⟩
    | none =>
      exact .quiet (generates_invoke_class hentry name count) fun _ => ⟨nofun, nofun, nofun⟩

section Expressions

variable (owner : Subroutine)

theorem operations_start (x : Operations) {kind : TokenKind} (h : ExpressionEnds kind) :
    NameEnds (startKind (x.places owner) kind) := by
  cases x with
  | nil => exact h.2
  | cons operator operand rest =>
    cases operator <;> exact ⟨nofun, nofun, nofun⟩

/-- An expression starts with what a term wants. -/
theorem term_start (e : Term) (later : List Place) (kind : TokenKind) :
    Goal.term.wants (startKind (e.places owner ++ later) kind) = true := by
  cases e with
  | constant word => cases word <;> rfl
  | call call => cases call <;> rfl
  | unary operator operand => cases operator <;> rfl
  | _ => rfl

theorem expression_start (e : Expression) (later : List Place) (kind : TokenKind) :
    Goal.term.wants (startKind (e.places owner ++ later) kind) = true := by
  cases e with
  | mk first rest =>
    rw [Expression.places, List.append_assoc]
    exact term_start owner first _ kind

/-- No expression starts with a mark that no term starts with. -/
theorem expression_start_ne (e : Expression) (later : List Place) (kind : TokenKind)
    {mark : Symbol} (hmark : Goal.term.wants (.symbol mark) = false) :
    startKind (e.places owner ++ later) kind ≠ .symbol mark := by
  intro hstart
  have hwants := expression_start owner e later kind
  rw [hstart, hmark] at hwants
  cases hwants

theorem further_start (x : Arguments) (kind : TokenKind) :
    ExpressionEnds (startKind (x.furtherPlaces owner ++ [plain (.symbol .rightParen)]) kind) := by
  cases x <;> exact ⟨rfl, nofun, nofun, nofun⟩

/-- A call of two names, after the dot. -/
theorem member_walks {tree : Tree.Class} (receiver : Token) (name : String) {arguments : List Place}
    (h : ∀ callee, Walks [.arguments callee] arguments (fun _ => True) (Keeps tree owner)) :
    Walks [.name (.member receiver)]
      (plain (.identifier name) :: plain (.symbol .leftParen) :: arguments) (fun _ => True)
      (Keeps tree owner) := by
  refine .take rfl TokenKind.noConfusion fun token _ => .emit (.symbol fun paren => ?_)
  refine (h (.member receiver token.text)).mono fun _ _ harguments => ?_
  have hreceiver : Keeps tree owner [] [.receiver receiver] :=
    .quiet (generates_receiver _ receiver) fun _ => ⟨nofun, nofun, nofun⟩
  exact ((hreceiver.trans harguments).skip paren).skip token

mutual

theorem expression_walks (tree : Tree.Class) (e : Expression) :
    Walks [.term, .operations] (e.places owner) ExpressionEnds (Keeps tree owner) := by
  cases e with
  | mk first rest =>
    refine (term_walks tree first).append (fun kind => operations_start owner rest) ?_
    exact (operations_walks tree rest).mono fun _ _ hrest _ _ hfirst => hfirst.trans hrest
termination_by structural e

theorem operations_walks (tree : Tree.Class) (x : Operations) :
    Walks [.operations] (x.places owner) ExpressionEnds (Keeps tree owner) := by
  cases x with
  | nil => exact .instead rfl (fun kind h => h.1) (.nil (.refl _))
  | cons operator operand rest =>
    refine .take (by cases operator <;> rfl) TokenKind.noConfusion fun token hkind => ?_
    simp only [Goal.next, hkind, Lexeme.kind, binary?_symbol]
    refine (term_walks tree operand).append (fun kind => operations_start owner rest) ?_
    refine .emit ((operations_walks tree rest).mono fun _ _ hrest _ _ hoperand => ?_)
    exact (hoperand.trans (hrest.emit _)).skip token
termination_by structural x

theorem term_walks (tree : Tree.Class) (e : Term) :
    Walks [.term] (e.places owner) NameEnds (Keeps tree owner) := by
  cases e with
  | integer value =>
    refine .take rfl TokenKind.noConfusion fun token hkind => ?_
    simp only [Goal.next, hkind, Lexeme.kind]
    exact .emit (.nil (((Resolves.refl _).emit _).skip token))
  | string text =>
    refine .take rfl TokenKind.noConfusion fun token hkind => ?_
    simp only [Goal.next, hkind, Lexeme.kind]
    have hbuild := generates_build (owner.context tree) token
    exact .emit (.nil ((Resolves.quiet hbuild fun _ => ⟨nofun, nofun, nofun⟩).skip token))
  | constant word =>
    refine .take (by cases word <;> rfl) TokenKind.noConfusion fun token hkind => ?_
    simp only [Goal.next, hkind, Lexeme.kind]
    cases word with
    | true_ => exact .emit (.emit (.nil ((((Resolves.refl _).emit _).emit _).skip token)))
    | _ => exact .emit (.nil (((Resolves.refl _).emit _).skip token))
  | variable_ name =>
    refine .spelled rfl TokenKind.noConfusion fun token hkind => ?_
    simp only [Goal.next, hkind, Lexeme.kind]
    refine .instead rfl (fun kind hends => hends.not_wants token) (.emit (.nil fun _ _ => ?_))
    exact .ofName (generates_load _ token) (.inr (.inl rfl))
  | element array index =>
    refine .spelled rfl TokenKind.noConfusion fun token hkind => ?_
    simp only [Goal.next, hkind, Lexeme.kind]
    refine .take rfl TokenKind.noConfusion fun bracket hkind => ?_
    simp only [Goal.next, hkind, Lexeme.kind]
    refine .emit ((expression_walks tree index).append (fun kind _ => ?_) ?_)
    · exact ⟨rfl, nofun, nofun, nofun⟩
    · refine .symbol fun close => .emit (.emit (.emit (.nil ?_)))
      intro y n hindex _ _
      have hload : Keeps tree owner [(token, some owner)] [.load token] :=
        .ofName (generates_load _ token) (.inr (.inl rfl))
      have haccess : Keeps tree owner [(close, none)] [.emit (.operate .add),
          .emit (.pop .pointer 1), .emit (.push .that 0)] :=
        ((((Resolves.refl _).emit _).emit _).emit _).skip close
      exact hload.trans ((hindex.trans haccess).skip bracket)
  | call call =>
    exact (call_walks tree call).mono_follow fun _ _ => trivial
  | group inner =>
    refine .take rfl TokenKind.noConfusion fun token hkind => ?_
    simp only [Goal.next, hkind, Lexeme.kind]
    refine (expression_walks tree inner).append (fun kind _ => ⟨rfl, nofun, nofun, nofun⟩) ?_
    refine .symbol fun close => .nil fun _ _ hinner => ?_
    exact (hinner.trans ((Resolves.refl _).skip close)).skip token
  | unary operator operand =>
    refine .take (by cases operator <;> rfl) TokenKind.noConfusion fun token hkind => ?_
    have hnext : Goal.term.next token = [.term, .command operator.command] := by
      cases operator <;> simp only [Goal.next, hkind, Lexeme.kind] <;> rfl
    rw [hnext]
    refine (term_walks tree operand).behind (.emit (.nil fun _ _ hoperand => ?_))
    exact (hoperand.trans ((Resolves.refl _).emit _)).skip token
termination_by structural e

/-- A call as a term. -/
theorem call_walks (tree : Tree.Class) (call : Call) :
    Walks [.term] (call.places owner) (fun _ => True) (Keeps tree owner) := by
  cases call with
  | own name arguments =>
    refine .take rfl TokenKind.noConfusion fun token hkind => ?_
    simp only [Goal.next, hkind, Lexeme.kind]
    refine .take rfl TokenKind.noConfusion fun paren hkind => ?_
    simp only [Goal.next, hkind, Lexeme.kind]
    refine .emit ((arguments_walks tree (.own token) arguments).mono fun _ _ harguments => ?_)
    exact ((harguments.emit _).skip paren).skip token
  | member receiver name arguments =>
    refine .take rfl TokenKind.noConfusion fun token hkind => ?_
    simp only [Goal.next, hkind, Lexeme.kind]
    refine .take rfl TokenKind.noConfusion fun dot hkind => ?_
    simp only [Goal.next, hkind, Lexeme.kind]
    refine (member_walks owner token name fun callee => arguments_walks tree callee arguments).mono
      fun _ _ hmember => ?_
    exact (hmember.skip dot).skip token
termination_by structural call

theorem arguments_walks (tree : Tree.Class) (callee : Callee) (x : Arguments) :
    Walks [.arguments callee] (x.places owner ++ [plain (.symbol .rightParen)]) (fun _ => True)
      (Keeps tree owner) := by
  cases x with
  | nil =>
    refine .take rfl TokenKind.noConfusion fun close _ => .emit (.nil ?_)
    exact (Keeps.callee tree owner callee 0).skip close
  | cons first rest =>
    rw [Arguments.places, List.append_assoc]
    refine .instead rfl (fun kind _ => decide_eq_false ?_) ?_
    · exact expression_start_ne owner first _ kind rfl
    refine (expression_walks tree first).append (fun kind _ => further_start owner rest kind) ?_
    exact (further_walks tree callee 1 rest).mono fun _ _ hrest _ _ hfirst => hfirst.trans hrest
termination_by structural x

theorem further_walks (tree : Tree.Class) (callee : Callee) (count : Nat) (x : Arguments) :
    Walks [.moreArguments callee count] (x.furtherPlaces owner ++ [plain (.symbol .rightParen)])
      (fun _ => True) (Keeps tree owner) := by
  cases x with
  | nil =>
    refine .instead rfl (fun kind _ => rfl) (.symbol fun close => .emit (.nil ?_))
    exact (Keeps.callee tree owner callee count).skip close
  | cons first rest =>
    rw [Arguments.furtherPlaces, List.cons_append, List.append_assoc]
    refine .take rfl TokenKind.noConfusion fun comma _ => ?_
    refine (expression_walks tree first).append (fun kind _ => further_start owner rest kind) ?_
    exact (further_walks tree callee (count + 1) rest).mono fun _ _ hrest _ _ hfirst =>
      (hfirst.trans hrest).skip comma
termination_by structural x

end

/-- A call as a statement. -/
theorem callee_walks (tree : Tree.Class) (call : Call) :
    Walks [.name .callee] (call.places owner) (fun _ => True) (Keeps tree owner) := by
  cases call with
  | own name arguments =>
    refine .take rfl TokenKind.noConfusion fun token _ => ?_
    refine .instead rfl (fun _ _ => rfl) (.emit (.symbol fun paren => ?_))
    refine (arguments_walks owner tree (.own token) arguments).mono fun _ _ harguments => ?_
    exact ((harguments.skip paren).emit _).skip token
  | member receiver name arguments =>
    refine .take rfl TokenKind.noConfusion fun token _ => ?_
    refine .take rfl TokenKind.noConfusion fun dot _ => ?_
    refine (member_walks owner token name fun callee =>
      arguments_walks owner tree callee arguments).mono fun _ _ hmember => ?_
    exact (hmember.skip dot).skip token

/-! ### Statements -/

theorem assignment_walks (tree : Tree.Class) (name : String) (value : Expression) :
    Walks [.name .target] ((.identifier name, some owner) :: plain (.symbol .equal) ::
      (value.places owner ++ [plain (.symbol .semicolon)])) (fun _ => True)
      (Keeps tree owner) := by
  refine .spelled rfl TokenKind.noConfusion fun token _ => .emit ?_
  refine .instead rfl (fun _ _ => rfl) (.symbol fun equal => ?_)
  refine (expression_walks owner tree value).append (fun _ _ => ⟨rfl, nofun, nofun, nofun⟩) ?_
  refine .symbol fun semicolon => .emit (.nil fun y n hvalue _ _ => ?_)
  have hrequire : Keeps tree owner [(token, some owner)] [.require token] :=
    .ofName (generates_require _ token) (.inl rfl)
  have hall := hrequire.trans ((hvalue.trans ((Resolves.refl _).skip semicolon)).skip equal)
  rw [List.append_nil] at hall
  exact hall.again List.mem_cons_self (generates_store _ token)

theorem elementAssignment_walks (tree : Tree.Class) (array : String) (index value : Expression) :
    Walks [.name .target] ((.identifier array, some owner) :: plain (.symbol .leftBracket) ::
      (index.places owner ++ plain (.symbol .rightBracket) :: plain (.symbol .equal) ::
        (value.places owner ++ [plain (.symbol .semicolon)]))) (fun _ => True)
      (Keeps tree owner) := by
  refine .spelled rfl TokenKind.noConfusion fun token _ => .emit ?_
  refine .take rfl TokenKind.noConfusion fun bracket _ => .emit ?_
  refine (expression_walks owner tree index).append (fun _ _ => ⟨rfl, nofun, nofun, nofun⟩) ?_
  refine .symbol fun close => .emit (.symbol fun equal => ?_)
  refine (expression_walks owner tree value).append (fun _ _ => ⟨rfl, nofun, nofun, nofun⟩) ?_
  refine .symbol fun semicolon => .emit (.emit (.emit (.emit (.nil ?_))))
  intro y n hvalue x m hindex _ _
  have hrequire : Keeps tree owner [(token, some owner)] [.require token] :=
    .ofName (generates_require _ token) (.inl rfl)
  have hbase := hrequire.again List.mem_cons_self (generates_load _ token)
  have hstore : Keeps tree owner [(semicolon, none)] [.emit (.pop .temp 0),
      .emit (.pop .pointer 1), .emit (.push .temp 0), .emit (.pop .that 0)] :=
    (((((Resolves.refl _).emit _).emit _).emit _).emit _).skip semicolon
  have hrest := (((hvalue.trans hstore).skip equal).emit (.operate .add)).skip close
  exact hbase.trans ((hindex.trans hrest).skip bracket)

theorem returningNothing_walks (tree : Tree.Class) :
    Walks [.returning] [plain (.symbol .semicolon)] (fun _ => True) (Keeps tree owner) :=
  .take rfl TokenKind.noConfusion fun semicolon _ =>
    .emit (.emit (.nil ((((Resolves.refl _).emit _).emit _).skip semicolon)))

theorem returningValue_walks (tree : Tree.Class) (value : Expression) :
    Walks [.returning] (value.places owner ++ [plain (.symbol .semicolon)]) (fun _ => True)
      (Keeps tree owner) := by
  refine .instead rfl (fun kind _ => decide_eq_false ?_) ?_
  · exact expression_start_ne owner value _ kind rfl
  refine (expression_walks owner tree value).append (fun _ _ => ⟨rfl, nofun, nofun, nofun⟩) ?_
  refine .symbol fun semicolon => .emit (.nil fun _ _ hvalue => ?_)
  exact hvalue.trans (((Resolves.refl _).emit _).skip semicolon)

/-- What may follow the statements of a block. -/
def StatementsEnd (kind : TokenKind) : Prop :=
  Goal.statements.wants kind = false ∧ kind ≠ .keyword .else_

theorem statements_start (x : Statements) {kind : TokenKind} (h : StatementsEnd kind) :
    startKind (x.places owner) kind ≠ .keyword .else_ := by
  cases x with
  | nil => exact h.2
  | cons first rest =>
    cases first <;> exact nofun

/-- A condition in parentheses and the block behind it. -/
def guardedPlaces (condition : Expression) (body : Statements) : List Place :=
  plain (.symbol .leftParen) :: (condition.places owner ++
    plain (.symbol .rightParen) :: plain (.symbol .leftBrace) ::
      (body.places owner ++ [plain (.symbol .rightBrace)]))

theorem guarded_walks {tree : Tree.Class} (otherwise : String) (condition : Expression)
    {body : Statements}
    (h : Walks [.statements] (body.places owner) StatementsEnd (Keeps tree owner)) :
    Walks (Goal.guarded otherwise) (guardedPlaces owner condition body) (fun _ => True)
      (Keeps tree owner) := by
  refine .symbol fun paren => ?_
  refine (expression_walks owner tree condition).append (fun _ _ => ⟨rfl, nofun, nofun, nofun⟩) ?_
  refine .symbol fun close => .emit (.emit (.symbol fun brace => ?_))
  refine h.append (fun _ _ => ⟨rfl, nofun⟩) (.symbol fun last => .nil ?_)
  intro y n hbody x m hcondition
  have hblock := (hbody.trans ((Resolves.refl _).skip last)).skip brace
  exact (hcondition.trans (((hblock.emit _).emit _).skip close)).skip paren

/-- A statement, after which others follow. -/
theorem keyword_walks {tree : Tree.Class} {word : Keyword} {goals : List Goal}
    {body later : List Place} {follow : TokenKind → Prop}
    (hwants : Goal.statements.wants (.keyword word) = true)
    (hnext : ∀ token : Token, token.kind = .keyword word →
      Goal.statements.next token = goals ++ [.statements])
    (hfollow : ∀ kind, StatementsEnd kind → follow (startKind later kind))
    (hbody : Walks goals body follow (Keeps tree owner))
    (hlater : Walks [.statements] later StatementsEnd (Keeps tree owner)) :
    Walks [.statements] (plain (.keyword word) :: (body ++ later)) StatementsEnd
      (Keeps tree owner) := by
  refine .take hwants TokenKind.noConfusion fun token hkind => ?_
  rw [hnext token hkind, List.append_nil]
  refine hbody.append hfollow (hlater.mono fun _ _ hrest _ _ hfirst => ?_)
  exact (hfirst.trans hrest).skip token

mutual

theorem statement_walks (tree : Tree.Class) (x : Statement) {later : List Place}
    (hstart : ∀ kind, StatementsEnd kind → startKind later kind ≠ .keyword .else_)
    (hlater : Walks [.statements] later StatementsEnd (Keeps tree owner)) :
    Walks [.statements] (x.places owner ++ later) StatementsEnd (Keeps tree owner) := by
  cases x with
  | assign name value =>
    exact keyword_walks owner rfl (fun token hkind => by rw [Goal.next, hkind]; rfl)
      (fun _ _ => trivial) (assignment_walks owner tree name value) hlater
  | assignElement array index value =>
    exact keyword_walks owner rfl (fun token hkind => by rw [Goal.next, hkind]; rfl)
      (fun _ _ => trivial) (elementAssignment_walks owner tree array index value) hlater
  | choice condition body =>
    have hbody := statements_walks tree body
    have hchoice : Walks [.choice] (guardedPlaces owner condition body)
        (· ≠ .keyword .else_) (Keeps tree owner) := by
      refine .branch rfl fun label => ?_
      rw [List.append_nil]
      refine ((guarded_walks owner _ condition hbody).mono_follow fun _ _ => trivial).behind ?_
      refine .emit (.emit (.instead rfl (fun _ hkind => decide_eq_false hkind) (.emit (.nil ?_))))
      exact fun _ _ hguarded => hguarded.trans ((((Resolves.refl _).emit _).emit _).emit _)
    exact keyword_walks owner rfl (fun token hkind => by rw [Goal.next, hkind]; rfl) hstart
      hchoice hlater
  | choiceElse condition body otherwise =>
    have hbody := statements_walks tree body
    have hother := statements_walks tree otherwise
    have hplaces : (Statement.choiceElse condition body otherwise).places owner ++ later =
        plain (.keyword .if_) :: ((guardedPlaces owner condition body ++
          plain (.keyword .else_) :: plain (.symbol .leftBrace) ::
            (otherwise.places owner ++ [plain (.symbol .rightBrace)])) ++ later) := by
      simp [Statement.places, guardedPlaces]
    have hchoice : Walks [.choice] (guardedPlaces owner condition body ++
        plain (.keyword .else_) :: plain (.symbol .leftBrace) ::
          (otherwise.places owner ++ [plain (.symbol .rightBrace)])) (fun _ => True)
        (Keeps tree owner) := by
      refine .branch rfl fun label => ?_
      rw [List.append_nil]
      refine (guarded_walks owner _ condition hbody).append (fun _ _ => trivial) ?_
      refine .emit (.emit (.take rfl TokenKind.noConfusion fun else_ _ => ?_))
      refine .symbol fun brace => hother.append (fun _ _ => ⟨rfl, nofun⟩) ?_
      refine .symbol fun last => .emit (.nil fun y n hblock x m hguarded => ?_)
      have hdone : Keeps tree owner [(last, none)] [.emit (.label (labelName (label + 1)))] :=
        ((Resolves.refl _).emit _).skip last
      have hlast := hblock.trans hdone
      exact hguarded.trans ((((hlast.skip brace).skip else_).emit _).emit _)
    rw [hplaces]
    exact keyword_walks owner rfl (fun token hkind => by rw [Goal.next, hkind]; rfl)
      (fun _ _ => trivial) hchoice hlater
  | loop condition body =>
    have hbody := statements_walks tree body
    have hloop : Walks [.loop] (guardedPlaces owner condition body) (fun _ => True)
        (Keeps tree owner) := by
      refine .branch rfl fun label => ?_
      rw [List.append_nil]
      refine .emit ((guarded_walks owner _ condition hbody).behind (.emit (.emit (.nil ?_))))
      intro x m hguarded
      exact (hguarded.trans (((Resolves.refl _).emit _).emit _)).emit _
    exact keyword_walks owner rfl (fun token hkind => by rw [Goal.next, hkind]; rfl)
      (fun _ _ => trivial) hloop hlater
  | invoke call =>
    have hinvoke : Walks [.name .callee, .symbol .semicolon, .command (.pop .temp 0)]
        (call.places owner ++ [plain (.symbol .semicolon)]) (fun _ => True)
        (Keeps tree owner) := by
      refine (callee_walks owner tree call).append (fun _ _ => trivial) ?_
      refine .symbol fun semicolon => .emit (.nil fun _ _ hcall => ?_)
      exact hcall.trans (((Resolves.refl _).emit _).skip semicolon)
    exact keyword_walks owner rfl (fun token hkind => by rw [Goal.next, hkind]; rfl)
      (fun _ _ => trivial) hinvoke hlater
  | returnNothing =>
    exact keyword_walks owner rfl (fun token hkind => by rw [Goal.next, hkind]; rfl)
      (fun _ _ => trivial) (returningNothing_walks owner tree) hlater
  | returnValue value =>
    exact keyword_walks owner rfl (fun token hkind => by rw [Goal.next, hkind]; rfl)
      (fun _ _ => trivial) (returningValue_walks owner tree value) hlater
termination_by structural x

theorem statements_walks (tree : Tree.Class) (x : Statements) :
    Walks [.statements] (x.places owner) StatementsEnd (Keeps tree owner) := by
  cases x with
  | nil => exact .instead rfl (fun kind h => h.1) (.nil (.refl _))
  | cons first rest =>
    exact statement_walks tree first (fun kind => statements_start owner rest)
      (statements_walks tree rest)
termination_by structural x

end

end Expressions

/-! ### Declarations -/

theorem text_of_lexeme {token : Token} {name : String} (h : token.lexeme = .identifier name) :
    token.text = name := by
  unfold Token.lexeme TokenKind.lexeme at h
  split at h <;> cases h
  rfl

theorem kind_of_lexeme {token : Token} {word : Keyword} (h : token.lexeme = .keyword word) :
    token.kind = .keyword word := by
  rw [← Token.kind_lexeme, h]
  rfl

theorem text_of_type {token : Token} {type : TypeName} (h : token.lexeme = type.lexeme)
    (hspelled : token.Spelled) : token.text = type.text := by
  cases type with
  | class_ name => exact text_of_lexeme h
  | _ => exact hspelled.text_of_keyword (kind_of_lexeme h)

/-- Directives that add these declarations. -/
abbrev Adds (tree : Tree.Class) (c : Context) (declarations : List Declaration)
    (places : List TokenPlace) (directives : List Directive) : Prop :=
  Resolves tree c places directives (c.declareAll declarations)

section Declarations

variable {tree : Tree.Class} {c : Context} {x y : List TokenPlace} {m n : List Directive}
  {a b : List Declaration}

theorem Adds.append (h : Adds tree c a x m) (k : Adds tree (c.declareAll a) b y n) :
    Adds tree c (a ++ b) (x ++ y) (m ++ n) := by
  rw [Adds, Context.declareAll_append]
  exact h.trans k

theorem Adds.declare (kind : VariableKind) (type : String) {name : Token} {text : String}
    (htext : name.text = text) (h : Adds tree (c.declare ⟨kind, type, text⟩) a x m) :
    Adds tree c (⟨kind, type, text⟩ :: a) x (.declare kind type name :: m) := by
  have hdeclare := generates_declare c ⟨kind, type, text⟩ name htext
  exact (Resolves.quiet hdeclare fun _ => ⟨nofun, nofun, nofun⟩).trans h

end Declarations

section Variables

variable (tree : Tree.Class)

theorem names_walks (kind : VariableKind) (type : String) (others : List String) :
    ∀ (first : String) (c : Context),
      Walks [.name (.variable_ kind type)]
        (plain (.identifier first) :: (furtherNames others).map plain) (· ≠ .symbol .comma)
        (Adds tree c ((first :: others).map fun name => ⟨kind, type, name⟩)) := by
  induction others with
  | nil =>
    intro first c
    refine .spelled rfl TokenKind.noConfusion fun token _ => .emit ?_
    refine .instead rfl (fun _ hkind => decide_eq_false hkind) (.nil fun htext _ => ?_)
    exact (Adds.declare kind type (text_of_lexeme htext) (.refl _)).skip token
  | cons second rest ih =>
    intro first c
    refine .spelled rfl TokenKind.noConfusion fun token _ => .emit ?_
    refine .take rfl TokenKind.noConfusion fun comma _ => ?_
    refine (ih second (c.declare ⟨kind, type, first⟩)).mono fun _ _ hrest htext _ => ?_
    exact (Adds.declare kind type (text_of_lexeme htext) (hrest.skip comma)).skip token

theorem declaration_walks (c : Context) (kind : VariableKind) (line : Variables) :
    Walks [.type (.names kind)] (line.yield.map plain) (fun _ => True)
      (Adds tree c (line.declarations kind)) := by
  obtain ⟨type, first, others⟩ := line
  rw [Variables.yield, List.map_cons, List.map_cons, List.map_append]
  refine .spelled (by cases type <;> rfl) (by cases type <;> exact TokenKind.noConfusion)
    fun token _ => ?_
  refine (names_walks tree kind token.text others first c).append
    (fun _ _ hcomma => by cases hcomma) ?_
  refine .symbol fun semicolon => .nil fun y n hnames htype hspelled => ?_
  rw [text_of_type htype hspelled] at hnames
  exact (hnames.trans ((Resolves.refl _).skip semicolon)).skip token

theorem classVariables_walks (list : List ClassVariables) : ∀ c : Context,
    Walks [.classVariables] ((list.flatMap ClassVariables.yield).map plain)
      (fun kind => Goal.classVariables.wants kind = false)
      (Adds tree c (list.flatMap ClassVariables.declarations)) := by
  induction list with
  | nil => exact fun c => .instead rfl (fun _ hkind => hkind) (.nil (.refl _))
  | cons first rest ih =>
    intro c
    obtain ⟨line, scope⟩ := first
    rw [List.flatMap_cons, List.flatMap_cons, ClassVariables.yield, List.cons_append,
      List.map_cons, List.map_append]
    refine .take (by cases scope <;> rfl) TokenKind.noConfusion fun token hkind => ?_
    have hnext : Goal.classVariables.next token =
        [.type (.names scope.kind), .classVariables] := by
      rw [Goal.next, hkind]
      cases scope <;> rfl
    rw [hnext]
    refine (declaration_walks tree c scope.kind line).append (fun _ _ => trivial) ?_
    refine (ih (c.declareAll (line.declarations scope.kind))).mono fun _ _ hrest y n hfirst => ?_
    exact (hfirst.append hrest).skip token

theorem localVariables_walks (list : List Variables) : ∀ c : Context,
    Walks [.localVariables] ((localsYield list).map plain)
      (fun kind => kind ≠ .keyword .var_)
      (Adds tree c (list.flatMap (Variables.declarations .local_))) := by
  induction list with
  | nil => exact fun c => .instead rfl (fun _ hkind => decide_eq_false hkind) (.nil (.refl _))
  | cons first rest ih =>
    intro c
    rw [localsYield, List.flatMap_cons, List.flatMap_cons, List.cons_append, List.map_cons,
      List.map_append]
    refine .take rfl TokenKind.noConfusion fun token _ => ?_
    refine (declaration_walks tree c .local_ first).append (fun _ _ => trivial) ?_
    refine (ih (c.declareAll (first.declarations .local_))).mono fun _ _ hrest y n hfirst => ?_
    exact (hfirst.append hrest).skip token

theorem moreParameters_walks (others : List Parameter) : ∀ (first : Parameter) (c : Context),
    Walks [.type .parameter] ((first.yield ++
        others.flatMap fun other => .symbol .comma :: other.yield).map plain ++
          [plain (.symbol .rightParen)]) (fun _ => True)
      (Adds tree c ((first :: others).map Parameter.declaration)) := by
  induction others with
  | nil =>
    rintro ⟨type, name⟩ c
    refine .spelled (by cases type <;> rfl) (by cases type <;> exact TokenKind.noConfusion)
      fun token _ => ?_
    refine .spelled rfl TokenKind.noConfusion fun ident _ => .emit ?_
    refine .instead rfl (fun _ _ => rfl) (.symbol fun close => .nil ?_)
    intro hname _ htype hspelled
    rw [text_of_type htype hspelled]
    exact ((Adds.declare _ _ (text_of_lexeme hname) ((Resolves.refl _).skip close)).skip
      ident).skip token
  | cons second rest ih =>
    rintro ⟨type, name⟩ c
    refine .spelled (by cases type <;> rfl) (by cases type <;> exact TokenKind.noConfusion)
      fun token _ => ?_
    refine .spelled rfl TokenKind.noConfusion fun ident _ => .emit ?_
    refine .take rfl TokenKind.noConfusion fun comma _ => ?_
    refine (ih second (c.declare (Parameter.declaration ⟨type, name⟩))).mono
      fun _ _ hrest hname _ htype hspelled => ?_
    rw [text_of_type htype hspelled]
    exact ((Adds.declare _ _ (text_of_lexeme hname) (hrest.skip comma)).skip ident).skip token

theorem parameters_walks (list : List Parameter) (c : Context) :
    Walks [.parameters] ((parametersYield list).map plain ++ [plain (.symbol .rightParen)])
      (fun _ => True) (Adds tree c (list.map Parameter.declaration)) := by
  cases list with
  | nil =>
    exact .take rfl TokenKind.noConfusion fun close _ => .nil ((Resolves.refl _).skip close)
  | cons first others =>
    refine .instead rfl (fun _ _ => ?_) (moreParameters_walks tree others first c)
    obtain ⟨type, name⟩ := first
    cases type <;> rfl

end Variables

/-! ### Classes -/

theorem block_start (owner : Subroutine) (x : Statements) (kind : TokenKind) :
    startKind (x.places owner ++ [plain (.symbol .rightBrace)]) kind ≠ .keyword .var_ := by
  cases x with
  | nil => exact nofun
  | cons first rest => cases first <;> exact nofun

section Classes

variable (tree : Tree.Class)

/-- A subroutine, after its first keyword. -/
theorem subroutine_walks (own : List Declaration) (keyword : Token) (x : Subroutine) :
    Walks [.act (.openSubroutine x.kind keyword), .returnType x.kind] x.places.tail
      (fun _ => True) fun front added =>
        Resolves tree { tree.context with ofSubroutine := own } front added (x.context tree) := by
  let c : Context := { tree.context with ofSubroutine := own }
  let opened := c.startSubroutine.declareAll (receiverDeclarations tree.name x.kind)
  have hopen : Resolves tree c [] [.openSubroutine x.kind keyword] opened :=
    .quiet (generates_openSubroutine c x.kind keyword) fun _ => ⟨nofun, nofun, nofun⟩
  have hreturn : Goal.wants (returnLexeme x.returnType).kind (.returnType x.kind) = true ∧
      (returnLexeme x.returnType).kind ≠ .endOfFile := by
    cases x.returnType with
    | none => exact ⟨rfl, nofun⟩
    | some type => cases type <;> exact ⟨rfl, nofun⟩
  refine .emit (.take hreturn.1 hreturn.2 fun token _ => ?_)
  refine .take rfl TokenKind.noConfusion fun name _ => .emit (.symbol fun paren => ?_)
  rw [List.append_cons]
  refine (parameters_walks tree x.parameters opened).append (fun _ _ => trivial) ?_
  refine .symbol fun brace => ?_
  refine (localVariables_walks tree x.locals (opened.declareAll
    (x.parameters.map Parameter.declaration))).append (fun _ _ => block_start x x.body _) ?_
  refine .emit ((statements_walks x tree x.body).append (fun _ _ => ⟨rfl, nofun⟩) ?_)
  refine .symbol fun last => .nil fun y n hbody z l hlocals w k hparameters => ?_
  have hname : Resolves tree opened [] [.nameSubroutine x.kind name.text] opened :=
    .quiet (generates_nameSubroutine opened x.kind name.text) fun _ => ⟨nofun, nofun, nofun⟩
  have hstart : Keeps tree x [] [.openBody x.kind name.text] :=
    .quiet (generates_openBody _ x.kind name.text) fun _ => ⟨nofun, nofun, nofun⟩
  have hdeclared : Resolves tree opened (w ++ (brace, none) :: z) (k ++ l) (x.context tree) := by
    rw [← x.context_eq tree own, Context.declareAll_append]
    exact hparameters.trans (hlocals.skip brace)
  have hblock := hstart.trans (hbody.trans ((Resolves.refl _).skip last))
  have hall := hname.trans ((hdeclared.trans hblock).skip paren)
  have hwhole := hopen.trans ((hall.skip name).skip token)
  simpa using hwhole

theorem subroutines_walks (list : List Subroutine) : ∀ own : List Declaration,
    Walks [.subroutines] (list.flatMap Subroutine.places)
      (fun kind => Goal.subroutines.wants kind = false) fun front added => ∃ last,
        Resolves tree { tree.context with ofSubroutine := own } front added
          { tree.context with ofSubroutine := last } := by
  induction list with
  | nil => exact fun own => .instead rfl (fun _ hkind => hkind) (.nil ⟨own, .refl _⟩)
  | cons first rest ih =>
    intro own
    rw [List.flatMap_cons]
    refine .take (by cases first.kind <;> rfl) TokenKind.noConfusion fun token hkind => ?_
    have hnext : Goal.subroutines.next token =
        [.act (.openSubroutine first.kind token), .returnType first.kind, .subroutines] := by
      rw [Goal.next, hkind]
      cases first.kind <;> rfl
    rw [hnext]
    refine (subroutine_walks tree own token first).append (fun _ _ => trivial) ?_
    refine (ih (first.declarations tree.name).reverse).mono fun _ _ hrest y n hfirst => ?_
    obtain ⟨last, hrest⟩ := hrest
    exact ⟨last, (hfirst.trans hrest).skip token⟩

theorem subroutines_start (list : List Subroutine) (kind : TokenKind) :
    Goal.classVariables.wants (startKind (list.flatMap Subroutine.places ++
      [plain (.symbol .rightBrace)]) kind) = false := by
  cases list with
  | nil => rfl
  | cons first rest =>
    obtain ⟨kind, type, name, parameters, locals, body⟩ := first
    cases kind <;> rfl

theorem class_walks :
    Walks [.token (.keyword .class_), .name .class_] tree.places (fun _ => True)
      fun front added => ∃ last, Resolves tree {} front added last := by
  let named : Context := { className := tree.name }
  have hcontext : named.declareAll tree.declarations =
      { tree.context with ofSubroutine := [] } := by
    rw [Context.declareAll_ofClass _ tree.inClass_declarations, List.append_nil]
    rfl
  refine .take rfl TokenKind.noConfusion fun token _ => ?_
  refine .spelled rfl TokenKind.noConfusion fun name _ => .emit (.symbol fun brace => ?_)
  refine (classVariables_walks tree tree.classVariables named).append
    (fun kind _ => subroutines_start tree.subroutines kind) ?_
  refine (subroutines_walks tree tree.subroutines []).append (fun _ _ => rfl) ?_
  refine .symbol fun close => .nil fun y n hsubroutines x m hvariables htext _ => ?_
  obtain ⟨last, hsubroutines⟩ := hsubroutines
  have hopen : Resolves tree {} [] [.openClass name.text] named := by
    have h := generates_openClass {} name.text
    rw [text_of_lexeme htext] at h ⊢
    exact .quiet h fun _ => ⟨nofun, nofun, nofun⟩
  rw [Adds, ← Tree.Class.declarations, hcontext] at hvariables
  have hrest := hsubroutines.trans ((Resolves.refl _).skip close)
  have hall := hopen.trans ((hvariables.trans hrest).skip brace)
  exact ⟨_, (hall.skip name).skip token⟩

/-- Work takes the tokens of a tree to the end. Where they are spelled as those of the tree, the
directives that are added stop for the first place with an undefined name. -/
theorem tree_reaches {s : Reading} (hended : s.Ended)
    (hkinds : s.input.tokens.map Token.kind = tree.yield.map Lexeme.kind) :
    ∃ last added, Reaches none (ofReading s) last ∧ Finished last ∧
      last.reading.code = added.reverse ++ s.code ∧
      (s.input.tokens.map Token.lexeme = tree.yield → s.Spelled →
        ∃ d, Resolves tree {} (s.input.tokens.zip (tree.places.map Prod.snd)) added d) := by
  have hplaces : tree.places.map (fun place => place.1.kind) = tree.yield.map Lexeme.kind := by
    rw [← tree.places_fst, List.map_map]
    rfl
  obtain ⟨t, added, hback, hlast, hcode, hwork, hjudge⟩ := class_walks tree s s.input.tokens []
    (List.append_nil _).symm (hkinds.trans hplaces.symm) trivial
  refine ⟨⟨[.finish], t⟩, added, hwork [.finish], ⟨rfl, ?_⟩, hcode, fun hlexemes hspelled => ?_⟩
  · rw [kind_eq, hback, hlast]
    exact hended
  · exact hjudge (hlexemes.trans tree.places_fst.symm) hspelled

end Classes

end JackCompiler.Agenda
