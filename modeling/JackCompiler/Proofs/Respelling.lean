import JackCompiler.Proofs.AgendaInvariants

/-!
Reading looks at the kinds of tokens and at nothing else. Where names are spelled in another way and
tokens stand in other places, reading takes the same steps, and its directives are spelled and
placed in that way too. Whatever directives say comes from the tokens that were read.
-/

namespace JackCompiler

/-- The name with each of its halves, if a dot parts it, changed in this way. -/
def renameQualified (f : String → String) (name : String) : String :=
  match name.toList.dropWhile (· != '.') with
  | [] => f name
  | _ :: rest =>
    f (String.ofList (name.toList.takeWhile (· != '.'))) ++ "." ++ f (String.ofList rest)

/-- Whether tokens of the kind are spelled with letters: names, and the keywords that may stand
where names do. -/
def TokenKind.isWord : TokenKind → Bool
  | keyword _ | identifier => true
  | _ => false

/-- The text of a token of the kind, with words changed in this way. -/
def TokenKind.respell (f : String → String) (kind : TokenKind) (text : String) : String :=
  if kind.isWord then f text else text

/-- Other spellings for words, and other places for tokens. -/
structure Respelling where
  word : String → String
  place : Token → Span

def Token.respell (r : Respelling) (token : Token) : Token :=
  ⟨token.kind, token.kind.respell r.word token.text, r.place token⟩

def SyntaxFault.respell (f : String → String) : SyntaxFault → SyntaxFault
  | .unexpected expected found text => .unexpected expected found (found.respell f text)
  | .callTooWide callee => .callTooWide (renameQualified f callee)
  | fault => fault

def Refusal.respell (r : Respelling) (refusal : Refusal) : Refusal :=
  ⟨refusal.fault.respell r.word, refusal.token.respell r⟩

def Directive.respell (r : Respelling) : Directive → Directive
  | .openClass name => .openClass (r.word name)
  | .openSubroutine kind keyword => .openSubroutine kind (keyword.respell r)
  | .nameSubroutine kind name => .nameSubroutine kind (r.word name)
  | .openBody kind name => .openBody kind (r.word name)
  | .declare kind type name => .declare kind (r.word type) (name.respell r)
  | .emit command => .emit command
  | .require name => .require (name.respell r)
  | .load name => .load (name.respell r)
  | .store name => .store (name.respell r)
  | .build string => .build (string.respell r)
  | .receiver owner => .receiver (owner.respell r)
  | .invoke owner member arguments => .invoke (owner.respell r) (r.word member) arguments
  | .invokeOwn method arguments => .invokeOwn (method.respell r) arguments

def Callee.respell (r : Respelling) : Callee → Callee
  | .own name => .own (name.respell r)
  | .member owner name => .member (owner.respell r) (r.word name)

def NameUse.respell (r : Respelling) : NameUse → NameUse
  | .variable_ kind type => .variable_ kind (r.word type)
  | .parameter type => .parameter (r.word type)
  | .member owner => .member (owner.respell r)
  | use => use

def Goal.respell (r : Respelling) : Goal → Goal
  | .act directive => .act (directive.respell r)
  | .name use => .name (use.respell r)
  | .afterName single => .afterName (single.respell r)
  | .call method => .call (method.respell r)
  | .arguments callee => .arguments (callee.respell r)
  | .moreArguments callee count => .moreArguments (callee.respell r) count
  | .assignment target => .assignment (target.respell r)
  | .moreVariables kind text => .moreVariables kind (r.word text)
  | goal => goal

def Fallback.respell (r : Respelling) : Fallback → Fallback
  | .goals others => .goals (others.map (Goal.respell r))
  | .emit directive => .emit (directive.respell r)
  | .branch others => .branch fun label => (others label).map (Goal.respell r)
  | .refuse expected => .refuse expected

/-- The reader of another text with respelled tokens. -/
def Reader.respell (r : Respelling) (source : String) (reader : Reader) : Reader :=
  ⟨source, reader.tokens.map (Token.respell r), reader.last.respell r⟩

namespace Reading

def respell (r : Respelling) (source : String) (s : Reading) : Reading :=
  ⟨s.input.respell r source, s.labels, s.code.map (Directive.respell r)⟩

def Stop.respell (r : Respelling) (stop : Stop) : Stop :=
  ⟨stop.refusal.respell r, stop.code.map (Directive.respell r)⟩

end Reading

def Agenda.respell (r : Respelling) (source : String) (a : Agenda) : Agenda :=
  ⟨a.goals.map (Goal.respell r), a.reading.respell r source⟩

/-! ### One goal -/

section Goals

variable (r : Respelling) {token : Token}

@[simp] theorem Token.kind_respell (token : Token) : (token.respell r).kind = token.kind :=
  rfl

theorem Token.text_respell (h : token.kind.isWord = true) :
    (token.respell r).text = r.word token.text :=
  if_pos h

namespace Goal

theorem isWord_of_name {use : NameUse} (h : (name use).wants token.kind = true) :
    token.kind.isWord = true := by
  rw [of_decide_eq_true h]
  rfl

theorem isWord_of_type {use : TypeUse} (h : (type use).wants token.kind = true) :
    token.kind.isWord = true := by
  simp only [wants, List.mem_cons, List.not_mem_nil, or_false, decide_eq_true_eq] at h
  rcases h with h | h | h | h <;> rw [h] <;> rfl

theorem wants_respell (goal : Goal) (kind : TokenKind) :
    (goal.respell r).wants kind = goal.wants kind := by
  cases goal <;> rfl

theorem isFull_respell (goal : Goal) (limit : Option Nat) :
    (goal.respell r).isFull limit = goal.isFull limit := by
  cases goal <;> rfl

theorem fallback_respell (goal : Goal) :
    (goal.respell r).fallback = goal.fallback.respell r := by
  cases goal with
  | arguments callee => rfl
  | moreArguments callee count => cases callee <;> rfl
  | _ => rfl

theorem next_respell {goal : Goal} (h : goal.wants token.kind = true) :
    (goal.respell r).next (token.respell r) = (goal.next token).map (Goal.respell r) := by
  cases goal with
  | name use =>
    have htext := token.text_respell r (isWord_of_name h)
    cases use <;> simp only [Goal.respell, NameUse.respell, next, NameUse.goals, htext,
      Directive.respell, Callee.respell, List.map_cons, List.map_nil]
  | type use =>
    have htext := token.text_respell r (isWord_of_type h)
    cases use <;> simp only [Goal.respell, NameUse.respell, next, TypeUse.goals, htext,
      List.map_cons, List.map_nil]
  | operations =>
    simp only [Goal.respell, next, Token.kind_respell]
    split
    · split <;> rfl
    · rfl
  | arguments callee => cases callee <;> rfl
  | term | afterName _ | statements | classVariables | subroutines =>
    simp only [Goal.respell, next, Token.kind_respell]
    split <;> rfl
  | _ => rfl

end Goal

end Goals

/-! ### Work on an agenda -/

namespace Agenda

section Steps

variable (r : Respelling) (source : String) {limit : Option Nat} {a b : Agenda}
  {stop : Reading.Stop}

theorem peek_respell (reader : Reader) :
    (reader.respell r source).peek = reader.peek.respell r := by
  rw [Reader.peek, Reader.peek, Reader.respell]
  cases reader.tokens <;> rfl

theorem kind_respell (s : Reading) : (s.respell r source).kind = s.kind := by
  rw [Reading.kind, Reading.respell, peek_respell]
  rfl

theorem Step.respell (h : Step limit a b) :
    Step limit (a.respell r source) (b.respell r source) := by
  cases h with
  | @take goal goals s token rest htokens hkind hwants hfull =>
    have htokens' : (s.respell r source).input.tokens =
        token.respell r :: rest.map (Token.respell r) := by
      rw [Reading.respell, Reader.respell, htokens]
      rfl
    have hstep : Step limit ⟨goal.respell r :: goals.map (Goal.respell r), s.respell r source⟩ _ :=
      .take htokens' hkind ((goal.wants_respell r _).trans hwants)
        ((goal.isFull_respell r limit).trans hfull)
    rw [Goal.next_respell r hwants, ← List.map_append] at hstep
    exact hstep
  | @goals goal goals s others hnot hgoals =>
    have hnot' : (goal.respell r).wants (s.respell r source).kind = false := by
      rw [kind_respell, Goal.wants_respell]
      exact hnot
    have hgoals' : (goal.respell r).fallback = .goals (others.map (Goal.respell r)) := by
      rw [Goal.fallback_respell, hgoals]
      rfl
    have hstep : Step limit ⟨goal.respell r :: goals.map (Goal.respell r), s.respell r source⟩ _ :=
      .goals hnot' hgoals'
    rw [← List.map_append] at hstep
    exact hstep
  | @emit goal goals s directive hemit =>
    have hemit' : (goal.respell r).fallback = .emit (directive.respell r) := by
      rw [Goal.fallback_respell, hemit]
      rfl
    exact .emit hemit'
  | @branch goal goals s others hbranch =>
    have hbranch' : (goal.respell r).fallback =
        .branch fun label => (others label).map (Goal.respell r) := by
      rw [Goal.fallback_respell, hbranch]
      rfl
    have hstep : Step limit ⟨goal.respell r :: goals.map (Goal.respell r), s.respell r source⟩ _ :=
      .branch hbranch'
    rw [← List.map_append] at hstep
    exact hstep

theorem Refuses.respell (h : Refuses limit a stop) :
    Refuses limit (a.respell r source) (stop.respell r) := by
  cases h with
  | @unexpected goal goals s expected hnot hrefuse =>
    have hnot' : (goal.respell r).wants (s.respell r source).kind = false := by
      rw [kind_respell, Goal.wants_respell]
      exact hnot
    have hrefuse' : (goal.respell r).fallback = .refuse expected := by
      rw [Goal.fallback_respell, hrefuse]
      rfl
    have hrefuses : Refuses limit ⟨goal.respell r :: goals.map (Goal.respell r),
      s.respell r source⟩ _ := .unexpected hnot' hrefuse'
    have hstop : (s.respell r source).input.unexpected expected =
        (s.input.unexpected expected).respell r := by
      rw [Reader.unexpected, Reading.respell, peek_respell]
      rfl
    rw [hstop] at hrefuses
    exact hrefuses
  | @full goal goals s token rest htokens hkind hwants hfull =>
    have htokens' : (s.respell r source).input.tokens =
        token.respell r :: rest.map (Token.respell r) := by
      rw [Reading.respell, Reader.respell, htokens]
      rfl
    have hrefuses : Refuses limit ⟨goal.respell r :: goals.map (Goal.respell r),
        s.respell r source⟩ _ :=
      .full htokens' hkind ((goal.wants_respell r _).trans hwants)
        ((goal.isFull_respell r limit).trans hfull)
    have htoken : (rest.map (Token.respell r)).headD (s.respell r source).input.last =
        (rest.headD s.input.last).respell r := by
      cases rest <;> rfl
    rw [htoken] at hrefuses
    exact hrefuses

theorem Reaches.respell (h : Reaches limit a b) :
    Reaches limit (a.respell r source) (b.respell r source) :=
  h.lift (Agenda.respell r source) fun _ _ hstep => hstep.respell r source

theorem Fails.respell (h : Fails limit a stop) :
    Fails limit (a.respell r source) (stop.respell r) := by
  obtain ⟨last, hreaches, hrefuses⟩ := h
  exact ⟨_, hreaches.respell r source, hrefuses.respell r source⟩

end Steps

end Agenda

/-- Reading ends the same way on respelled tokens, since the work on an agenda has one end. -/
theorem Reading.wholeClass_respell (r : Respelling) (source : String) {s : Reading}
    (hended : s.Ended) :
    (s.respell r source).wholeClass =
      match s.wholeClass with
      | .ok t => .ok (t.respell r source)
      | .error stop => .error (stop.respell r) := by
  have hended' : (s.respell r source).Ended := hended
  have hstart : (Agenda.ofReading s).respell r source =
      Agenda.ofReading (s.respell r source) := rfl
  cases hread : s.wholeClass with
  | ok t =>
    obtain ⟨hreaches, hkind⟩ := Agenda.Answers.wholeClass_ok hended hread
    have hreaches' := hreaches.respell r source
    have hkind' : (t.respell r source).kind = .endOfFile :=
      (Agenda.kind_respell r source t).trans hkind
    rw [hstart] at hreaches'
    cases hread' : (s.respell r source).wholeClass with
    | ok u =>
      obtain ⟨hother, hend⟩ := Agenda.Answers.wholeClass_ok hended' hread'
      have heq := hother.unique hreaches'
        (fun _ => Agenda.Finished.not_step ⟨rfl, hend⟩)
        (fun _ => Agenda.Finished.not_step ⟨rfl, hkind'⟩)
      rw [(Agenda.mk.inj heq).2]
    | error stop =>
      have hfails := Agenda.Answers.wholeClass_error hended' hread'
      exact absurd ⟨rfl, hkind'⟩ (hfails.not_finished hreaches')
  | error stop =>
    have hfails := (Agenda.Answers.wholeClass_error hended hread).respell r source
    rw [hstart] at hfails
    cases hread' : (s.respell r source).wholeClass with
    | ok u =>
      obtain ⟨hother, hend⟩ := Agenda.Answers.wholeClass_ok hended' hread'
      exact absurd ⟨rfl, hend⟩ (hfails.not_finished hother)
    | error other =>
      have hother := Agenda.Answers.wholeClass_error hended' hread'
      rw [hother.unique hfails]

/-- Reading respelled tokens gives the respelled directives, and the refusal of the respelled
token. -/
theorem Reader.directives_respell (r : Respelling) (source : String) {reader : Reader}
    (h : reader.last.kind = .endOfFile) :
    (reader.respell r source).directives =
      (reader.directives.1.map (Directive.respell r),
        reader.directives.2.map (Refusal.respell r)) := by
  have hended : ({ input := reader } : Reading).Ended := h
  have hinput : ({ input := reader.respell r source } : Reading) =
      ({ input := reader } : Reading).respell r source := rfl
  rw [Reader.directives, hinput, Reading.wholeClass_respell r source hended, Reader.directives]
  cases ({ input := reader } : Reading).wholeClass with
  | ok t =>
    simp only [Option.map_none, Prod.mk.injEq, and_true]
    exact (List.map_reverse).symm
  | error stop =>
    simp only [Option.map_some, Prod.mk.injEq]
    exact ⟨(List.map_reverse).symm, rfl⟩

/-! ### Where directives come from -/

/-- The subroutines that are called without being spelled in the text. -/
def insertedCallees : List String :=
  ["Memory.alloc", "Math.multiply", "Math.divide", "String.new", "String.appendChar"]

/-- Nothing that the text spells is part of the command. -/
@[simp]
def Command.IsUnspelled : Command → Prop
  | .function _ _ => False
  | .call name _ => name ∈ insertedCallees
  | _ => True

section Sources

variable (T : Token → Prop)

/-- The text of a word among the tokens. -/
def WordOf (text : String) : Prop :=
  ∃ token, T token ∧ token.kind.isWord = true ∧ token.text = text

/-- A name among the tokens. -/
def NameOf (token : Token) : Prop :=
  T token ∧ token.kind = .identifier

/-- The words and tokens of the directive are among the tokens, and nothing of the text is spelled
in any other place. -/
def Directive.ReadFrom : Directive → Prop
  | .openClass name | .nameSubroutine _ name | .openBody _ name => WordOf T name
  | .openSubroutine _ keyword => T keyword
  | .declare _ type name => WordOf T type ∧ NameOf T name
  | .emit command => command.IsUnspelled
  | .require name | .load name | .store name | .receiver name => NameOf T name
  | .build string => T string ∧ string.kind = .string
  | .invoke owner member _ => NameOf T owner ∧ WordOf T member
  | .invokeOwn method _ => NameOf T method

def Callee.ReadFrom : Callee → Prop
  | .own name => NameOf T name
  | .member owner name => NameOf T owner ∧ WordOf T name

def NameUse.ReadFrom : NameUse → Prop
  | .variable_ _ type | .parameter type => WordOf T type
  | .member owner => NameOf T owner
  | _ => True

def Goal.ReadFrom : Goal → Prop
  | .act directive => directive.ReadFrom T
  | .name use => use.ReadFrom T
  | .afterName single | .call single | .assignment single => NameOf T single
  | .arguments callee | .moreArguments callee _ => callee.ReadFrom T
  | .moreVariables _ text => WordOf T text
  | _ => True

variable {T}

namespace Goal

theorem readFrom_next {goal : Goal} {token : Token} (htoken : T token)
    (h : goal.wants token.kind = true) (hgoal : goal.ReadFrom T) :
    ∀ other ∈ goal.next token, other.ReadFrom T := by
  cases goal with
  | name use =>
    have hword : WordOf T token.text := ⟨token, htoken, isWord_of_name h, rfl⟩
    have hname : NameOf T token := ⟨htoken, of_decide_eq_true h⟩
    cases use <;> simp_all [next, NameUse.goals, Goal.ReadFrom, NameUse.ReadFrom,
      Directive.ReadFrom, Callee.ReadFrom]
  | type use =>
    have hword : WordOf T token.text := ⟨token, htoken, isWord_of_type h, rfl⟩
    cases use <;> simp_all [next, TypeUse.goals, Goal.ReadFrom, NameUse.ReadFrom]
  | operations =>
    simp only [next]
    split
    · rename_i mark hkind
      cases mark <;> simp [Symbol.binary?, Goal.ReadFrom, Directive.ReadFrom, insertedCallees]
    · simp
  | arguments callee =>
    cases callee <;> simp_all [next, Callee.directive, Goal.ReadFrom, Directive.ReadFrom,
      Callee.ReadFrom]
  | term =>
    simp only [next]
    split <;> simp_all [Goal.ReadFrom, Directive.ReadFrom, NameOf]
  | afterName single =>
    simp only [next]
    split <;> simp_all [Goal.ReadFrom, NameUse.ReadFrom, Callee.ReadFrom, Directive.ReadFrom]
  | statements | classVariables | subroutines =>
    simp only [next]
    split <;> simp_all [Goal.ReadFrom, NameUse.ReadFrom, Directive.ReadFrom]
  | _ => simp_all [next, Goal.ReadFrom, NameUse.ReadFrom, Directive.ReadFrom]

theorem readFrom_fallback {goal : Goal} (hgoal : goal.ReadFrom T) :
    goal.fallback.All (Directive.ReadFrom T) (Goal.ReadFrom T) := by
  cases goal with
  | moreArguments callee count =>
    cases callee <;> simp_all [fallback, Fallback.All, Callee.directive, Goal.ReadFrom,
      Directive.ReadFrom, Callee.ReadFrom]
  | _ =>
    simp_all [fallback, Fallback.All, guarded, Goal.ReadFrom, Directive.ReadFrom, Callee.ReadFrom]

end Goal

/-- Whatever holds of all tokens holds of those in the directives and of the refused one. -/
theorem Reader.directives_readFrom {reader : Reader} (h : reader.last.kind = .endOfFile)
    (htokens : ∀ token ∈ reader.tokens, T token) (hlast : T reader.last) :
    (∀ directive ∈ reader.directives.1, directive.ReadFrom T) ∧
      ∀ refusal ∈ reader.directives.2, T refusal.token := by
  refine directives_all h ⟨Goal.readFrom_next, Goal.readFrom_fallback⟩ htokens hlast ?_
  simp [Agenda.ofReading, Goal.ReadFrom, NameUse.ReadFrom]

end Sources

end JackCompiler
