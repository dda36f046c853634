import JackCompiler.Proofs.Acceptance

/-!
The places of a text where a name stands for a value. Such a name must be that of a variable of the
subroutine it stands in; the names of classes, subroutines and declarations and the owners of calls
need not be. Carrying out the directives of a tree stops for an undefined name exactly at the first
such place whose name is not declared.
-/

namespace JackCompiler

namespace Tree

/-- A lexeme, and the subroutine that must know it if it is a name in the place of a value. -/
abbrev Place := Lexeme × Option Subroutine

/-- A lexeme that nothing needs to know. -/
def plain (lexeme : Lexeme) : Place :=
  (lexeme, none)

mutual

def Expression.places (owner : Subroutine) : Expression → List Place
  | .mk first rest => first.places owner ++ rest.places owner

def Operations.places (owner : Subroutine) : Operations → List Place
  | .nil => []
  | .cons operator operand rest =>
    plain (.symbol operator.symbol) :: (operand.places owner ++ rest.places owner)

def Term.places (owner : Subroutine) : Term → List Place
  | .integer value => [plain (.integer value)]
  | .string text => [plain (.string text)]
  | .constant word => [plain (.keyword word.keyword)]
  | .variable_ name => [(.identifier name, some owner)]
  | .element array index =>
    (.identifier array, some owner) :: plain (.symbol .leftBracket) ::
      (index.places owner ++ [plain (.symbol .rightBracket)])
  | .call call => call.places owner
  | .group inner =>
    plain (.symbol .leftParen) :: (inner.places owner ++ [plain (.symbol .rightParen)])
  | .unary operator operand => plain (.symbol operator.symbol) :: operand.places owner

def Call.places (owner : Subroutine) : Call → List Place
  | .own name arguments =>
    plain (.identifier name) :: plain (.symbol .leftParen) ::
      (arguments.places owner ++ [plain (.symbol .rightParen)])
  | .member receiver name arguments =>
    plain (.identifier receiver) :: plain (.symbol .dot) :: plain (.identifier name) ::
      plain (.symbol .leftParen) :: (arguments.places owner ++ [plain (.symbol .rightParen)])

def Arguments.places (owner : Subroutine) : Arguments → List Place
  | .nil => []
  | .cons first rest => first.places owner ++ rest.furtherPlaces owner

def Arguments.furtherPlaces (owner : Subroutine) : Arguments → List Place
  | .nil => []
  | .cons first rest =>
    plain (.symbol .comma) :: (first.places owner ++ rest.furtherPlaces owner)

end

mutual

def Statement.places (owner : Subroutine) : Statement → List Place
  | .assign name value =>
    plain (.keyword .let_) :: (.identifier name, some owner) :: plain (.symbol .equal) ::
      (value.places owner ++ [plain (.symbol .semicolon)])
  | .assignElement array index value =>
    plain (.keyword .let_) :: (.identifier array, some owner) :: plain (.symbol .leftBracket) ::
      (index.places owner ++ plain (.symbol .rightBracket) :: plain (.symbol .equal) ::
        (value.places owner ++ [plain (.symbol .semicolon)]))
  | .choice condition body =>
    plain (.keyword .if_) :: plain (.symbol .leftParen) :: (condition.places owner ++
      plain (.symbol .rightParen) :: plain (.symbol .leftBrace) ::
        (body.places owner ++ [plain (.symbol .rightBrace)]))
  | .choiceElse condition body otherwise =>
    plain (.keyword .if_) :: plain (.symbol .leftParen) :: (condition.places owner ++
      plain (.symbol .rightParen) :: plain (.symbol .leftBrace) :: (body.places owner ++
        plain (.symbol .rightBrace) :: plain (.keyword .else_) :: plain (.symbol .leftBrace) ::
          (otherwise.places owner ++ [plain (.symbol .rightBrace)])))
  | .loop condition body =>
    plain (.keyword .while_) :: plain (.symbol .leftParen) :: (condition.places owner ++
      plain (.symbol .rightParen) :: plain (.symbol .leftBrace) ::
        (body.places owner ++ [plain (.symbol .rightBrace)]))
  | .invoke call =>
    plain (.keyword .do_) :: (call.places owner ++ [plain (.symbol .semicolon)])
  | .returnNothing => [plain (.keyword .return_), plain (.symbol .semicolon)]
  | .returnValue value =>
    plain (.keyword .return_) :: (value.places owner ++ [plain (.symbol .semicolon)])

def Statements.places (owner : Subroutine) : Statements → List Place
  | .nil => []
  | .cons first rest => first.places owner ++ rest.places owner

end

def Subroutine.places (subroutine : Subroutine) : List Place :=
  plain (.keyword (subroutineKeyword subroutine.kind)) ::
    plain (returnLexeme subroutine.returnType) :: plain (.identifier subroutine.name) ::
      plain (.symbol .leftParen) :: ((parametersYield subroutine.parameters).map plain ++
        plain (.symbol .rightParen) :: plain (.symbol .leftBrace) ::
          ((localsYield subroutine.locals).map plain ++
            (subroutine.body.places subroutine ++ [plain (.symbol .rightBrace)])))

def Class.places (tree : Class) : List Place :=
  plain (.keyword .class_) :: plain (.identifier tree.name) :: plain (.symbol .leftBrace) ::
    ((tree.classVariables.flatMap ClassVariables.yield).map plain ++
      (tree.subroutines.flatMap Subroutine.places ++ [plain (.symbol .rightBrace)]))

/-! ### The lexemes of the places -/

theorem map_fst_plain (lexemes : List Lexeme) : (lexemes.map plain).map Prod.fst = lexemes := by
  rw [List.map_map]
  exact List.map_id _

mutual

theorem Expression.places_fst (owner : Subroutine) (e : Expression) :
    (e.places owner).map Prod.fst = e.yield := by
  cases e with
  | mk first rest =>
    rw [Expression.places, Expression.yield, List.map_append, first.places_fst, rest.places_fst]
termination_by structural e

theorem Operations.places_fst (owner : Subroutine) (x : Operations) :
    (x.places owner).map Prod.fst = x.yield := by
  cases x with
  | nil => rfl
  | cons operator operand rest =>
    simp only [Operations.places, Operations.yield, List.map_cons, List.map_append,
      operand.places_fst, rest.places_fst, plain]
termination_by structural x

theorem Term.places_fst (owner : Subroutine) (e : Term) :
    (e.places owner).map Prod.fst = e.yield := by
  cases e with
  | element array index =>
    simp only [Term.places, Term.yield, List.map_cons, List.map_append, List.map_nil,
      index.places_fst, plain]
  | call call => exact call.places_fst owner
  | group inner =>
    simp only [Term.places, Term.yield, List.map_cons, List.map_append, List.map_nil,
      inner.places_fst, plain]
  | unary operator operand =>
    simp only [Term.places, Term.yield, List.map_cons, operand.places_fst, plain]
  | _ => rfl
termination_by structural e

theorem Call.places_fst (owner : Subroutine) (call : Call) :
    (call.places owner).map Prod.fst = call.yield := by
  cases call with
  | own name arguments =>
    simp only [Call.places, Call.yield, List.map_cons, List.map_append, List.map_nil,
      arguments.places_fst, plain]
  | member receiver name arguments =>
    simp only [Call.places, Call.yield, List.map_cons, List.map_append, List.map_nil,
      arguments.places_fst, plain]
termination_by structural call

theorem Arguments.places_fst (owner : Subroutine) (x : Arguments) :
    (x.places owner).map Prod.fst = x.yield := by
  cases x with
  | nil => rfl
  | cons first rest =>
    rw [Arguments.places, Arguments.yield, List.map_append, first.places_fst,
      rest.furtherPlaces_fst]
termination_by structural x

theorem Arguments.furtherPlaces_fst (owner : Subroutine) (x : Arguments) :
    (x.furtherPlaces owner).map Prod.fst = x.further := by
  cases x with
  | nil => rfl
  | cons first rest =>
    simp only [Arguments.furtherPlaces, Arguments.further, List.map_cons, List.map_append,
      first.places_fst, rest.furtherPlaces_fst, plain]
termination_by structural x

end

mutual

theorem Statement.places_fst (owner : Subroutine) (x : Statement) :
    (x.places owner).map Prod.fst = x.yield := by
  cases x with
  | assign name value =>
    simp only [Statement.places, Statement.yield, List.map_cons, List.map_append, List.map_nil,
      value.places_fst, plain]
  | assignElement array index value =>
    simp only [Statement.places, Statement.yield, List.map_cons, List.map_append, List.map_nil,
      index.places_fst, value.places_fst, plain]
  | choice condition body =>
    simp only [Statement.places, Statement.yield, List.map_cons, List.map_append, List.map_nil,
      condition.places_fst, body.places_fst, plain]
  | choiceElse condition body otherwise =>
    simp only [Statement.places, Statement.yield, List.map_cons, List.map_append, List.map_nil,
      condition.places_fst, body.places_fst, otherwise.places_fst, plain]
  | loop condition body =>
    simp only [Statement.places, Statement.yield, List.map_cons, List.map_append, List.map_nil,
      condition.places_fst, body.places_fst, plain]
  | invoke call =>
    simp only [Statement.places, Statement.yield, List.map_cons, List.map_append, List.map_nil,
      call.places_fst, plain]
  | returnNothing => rfl
  | returnValue value =>
    simp only [Statement.places, Statement.yield, List.map_cons, List.map_append, List.map_nil,
      value.places_fst, plain]
termination_by structural x

theorem Statements.places_fst (owner : Subroutine) (x : Statements) :
    (x.places owner).map Prod.fst = x.yield := by
  cases x with
  | nil => rfl
  | cons first rest =>
    rw [Statements.places, Statements.yield, List.map_append, first.places_fst, rest.places_fst]
termination_by structural x

end

theorem Subroutine.places_fst (subroutine : Subroutine) :
    subroutine.places.map Prod.fst = subroutine.yield := by
  simp only [Subroutine.places, Subroutine.yield, List.map_cons, List.map_append, List.map_nil,
    map_fst_plain, subroutine.body.places_fst, plain]

/-- The places of a class are its lexemes. -/
theorem Class.places_fst (tree : Class) : tree.places.map Prod.fst = tree.yield := by
  have hsubroutines : (tree.subroutines.flatMap Subroutine.places).map Prod.fst =
      tree.subroutines.flatMap Subroutine.yield := by
    rw [List.map_flatMap]
    congr 1
    funext subroutine
    exact subroutine.places_fst
  simp only [Class.places, Class.yield, List.map_cons, List.map_append, List.map_nil,
    map_fst_plain, hsubroutines, plain]

/-! ### Values -/

/-- Nothing but names has to be known, by nobody but the owner. -/
def Values (owner : Subroutine) (places : List Place) : Prop :=
  ∀ place ∈ places, place.2 = none ∨ ∃ name, place = (.identifier name, some owner)

namespace Values

variable {owner : Subroutine} {places later : List Place}

theorem nil : Values owner [] :=
  fun _ hmem => nomatch hmem

theorem plain (lexeme : Lexeme) (h : Values owner places) :
    Values owner (Tree.plain lexeme :: places) :=
  List.forall_mem_cons.2 ⟨.inl rfl, h⟩

theorem name (text : String) (h : Values owner places) :
    Values owner ((.identifier text, some owner) :: places) :=
  List.forall_mem_cons.2 ⟨.inr ⟨text, rfl⟩, h⟩

theorem append (h : Values owner places) (k : Values owner later) :
    Values owner (places ++ later) :=
  List.forall_mem_append.2 ⟨h, k⟩

theorem map_plain (lexemes : List Lexeme) : Values owner (lexemes.map Tree.plain) := by
  intro place hmem
  obtain ⟨lexeme, -, rfl⟩ := List.mem_map.1 hmem
  exact .inl rfl

end Values

mutual

theorem Expression.values (owner : Subroutine) (e : Expression) :
    Values owner (e.places owner) := by
  cases e with
  | mk first rest => exact (first.values owner).append (rest.values owner)
termination_by structural e

theorem Operations.values (owner : Subroutine) (x : Operations) :
    Values owner (x.places owner) := by
  cases x with
  | nil => exact .nil
  | cons operator operand rest =>
    exact ((operand.values owner).append (rest.values owner)).plain _
termination_by structural x

theorem Term.values (owner : Subroutine) (e : Term) : Values owner (e.places owner) := by
  cases e with
  | variable_ name => exact .name name .nil
  | element array index => exact (((index.values owner).append (.plain _ .nil)).plain _).name array
  | call call => exact call.values owner
  | group inner => exact ((inner.values owner).append (.plain _ .nil)).plain _
  | unary operator operand => exact (operand.values owner).plain _
  | _ => exact .plain _ .nil
termination_by structural e

theorem Call.values (owner : Subroutine) (call : Call) : Values owner (call.places owner) := by
  cases call with
  | own name arguments =>
    exact (((arguments.values owner).append (.plain _ .nil)).plain _).plain _
  | member receiver name arguments =>
    exact (((((arguments.values owner).append (.plain _ .nil)).plain _).plain _).plain _).plain _
termination_by structural call

theorem Arguments.values (owner : Subroutine) (x : Arguments) :
    Values owner (x.places owner) := by
  cases x with
  | nil => exact .nil
  | cons first rest => exact (first.values owner).append (rest.furtherValues owner)
termination_by structural x

theorem Arguments.furtherValues (owner : Subroutine) (x : Arguments) :
    Values owner (x.furtherPlaces owner) := by
  cases x with
  | nil => exact .nil
  | cons first rest => exact ((first.values owner).append (rest.furtherValues owner)).plain _
termination_by structural x

end

mutual

theorem Statement.values (owner : Subroutine) (x : Statement) :
    Values owner (x.places owner) := by
  cases x with
  | assign name value =>
    exact ((((value.values owner).append (.plain _ .nil)).plain _).name name).plain _
  | assignElement array index value =>
    refine ((((index.values owner).append ?_).plain _).name array).plain _
    exact (((value.values owner).append (.plain _ .nil)).plain _).plain _
  | choice condition body =>
    refine (((condition.values owner).append ?_).plain _).plain _
    exact (((body.values owner).append (.plain _ .nil)).plain _).plain _
  | choiceElse condition body otherwise =>
    refine (((condition.values owner).append ?_).plain _).plain _
    refine (((body.values owner).append ?_).plain _).plain _
    exact ((((otherwise.values owner).append (.plain _ .nil)).plain _).plain _).plain _
  | loop condition body =>
    refine (((condition.values owner).append ?_).plain _).plain _
    exact (((body.values owner).append (.plain _ .nil)).plain _).plain _
  | invoke call => exact ((call.values owner).append (.plain _ .nil)).plain _
  | returnNothing => exact .plain _ (.plain _ .nil)
  | returnValue value => exact ((value.values owner).append (.plain _ .nil)).plain _
termination_by structural x

theorem Statements.values (owner : Subroutine) (x : Statements) :
    Values owner (x.places owner) := by
  cases x with
  | nil => exact .nil
  | cons first rest => exact (first.values owner).append (rest.values owner)
termination_by structural x

end

theorem Subroutine.values (subroutine : Subroutine) : Values subroutine subroutine.places := by
  have hbody := (subroutine.body.values subroutine).append (.plain (.symbol .rightBrace) .nil)
  have hlocals := (Values.map_plain (localsYield subroutine.locals)).append hbody
  have hheader := (Values.map_plain (parametersYield subroutine.parameters)).append
    ((hlocals.plain (.symbol .leftBrace)).plain (.symbol .rightParen))
  exact (((hheader.plain _).plain _).plain _).plain _

/-- Nothing but names has to be known in a class, each by one of its subroutines. -/
theorem Class.values (tree : Class) {place : Place} (h : place ∈ tree.places) :
    place.2 = none ∨
      ∃ owner ∈ tree.subroutines, ∃ name, place = (.identifier name, some owner) := by
  simp only [Class.places, List.mem_cons, List.mem_append, List.mem_map, List.mem_flatMap,
    List.not_mem_nil, or_false] at h
  rcases h with rfl | rfl | rfl | ⟨lexeme, -, rfl⟩ | ⟨owner, hmem, hplace⟩ | rfl
  · exact .inl rfl
  · exact .inl rfl
  · exact .inl rfl
  · exact .inl rfl
  · rcases owner.values place hplace with hnone | hname
    · exact .inl hnone
    · exact .inr ⟨owner, hmem, hname⟩
  · exact .inl rfl

end Tree

/-! ### Undefined names -/

/-- A token, and the subroutine that must know it if it is a name in the place of a value. -/
abbrev TokenPlace := Token × Option Tree.Subroutine

/-- The name at the place is known if it has to be. -/
def Tree.Class.Knows (tree : Tree.Class) (place : TokenPlace) : Prop :=
  ∀ owner, place.2 = some owner → ((owner.context tree).lookup? place.1.text).isSome

namespace Generator

/-- Only a name in the place of a value can be undefined. -/
theorem perform_undefined {g g' : Generator} {directive : Directive} {name : Token}
    (h : g.perform directive = .error (.undefinedName name, g')) :
    (directive = .require name ∨ directive = .load name ∨ directive = .store name) ∧
      g.scopes.lookup? name.text = none := by
  have hresolve : ∀ {other : Token} {f : Variable → Generator},
      (g.resolve other).map f = .error (.undefinedName name, g') →
        other = name ∧ g.scopes.lookup? name.text = none := by
    intro other f hmap
    unfold resolve at hmap
    cases hlookup : g.scopes.lookup? other.text with
    | some entry =>
      rw [hlookup] at hmap
      cases hmap
    | none =>
      rw [hlookup] at hmap
      cases hmap
      exact ⟨rfl, hlookup⟩
  cases directive with
  | require other =>
    obtain ⟨rfl, hnone⟩ := hresolve h
    exact ⟨.inl rfl, hnone⟩
  | load other =>
    obtain ⟨rfl, hnone⟩ := hresolve h
    exact ⟨.inr (.inl rfl), hnone⟩
  | store other =>
    obtain ⟨rfl, hnone⟩ := hresolve h
    exact ⟨.inr (.inr rfl), hnone⟩
  | openSubroutine kind keyword =>
    simp only [perform, declare, reject] at h
    split at h
    · split at h <;> cases h
    · cases h
  | declare kind type other =>
    simp only [perform, declare, reject] at h
    split at h <;> cases h
  | build string =>
    simp only [perform, build, reject] at h
    split at h
    · cases h
    · split at h <;> cases h
  | receiver owner =>
    simp only [perform] at h
    split at h <;> cases h
  | invoke owner member arguments =>
    simp only [perform, call, reject] at h
    split at h <;> split at h <;> cases h
  | invokeOwn method arguments =>
    simp only [perform, call, reject] at h
    split at h <;> cases h
  | _ => cases h

/-- Where the declarations of `c` are known, these directives stop for an undefined name at the
first of the places whose name has to be known and is not. If they do not stop at all, every name is
known that has to be, and so are the declarations of `d`. -/
structure Resolves (tree : Tree.Class) (c : Context) (places : List TokenPlace)
    (directives : List Directive) (d : Context) : Prop where
  known : ∀ {g g' : Generator}, g.Knows c → g.run directives = .ok g' →
    g'.Knows d ∧ ∀ place ∈ places, tree.Knows place
  undefined : ∀ {g g' : Generator} {name : Token}, g.Knows c →
    g.run directives = .error (.undefinedName name, g') →
      ∃ before owner after, places = before ++ (name, some owner) :: after ∧
        (owner.context tree).lookup? name.text = none ∧ ∀ place ∈ before, tree.Knows place

namespace Resolves

variable {tree : Tree.Class} {c d e : Context} {x y : List TokenPlace}
  {m n : List Directive}

theorem refl (c : Context) : Resolves tree c [] [] c := by
  refine ⟨fun {g g'} hknows hrun => ?_, fun {g g' name} _ hrun => nomatch hrun⟩
  cases hrun
  exact ⟨hknows, fun place hmem => nomatch hmem⟩

theorem trans (h : Resolves tree c x m d) (k : Resolves tree d y n e) :
    Resolves tree c (x ++ y) (m ++ n) e := by
  refine ⟨fun {g g'} hknows hrun => ?_, fun {g g' name} hknows hrun => ?_⟩
  · rw [run_append] at hrun
    obtain ⟨between, hfirst, hsecond⟩ := bind_ok hrun
    obtain ⟨hbetween, hx⟩ := h.known hknows hfirst
    obtain ⟨hafter, hy⟩ := k.known hbetween hsecond
    exact ⟨hafter, List.forall_mem_append.2 ⟨hx, hy⟩⟩
  · rw [run_append] at hrun
    cases hfirst : g.run m with
    | error failure =>
      rw [hfirst] at hrun
      cases hrun
      obtain ⟨before, owner, after, rfl, hnone, hbefore⟩ := h.undefined hknows hfirst
      exact ⟨before, owner, after ++ y, by simp, hnone, hbefore⟩
    | ok between =>
      rw [hfirst] at hrun
      obtain ⟨hbetween, hx⟩ := h.known hknows hfirst
      obtain ⟨before, owner, after, rfl, hnone, hbefore⟩ := k.undefined hbetween hrun
      exact ⟨x ++ before, owner, after, by simp, hnone, List.forall_mem_append.2 ⟨hx, hbefore⟩⟩

/-- A token that nothing needs to know. -/
theorem skip (token : Token) (h : Resolves tree c x m d) :
    Resolves tree c ((token, none) :: x) m d := by
  have htoken : tree.Knows (token, none) := fun owner heq => nomatch heq
  refine ⟨fun {g g'} hknows hrun => ?_, fun {g g' name} hknows hrun => ?_⟩
  · obtain ⟨hafter, hx⟩ := h.known hknows hrun
    exact ⟨hafter, List.forall_mem_cons.2 ⟨htoken, hx⟩⟩
  · obtain ⟨before, owner, after, rfl, hnone, hbefore⟩ := h.undefined hknows hrun
    exact ⟨(token, none) :: before, owner, after, rfl, hnone,
      List.forall_mem_cons.2 ⟨htoken, hbefore⟩⟩

/-- A directive that does not need the value of a name. -/
theorem quiet {directive : Directive} {p : Prop} {code : List Command}
    (h : Generates c [directive] p code d)
    (hquiet : ∀ name, directive ≠ .require name ∧ directive ≠ .load name ∧
      directive ≠ .store name) : Resolves tree c [] [directive] d := by
  refine ⟨fun {g g'} hknows hrun => ?_, fun {g g' name} hknows hrun => ?_⟩
  · exact ⟨(h.sound hknows hrun).2.1, fun place hmem => nomatch hmem⟩
  · rw [run_singleton] at hrun
    obtain ⟨hrequire, hload, hstore⟩ := hquiet name
    rcases (perform_undefined hrun).1 with heq | heq | heq
    · exact absurd heq hrequire
    · exact absurd heq hload
    · exact absurd heq hstore

theorem emit (command : Command) (h : Resolves tree c x m d) :
    Resolves tree c x (.emit command :: m) d :=
  (quiet (Generates.emit c command) fun _ => ⟨nofun, nofun, nofun⟩).trans h

section Names

variable {owner : Tree.Subroutine} {name : Token} {directive : Directive} {code : List Command}

/-- A directive that needs the value of the name. -/
theorem ofName
    (h : Generates (owner.context tree) [directive]
      ((owner.context tree).Allows (.value name.text)) code (owner.context tree))
    (hname : directive = .require name ∨ directive = .load name ∨ directive = .store name) :
    Resolves tree (owner.context tree) [(name, some owner)] [directive] (owner.context tree) := by
  refine ⟨fun {g g'} hknows hrun => ?_, fun {g g' other} hknows hrun => ?_⟩
  · obtain ⟨hallowed, hafter, -⟩ := h.sound hknows hrun
    refine ⟨hafter, List.forall_mem_singleton.2 fun other heq => ?_⟩
    cases heq
    exact hallowed
  · rw [run_singleton] at hrun
    obtain ⟨hother, hnone⟩ := perform_undefined hrun
    obtain rfl : name = other := by
      rcases hname with rfl | rfl | rfl <;> simpa using hother
    rw [hknows.scopes.lookup?] at hnone
    exact ⟨[], owner, [], rfl, hnone, fun place hmem => nomatch hmem⟩

/-- A name whose value was needed before is known. -/
theorem again (k : Resolves tree (owner.context tree) x m (owner.context tree))
    (hmem : (name, some owner) ∈ x)
    (h : Generates (owner.context tree) [directive]
      ((owner.context tree).Allows (.value name.text)) code (owner.context tree)) :
    Resolves tree (owner.context tree) x (m ++ [directive]) (owner.context tree) := by
  refine ⟨fun {g g'} hknows hrun => ?_, fun {g g' other} hknows hrun => ?_⟩
  · rw [run_append] at hrun
    obtain ⟨between, hfirst, hsecond⟩ := bind_ok hrun
    obtain ⟨hbetween, hx⟩ := k.known hknows hfirst
    exact ⟨(h.sound hbetween hsecond).2.1, hx⟩
  · rw [run_append] at hrun
    cases hfirst : g.run m with
    | error failure =>
      rw [hfirst] at hrun
      cases hrun
      exact k.undefined hknows hfirst
    | ok between =>
      rw [hfirst] at hrun
      obtain ⟨hbetween, hx⟩ := k.known hknows hfirst
      obtain ⟨last, hlast⟩ := h.complete hbetween (hx _ hmem owner rfl)
      cases hlast.symm.trans hrun

end Names

end Resolves

end Generator

end JackCompiler
