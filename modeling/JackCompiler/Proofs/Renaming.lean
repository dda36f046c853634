import JackCompiler.Proofs.RenamedTexts

/-!
Compiling a text with other identifiers. Names are only ever compared with each other, and they get
into the code in two places: in the line that starts a function and in a call that the text spells
out. Two generators that differ by a renaming take the same steps and stay so.
-/

namespace JackCompiler

/-- A line of code, and whether it is a call that the text spells out. -/
structure Line where
  command : Command
  isSpelled : Bool

/-- The names of functions, and of what is called where the text says so, with both halves
renamed. -/
def Line.rename (f : String → String) : Line → Line
  | ⟨.function name locals, isSpelled⟩ => ⟨.function (renameQualified f name) locals, isSpelled⟩
  | ⟨.call name arguments, true⟩ => ⟨.call (renameQualified f name) arguments, true⟩
  | line => line

/-- The line has nothing of the text in it, or it starts a function, or it is a call and marked as
one that the text spells out. -/
def Line.IsMarked (line : Line) : Prop :=
  if line.isSpelled then ∃ name arguments, line.command = .call name arguments
  else line.command.IsUnspelled ∨ ∃ name locals, line.command = .function name locals

theorem Line.rename_id (line : Line) : line.rename id = line := by
  unfold rename
  split
  · rw [renameQualified_id]
  · rw [renameQualified_id]
  · rfl

def Directive.isCall : Directive → Bool
  | invoke _ _ _ | invokeOwn _ _ => true
  | _ => false

namespace Generator

/-- The lines that a directive adds, which takes `g` to `next`. -/
def newLines (g next : Generator) (directive : Directive) : List Line :=
  (next.commands.drop g.commands.length).map (⟨·, directive.isCall⟩)

/-- The lines that directives add, up to the first that fails. -/
def lines (g : Generator) : List Directive → List Line
  | [] => []
  | directive :: rest =>
    match g.perform directive with
    | .ok next => g.newLines next directive ++ next.lines rest
    | .error _ => []

end Generator

/-- The lines of code of a text, and which of them are calls that it spells out. -/
def linesOf (source : String) : List Line :=
  match Reader.ofSource source with
  | .ok reader => ({} : Generator).lines reader.directives.1
  | .error _ => []

/-! ### Names with a dot -/

def Dotless (name : String) : Prop :=
  '.' ∉ name.toList

theorem renameQualified_join (f : String → String) {owner : String} (h : Dotless owner)
    (member : String) :
    renameQualified f (owner ++ "." ++ member) = f owner ++ "." ++ f member := by
  have howner : ∀ c ∈ owner.toList, (c != '.') = true := by
    intro c hc
    apply bne_iff_ne.2
    rintro rfl
    exact h hc
  have hlist : (owner ++ "." ++ member).toList = owner.toList ++ '.' :: member.toList := by simp
  have hdrop : (owner ++ "." ++ member).toList.dropWhile (· != '.') = '.' :: member.toList := by
    rw [hlist, List.dropWhile_append_of_pos howner]
    rfl
  have htake : (owner ++ "." ++ member).toList.takeWhile (· != '.') = owner.toList := by
    rw [hlist, List.takeWhile_append_of_pos howner]
    simp
  rw [renameQualified, hdrop, htake]
  simp

theorem dotless_of_words {name : String} (h : ∀ c ∈ name.toList, isWordCharacter c = true) :
    Dotless name := by
  intro hdot
  cases h '.' hdot

/-! ### Code that is issued -/

namespace Generator

/-- Issues one command after the other. -/
def issueAll (g : Generator) (code : List Command) : Generator :=
  code.foldl issue g

section Issue

variable (g : Generator) (code : List Command)

@[simp] theorem className_issueAll : (g.issueAll code).className = g.className := by
  induction code generalizing g with
  | nil => rfl
  | cons command rest ih => exact ih (g.issue command)

@[simp] theorem scopes_issueAll : (g.issueAll code).scopes = g.scopes := by
  induction code generalizing g with
  | nil => rfl
  | cons command rest ih => exact ih (g.issue command)

@[simp] theorem commands_issueAll : (g.issueAll code).commands = g.commands ++ code := by
  induction code generalizing g with
  | nil => exact (List.append_nil _).symm
  | cons command rest ih =>
    rw [issueAll, List.foldl_cons, ← issueAll, ih, commands_issue, List.append_assoc]
    rfl

theorem issueAll_append (later : List Command) :
    g.issueAll (code ++ later) = (g.issueAll code).issueAll later :=
  List.foldl_append

theorem newLines_of_commands {next : Generator} (h : next.commands = g.commands ++ code)
    (directive : Directive) :
    g.newLines next directive = code.map (⟨·, directive.isCall⟩) := by
  rw [newLines, h, List.drop_left]

end Issue

theorem foldl_issueAll {α : Type} (code : α → List Command) (items : List α) (g : Generator) :
    items.foldl (fun g item => g.issueAll (code item)) g = g.issueAll (items.flatMap code) := by
  induction items generalizing g with
  | nil => rfl
  | cons item rest ih => rw [List.foldl_cons, ih, List.flatMap_cons, issueAll_append]

theorem openBody_eq (g : Generator) (kind : SubroutineKind) (name : String) :
    g.openBody kind name =
      g.issueAll (.function (g.qualify name) (g.scopes.count .local_) ::
        Tree.prologue (g.scopes.count .field) kind) := by
  cases kind <;> rfl

theorem prologue_isUnspelled (fields : Nat) (kind : SubroutineKind) :
    ∀ command ∈ Tree.prologue fields kind, command.IsUnspelled := by
  cases kind <;> simp [Tree.prologue, insertedCallees]

theorem stringCode_isUnspelled (text : String) :
    ∀ command ∈ Tree.stringCode text, command.IsUnspelled := by
  intro command hmem
  simp only [Tree.stringCode, List.mem_cons, List.mem_flatMap, List.not_mem_nil, or_false] at hmem
  rcases hmem with rfl | rfl | ⟨character, -, rfl | rfl⟩ <;> simp [insertedCallees]

/-- Whether a string can be built depends on its text alone, and so does the code. -/
theorem build_cases (text : String) :
    (∀ (g : Generator) (string : Token), string.text = text →
      g.build string = .ok (g.issueAll (Tree.stringCode text))) ∨
    ∃ fault, (∀ f, SyntaxFault.respell f fault = fault) ∧
      ∀ (g : Generator) (string : Token), string.text = text →
        g.build string = g.reject fault string := by
  cases hfind : text.toList.find? (0xFFFF < ·.toNat) with
  | some character =>
    refine .inr ⟨.unstorableCharacter character, fun f => rfl, ?_⟩
    rintro g string rfl
    simp only [build, hfind]
  | none =>
    by_cases hlength : text.toList.length ≤ maxInteger
    · left
      rintro g string rfl
      simp only [build, hfind, if_pos hlength]
      have hfold := foldl_issueAll
        (fun c : Char => [.push .constant c.toNat, .call "String.appendChar" 2])
        string.text.toList
        (g.issueAll [.push .constant string.text.toList.length, .call "String.new" 1])
      rw [← issueAll_append, String.length_toList] at hfold
      exact congrArg Except.ok hfold
    · refine .inr ⟨.stringTooLong, fun f => rfl, ?_⟩
      rintro g string rfl
      simp only [build, hfind, if_neg hlength]

end Generator

/-! ### Renamed declarations -/

def Variable.rename (f : String → String) (entry : Variable) : Variable :=
  { entry with type := f entry.type }

/-- The same declarations with names and types renamed. No type contains a dot. -/
structure RenamedScope (f : String → String) (scope other : Std.TreeMap String Variable) :
    Prop where
  getElem? : ∀ name : String, other[f name]? = scope[name]?.map (Variable.rename f)
  dotless : ∀ (name : String) (entry : Variable), scope[name]? = some entry → Dotless entry.type

namespace RenamedScope

variable {f : String → String} {scope other : Std.TreeMap String Variable}

theorem empty (f : String → String) : RenamedScope f {} {} := by
  refine ⟨fun name => ?_, fun name entry h => ?_⟩
  · rw [Std.TreeMap.getElem?_emptyc, Std.TreeMap.getElem?_emptyc, Option.map_none]
  · rw [Std.TreeMap.getElem?_emptyc] at h
    cases h

/-- Because different names stay different, a declaration replaces the same one. -/
theorem insert (hf : Function.Injective f) (h : RenamedScope f scope other) (key : String)
    {entry : Variable} (htype : Dotless entry.type) :
    RenamedScope f (scope.insert key entry) (other.insert (f key) (entry.rename f)) := by
  refine ⟨fun name => ?_, fun name found hfound => ?_⟩
  · rw [Std.TreeMap.getElem?_insert, Std.TreeMap.getElem?_insert, h.getElem?]
    by_cases hname : key = name
    · rw [if_pos (Std.LawfulEqCmp.compare_eq_iff_eq.2 hname),
        if_pos (Std.LawfulEqCmp.compare_eq_iff_eq.2 (congrArg f hname)), Option.map_some]
    · rw [if_neg fun heq => hname (Std.LawfulEqCmp.compare_eq_iff_eq.1 heq),
        if_neg fun heq => hname (hf (Std.LawfulEqCmp.compare_eq_iff_eq.1 heq))]
  · rw [Std.TreeMap.getElem?_insert] at hfound
    split at hfound
    · cases hfound
      exact htype
    · exact h.dotless name found hfound

end RenamedScope

structure Scopes.Renamed (f : String → String) (scopes other : Scopes) : Prop where
  ofClass : RenamedScope f scopes.ofClass other.ofClass
  ofSubroutine : RenamedScope f scopes.ofSubroutine other.ofSubroutine
  counts : other.counts = scopes.counts

namespace Scopes.Renamed

variable {f : String → String} {scopes other : Scopes}

theorem startSubroutine (h : scopes.Renamed f other) :
    scopes.startSubroutine.Renamed f other.startSubroutine := by
  refine ⟨h.ofClass, .empty f, ?_⟩
  rw [Scopes.startSubroutine, Scopes.startSubroutine, h.counts]

theorem lookup? (h : scopes.Renamed f other) (name : String) :
    other.lookup? (f name) = (scopes.lookup? name).map (Variable.rename f) := by
  rw [Scopes.lookup?, Scopes.lookup?, h.ofClass.getElem?, h.ofSubroutine.getElem?]
  cases scopes.ofSubroutine[name]? <;> rfl

theorem dotless (h : scopes.Renamed f other) {name : String} {entry : Variable}
    (hentry : scopes.lookup? name = some entry) : Dotless entry.type := by
  rw [Scopes.lookup?] at hentry
  cases hown : scopes.ofSubroutine[name]? with
  | some found =>
    rw [hown] at hentry
    cases hentry
    exact h.ofSubroutine.dotless name _ hown
  | none =>
    rw [hown] at hentry
    exact h.ofClass.dotless name entry hentry

theorem define? (hf : Function.Injective f) (h : scopes.Renamed f other) (name : String)
    {type : String} (htype : Dotless type) (kind : VariableKind) :
    Option.Rel (fun x y => x.2.Renamed f y.2) (scopes.define? name type kind)
      (other.define? (f name) (f type) kind) := by
  unfold Scopes.define? Scopes.count
  rw [h.counts]
  by_cases hcount : scopes.counts.get kind < maxInteger
  · simp only [if_pos hcount]
    refine .some ?_
    unfold Scopes.insert
    by_cases hclass : kind.inClass = true
    · simp only [if_pos hclass]
      exact ⟨h.ofClass.insert hf name htype, h.ofSubroutine, rfl⟩
    · simp only [if_neg hclass]
      exact ⟨h.ofClass, h.ofSubroutine.insert hf name htype, rfl⟩
  · simp only [if_neg hcount]
    exact .none

end Scopes.Renamed

/-! ### Directives with other names -/

namespace Generator

/-- A generator of the same class under another name, with the same declarations renamed. -/
structure Renamed (f : String → String) (g other : Generator) : Prop where
  className : other.className = f g.className
  dotless : Dotless g.className
  scopes : g.scopes.Renamed f other.scopes

/-- Two outcomes of a directive: both generators go on, with the same lines renamed, or both fail in
the same way. -/
inductive Corresponds (r : Respelling) (directive : Directive) (g other : Generator) :
    Outcome Generator → Outcome Generator → Prop where
  | ok {next nextOther : Generator} {code codeOther : List Command}
      (hnext : next.Renamed r.word nextOther) (hcode : next.commands = g.commands ++ code)
      (hother : nextOther.commands = other.commands ++ codeOther)
      (hlines : codeOther.map (Line.mk · directive.isCall) =
        (code.map (Line.mk · directive.isCall)).map (Line.rename r.word))
      (hmarked : ∀ command ∈ code, Line.IsMarked ⟨command, directive.isCall⟩) :
      Corresponds r directive g other (.ok next) (.ok nextOther)
  | error {failure : Failure} {stopped stoppedOther : Generator}
      (hstopped : stopped.commands = g.commands) (hother : stoppedOther.commands = other.commands) :
      Corresponds r directive g other (.error (failure, stopped))
        (.error (failure.respell r, stoppedOther))

section Corresponds

variable {r : Respelling} {directive : Directive} {g other : Generator}

theorem Renamed.issueAll (h : g.Renamed r.word other) (code codeOther : List Command) :
    (g.issueAll code).Renamed r.word (other.issueAll codeOther) := by
  refine ⟨?_, ?_, ?_⟩
  · rw [className_issueAll, className_issueAll, h.className]
  · rw [className_issueAll]
    exact h.dotless
  · rw [scopes_issueAll, scopes_issueAll]
    exact h.scopes

theorem Renamed.log (h : g.Renamed r.word other) (level levelOther : Level)
    (target targetOther message messageOther : String) :
    (g.log level target message).Renamed r.word
      (other.log levelOther targetOther messageOther) :=
  ⟨h.className, h.dotless, h.scopes⟩

namespace Corresponds

/-- Only what was issued before counts of the generators that start. -/
theorem of_commands {started startedOther : Generator} {x y : Outcome Generator}
    (h : Corresponds r directive started startedOther x y)
    (hcommands : started.commands = g.commands)
    (hother : startedOther.commands = other.commands) : Corresponds r directive g other x y := by
  cases h with
  | ok hnext hcode hcodeOther hlines hmarked =>
    exact .ok hnext (hcommands ▸ hcode) (hother ▸ hcodeOther) hlines hmarked
  | error hstopped hstoppedOther =>
    exact .error (hstopped.trans hcommands) (hstoppedOther.trans hother)

theorem quiet {next nextOther : Generator} (hnext : next.Renamed r.word nextOther)
    (hcode : next.commands = g.commands) (hother : nextOther.commands = other.commands) :
    Corresponds r directive g other (.ok next) (.ok nextOther) :=
  .ok hnext (hcode.trans (List.append_nil _).symm) (hother.trans (List.append_nil _).symm) rfl
    (List.forall_mem_nil _)

/-- The same code with nothing of the text in it. -/
theorem unspelled (h : g.Renamed r.word other) (code : List Command)
    (hdirective : directive.isCall = false) (hcode : ∀ command ∈ code, command.IsUnspelled) :
    Corresponds r directive g other (.ok (g.issueAll code)) (.ok (other.issueAll code)) := by
  refine .ok (h.issueAll code code) (g.commands_issueAll code) (other.commands_issueAll code) ?_ ?_
  · rw [hdirective, List.map_map]
    apply List.map_congr_left
    intro command hmem
    have hunspelled := hcode command hmem
    cases command with
    | function name locals => exact hunspelled.elim
    | _ => rfl
  · intro command hmem
    rw [hdirective]
    exact .inl (hcode command hmem)

theorem reject (fault : SyntaxFault) (token : Token) :
    Corresponds r directive g other (g.reject fault token)
      (other.reject (fault.respell r.word) (token.respell r)) :=
  .error rfl rfl

theorem call (h : g.Renamed r.word other) (hdirective : directive.isCall = true)
    {callee calleeOther : String} (hcallee : renameQualified r.word callee = calleeOther)
    (arguments : Nat) (token : Token) :
    Corresponds r directive g other (g.call callee arguments token)
      (other.call calleeOther arguments (token.respell r)) := by
  subst hcallee
  unfold Generator.call
  split
  · refine .ok (h.issueAll [.call callee arguments] [_]) (g.commands_issue _)
      (other.commands_issue _) ?_ ?_
    · rw [hdirective]
      rfl
    · intro command hmem
      rw [hdirective, List.mem_singleton.1 hmem]
      exact ⟨callee, arguments, rfl⟩
  · exact .reject (.callTooWide callee) token

theorem declare (hf : Function.Injective r.word) (h : g.Renamed r.word other)
    (kind : VariableKind) {type : String} (htype : Dotless type) (name : String) (token : Token) :
    Corresponds r directive g other (g.declare kind type name token)
      (other.declare kind (r.word type) (r.word name) (token.respell r)) := by
  have hdefine := h.scopes.define? hf name htype kind
  unfold Generator.declare
  cases hleft : g.scopes.define? name type kind with
  | none =>
    rw [hleft] at hdefine
    cases hright : other.scopes.define? (r.word name) (r.word type) kind with
    | none => exact .reject (.tooManyDeclarations kind) token
    | some found =>
      rw [hright] at hdefine
      cases hdefine
  | some found =>
    rw [hleft] at hdefine
    cases hright : other.scopes.define? (r.word name) (r.word type) kind with
    | none =>
      rw [hright] at hdefine
      cases hdefine
    | some foundOther =>
      rw [hright] at hdefine
      cases hdefine with
      | some hscopes =>
        exact .quiet ⟨h.className, h.dotless, hscopes⟩ (commands_log _ _ _ _) (commands_log _ _ _ _)

/-- A name that is looked up. -/
theorem resolve (h : g.Renamed r.word other) (hdirective : directive.isCall = false) {name : Token}
    (hname : name.kind = .identifier) (code : Variable → List Command)
    (hcode : ∀ entry, ∀ command ∈ code entry, command.IsUnspelled)
    (hrename : ∀ entry, code (entry.rename r.word) = code entry) :
    Corresponds r directive g other ((g.resolve name).map fun entry => g.issueAll (code entry))
      ((other.resolve (name.respell r)).map fun entry => other.issueAll (code entry)) := by
  have htext : (name.respell r).text = r.word name.text := name.text_respell r (by rw [hname]; rfl)
  have hlookup := h.scopes.lookup? name.text
  unfold Generator.resolve
  rw [htext, hlookup]
  cases g.scopes.lookup? name.text with
  | none => exact .error rfl rfl
  | some entry =>
    have hsame := unspelled h (code entry) hdirective (hcode entry)
    simp only [Option.map_some, Except.map]
    rwa [hrename]

theorem openBody (h : g.Renamed r.word other) (kind : SubroutineKind) (name : String) :
    Corresponds r (.openBody kind name) g other (.ok (g.openBody kind name))
      (.ok (other.openBody kind (r.word name))) := by
  have hcounts : ∀ counted, other.scopes.count counted = g.scopes.count counted := by
    intro counted
    rw [Scopes.count, Scopes.count, h.scopes.counts]
  have hname : renameQualified r.word (g.qualify name) = other.qualify (r.word name) := by
    rw [qualify, qualify, renameQualified_join r.word h.dotless, h.className]
  rw [openBody_eq, openBody_eq, hcounts, hcounts, ← hname]
  refine .ok (h.issueAll _ _) (g.commands_issueAll _) (other.commands_issueAll _) ?_ ?_
  · cases kind <;> rfl
  · refine List.forall_mem_cons.2 ⟨.inr ⟨_, _, rfl⟩, fun command hmem => .inl ?_⟩
    exact prologue_isUnspelled _ kind command hmem

end Corresponds

/-- A directive and the same directive with other names take corresponding steps. -/
theorem perform_renamed {T : Token → Prop} (hf : Function.Injective r.word)
    (hthis : r.word "this" = "this") (hwords : ∀ text, WordOf T text → Dotless text)
    (hread : directive.ReadFrom T) (h : g.Renamed r.word other) :
    Corresponds r directive g other (g.perform directive)
      (other.perform (directive.respell r)) := by
  have hstarted : ({ g with scopes := g.scopes.startSubroutine } : Generator).Renamed r.word
      { other with scopes := other.scopes.startSubroutine } :=
    ⟨h.className, h.dotless, h.scopes.startSubroutine⟩
  have hword : ∀ {name : Token}, NameOf T name → (name.respell r).text = r.word name.text :=
    fun {name} hname => name.text_respell r (by rw [hname.2]; rfl)
  cases directive with
  | openClass name =>
    have hopened : ({ g with className := name } : Generator).Renamed r.word
        { other with className := r.word name } := ⟨rfl, hwords name hread, h.scopes⟩
    exact .quiet (hopened.log _ _ _ _ _ _) (commands_log _ _ _ _) (commands_log _ _ _ _)
  | openSubroutine kind keyword =>
    simp only [Directive.respell, perform]
    split
    · have hdeclare : Corresponds r (.openSubroutine kind keyword) _ _ _ _ :=
        .declare hf hstarted .argument h.dotless "this" keyword
      rw [hthis, ← h.className] at hdeclare
      exact hdeclare.of_commands rfl rfl
    · exact .quiet hstarted rfl rfl
  | nameSubroutine kind name =>
    exact .quiet (h.log _ _ _ _ _ _) (commands_log _ _ _ _) (commands_log _ _ _ _)
  | openBody kind name => exact .openBody h kind name
  | declare kind type name =>
    rw [Directive.respell, perform, perform, hword hread.2]
    exact .declare hf h kind (hwords type hread.1) name.text name
  | emit command =>
    refine .unspelled h [command] rfl fun other hmem => ?_
    rw [List.mem_singleton.1 hmem]
    exact hread
  | require name => exact .resolve h rfl hread.2 (fun _ => []) (by simp) fun _ => rfl
  | load name =>
    exact .resolve h rfl hread.2 (fun entry => [.push entry.kind.segment entry.index]) (by simp)
      fun _ => rfl
  | store name =>
    exact .resolve h rfl hread.2 (fun entry => [.pop entry.kind.segment entry.index]) (by simp)
      fun _ => rfl
  | build string =>
    have htext : (string.respell r).text = string.text :=
      if_neg (by rw [hread.2]; exact Bool.false_ne_true)
    rw [Directive.respell, perform, perform]
    rcases build_cases string.text with hbuilds | ⟨fault, hfault, hrejects⟩
    · rw [hbuilds g string rfl, hbuilds other _ htext]
      exact .unspelled h _ rfl (stringCode_isUnspelled string.text)
    · rw [hrejects g string rfl, hrejects other _ htext]
      have hreject : Corresponds r (.build string) g other _ _ := .reject fault string
      rwa [hfault] at hreject
  | receiver owner =>
    simp only [Directive.respell, perform, hword hread, h.scopes.lookup? owner.text]
    cases g.scopes.lookup? owner.text with
    | none => exact .quiet h rfl rfl
    | some entry =>
      exact .unspelled h [.push entry.kind.segment entry.index] rfl (by simp)
  | invoke owner member arguments =>
    simp only [Directive.respell, perform, hword hread.1, h.scopes.lookup? owner.text]
    cases hentry : g.scopes.lookup? owner.text with
    | none =>
      have howner := hwords owner.text ⟨owner, hread.1.1, by rw [hread.1.2]; rfl, rfl⟩
      exact .call h rfl (renameQualified_join r.word howner member) arguments owner
    | some entry =>
      have htype := h.scopes.dotless hentry
      exact .call h rfl (renameQualified_join r.word htype member) (arguments + 1) owner
  | invokeOwn method arguments =>
    rw [Directive.respell, perform, perform, hword hread, qualify, qualify, h.className]
    exact .call h rfl (renameQualified_join r.word h.dotless method.text) (arguments + 1) method

/-! ### Runs -/

/-- Where a run ends. -/
def reached : Outcome Generator → Generator
  | .ok g => g
  | .error (_, g) => g

def failure? : Outcome Generator → Option Failure
  | .ok _ => none
  | .error (failure, _) => some failure

/-- A run of directives and the run with other names: the lines are the same with names changed,
they are what is issued, and the runs fail alike. -/
structure RunsAlike (r : Respelling) (directives : List Directive) (g other : Generator) :
    Prop where
  lines : other.lines (directives.map (Directive.respell r)) =
    (g.lines directives).map (Line.rename r.word)
  marked : ∀ line ∈ g.lines directives, line.IsMarked
  commands : (reached (g.run directives)).commands =
    g.commands ++ (g.lines directives).map Line.command
  commandsOther : (reached (other.run (directives.map (Directive.respell r)))).commands =
    other.commands ++ (other.lines (directives.map (Directive.respell r))).map Line.command
  failure : failure? (other.run (directives.map (Directive.respell r))) =
    (failure? (g.run directives)).map (Failure.respell r)

theorem isCall_respell (directive : Directive) :
    (directive.respell r).isCall = directive.isCall := by
  cases directive <;> rfl

theorem command_mark (code : List Command) (isSpelled : Bool) :
    (code.map (Line.mk · isSpelled)).map Line.command = code := by
  rw [List.map_map]
  exact List.map_id code

/-- A directive that fails ends both runs. -/
theorem RunsAlike.stop {failure : Failure} {stopped stoppedOther : Generator}
    (hleft : g.perform directive = .error (failure, stopped))
    (hright : other.perform (directive.respell r) = .error (failure.respell r, stoppedOther))
    (hstopped : stopped.commands = g.commands)
    (hstoppedOther : stoppedOther.commands = other.commands)
    (rest : List Directive) : RunsAlike r (directive :: rest) g other := by
  constructor
  · rw [List.map_cons, Generator.lines, hright, Generator.lines, hleft]
    rfl
  · rw [Generator.lines, hleft]
    exact List.forall_mem_nil _
  · rw [run_cons, Generator.lines, hleft]
    exact hstopped.trans (List.append_nil _).symm
  · rw [List.map_cons, run_cons, Generator.lines, hright]
    exact hstoppedOther.trans (List.append_nil _).symm
  · rw [List.map_cons, run_cons, run_cons, hleft, hright]
    rfl

/-- A directive that is carried out puts its lines in front of those of the later ones. -/
theorem RunsAlike.cons {next nextOther : Generator} {code codeOther : List Command}
    {rest : List Directive} (hleft : g.perform directive = .ok next)
    (hright : other.perform (directive.respell r) = .ok nextOther)
    (hcode : next.commands = g.commands ++ code)
    (hcodeOther : nextOther.commands = other.commands ++ codeOther)
    (hlines : codeOther.map (Line.mk · directive.isCall) =
      (code.map (Line.mk · directive.isCall)).map (Line.rename r.word))
    (hmarked : ∀ command ∈ code, Line.IsMarked ⟨command, directive.isCall⟩)
    (hlater : RunsAlike r rest next nextOther) : RunsAlike r (directive :: rest) g other := by
  have hnew := newLines_of_commands g code hcode directive
  have hnewOther := newLines_of_commands other codeOther hcodeOther (directive.respell r)
  rw [isCall_respell] at hnewOther
  constructor
  · rw [List.map_cons, Generator.lines, hright, Generator.lines, hleft]
    dsimp only
    rw [hnew, hnewOther, hlines, hlater.lines, List.map_append]
  · rw [Generator.lines, hleft]
    dsimp only
    rw [hnew]
    refine List.forall_mem_append.2 ⟨fun line hmem => ?_, hlater.marked⟩
    obtain ⟨command, hcommand, rfl⟩ := List.mem_map.1 hmem
    exact hmarked command hcommand
  · rw [run_cons, Generator.lines, hleft]
    dsimp only
    rw [hnew, List.map_append, command_mark, ← List.append_assoc, ← hcode]
    exact hlater.commands
  · rw [List.map_cons, run_cons, Generator.lines, hright]
    dsimp only
    rw [hnewOther, List.map_append, command_mark, ← List.append_assoc, ← hcodeOther]
    exact hlater.commandsOther
  · rw [List.map_cons, run_cons, run_cons, hleft, hright]
    exact hlater.failure

theorem run_renamed {T : Token → Prop} (hf : Function.Injective r.word)
    (hthis : r.word "this" = "this") (hwords : ∀ text, WordOf T text → Dotless text)
    {directives : List Directive} (hread : ∀ directive ∈ directives, directive.ReadFrom T)
    (h : g.Renamed r.word other) : RunsAlike r directives g other := by
  induction directives generalizing g other with
  | nil =>
    have hcode := fun g : Generator => (List.append_nil g.commands).symm
    exact ⟨rfl, List.forall_mem_nil _, hcode g, hcode other, rfl⟩
  | cons directive rest ih =>
    obtain ⟨hfirst, hrest⟩ := List.forall_mem_cons.1 hread
    have hstep := perform_renamed hf hthis hwords hfirst h
    generalize hleft : g.perform directive = x at hstep
    generalize hright : other.perform (directive.respell r) = y at hstep
    cases hstep with
    | ok hnext hcode hcodeOther hlines hmarked =>
      exact .cons hleft hright hcode hcodeOther hlines hmarked (ih hrest hnext)
    | error hstopped hstoppedOther =>
      exact .stop hleft hright hstopped hstoppedOther rest

end Corresponds

end Generator

/-! ### Texts with other identifiers -/

namespace Reader

open Generator

theorem work_failure (reader : Reader) :
    reader.work.2 = (failure? (({} : Generator).run reader.directives.1)).or
      (reader.directives.2.map .refused) := by
  unfold work
  cases ({} : Generator).run reader.directives.1 <;> rfl

theorem work_commands (reader : Reader) (failure : Option Diagnostic) :
    (⟨reader.work.1, failure⟩ : Transcript).commands =
      (reached (({} : Generator).run reader.directives.1)).commands := by
  unfold work
  cases ({} : Generator).run reader.directives.1 <;> rfl

end Reader

section Texts

variable {source other : String} {tokens others : List Token} {word : String → String}

/-- Wherever the tokens stand, carrying out their directives with other names runs alike. -/
theorem runsAlike_ofNumbered (h : Scanner.tokens source = .ok tokens)
    (hf : Function.Injective word) (hthis : word "this" = "this") (hempty : word "" = "")
    (place : Token → Span) :
    Generator.RunsAlike ⟨word, place⟩ (Reader.ofNumbered tokens).directives.1 {} {} := by
  let T : Token → Prop := fun token => token.kind.isWord = true → Dotless token.text
  have hall : ∀ token ∈ numberTokens tokens, T token := by
    intro token hmem hword
    obtain ⟨i, hget⟩ := List.mem_iff_getElem?.1 hmem
    rw [numberTokens_getElem?] at hget
    obtain ⟨found, hfound, rfl⟩ := Option.map_eq_some_iff.1 hget
    exact dotless_of_words (words_of_tokens h found (List.mem_of_getElem? hfound) hword)
  obtain ⟨htokens, hlast⟩ := Reader.all_ofNumbered h hall
  obtain ⟨hread, -⟩ := Reader.directives_readFrom (Reader.last_ofNumbered h) htokens hlast
  have hwords : ∀ text, WordOf T text → Dotless text := by
    rintro _ ⟨token, hdotless, hword, rfl⟩
    exact hdotless hword
  have hstart : ({} : Generator).Renamed word {} :=
    ⟨hempty.symm, List.not_mem_nil, .empty word, .empty word, rfl⟩
  exact Generator.run_renamed hf hthis hwords hread hstart

/-- What is compiled of a text that differs in layout and by a change of names. -/
theorem compile_respelled (h : Scanner.tokens source = .ok tokens)
    (hother : Scanner.tokens other = .ok others)
    (hsame : others.map Token.content = tokens.map (Token.respelledContent word))
    (hf : Function.Injective word) (hthis : word "this" = "this") (hempty : word "" = "") :
    linesOf other = (({} : Generator).lines (Reader.ofNumbered tokens).directives.1).map
        (Line.rename word) ∧
      (∀ line ∈ ({} : Generator).lines (Reader.ofNumbered tokens).directives.1, line.IsMarked) ∧
      (compile other).commands = (linesOf other).map Line.command ∧
      (compile other).failure = (Reader.ofNumbered tokens).work.2.map fun failure =>
        (failure.respell ⟨word, placeIn others⟩).locate other := by
  have hreader := Reader.ofSource_respell hother hsame
  have hdirectives := (Reader.ofNumbered tokens).directives_respell ⟨word, placeIn others⟩ other
    (Reader.last_ofNumbered h)
  have halike := runsAlike_ofNumbered h hf hthis hempty (placeIn others)
  have hlines : linesOf other = ({} : Generator).lines
      ((Reader.ofNumbered tokens).directives.1.map (Directive.respell ⟨word, placeIn others⟩)) := by
    rw [linesOf, hreader]
    dsimp only
    rw [hdirectives]
  refine ⟨hlines.trans halike.lines, halike.marked, ?_, ?_⟩
  · rw [compile_eq_work hreader, Reader.work_commands, hdirectives, hlines]
    exact halike.commandsOther
  · rw [compile_eq_work hreader, Reader.work_failure, Reader.work_failure, hdirectives]
    dsimp only
    rw [halike.failure]
    cases Generator.failure? (({} : Generator).run (Reader.ofNumbered tokens).directives.1) with
    | some failure => rfl
    | none => cases (Reader.ofNumbered tokens).directives.2 <;> rfl

end Texts

theorem linesOf_lexical {source : String} {error : LexicalError}
    (h : Scanner.tokens source = .error error) : linesOf source = [] := by
  rw [linesOf, Reader.ofSource, h]
  rfl

/-- The text of the lines. -/
def codeOf (lines : List Line) : ByteArray :=
  (String.join (lines.map fun line => line.command.line)).toUTF8

theorem written_eq_codeOf {source : String} {lines : List Line}
    (h : (compile source).commands = lines.map Line.command) :
    ((compile source).deliver {}).device.written = codeOf lines := by
  rw [(compile source).deliver_unlimited.2, Transcript.output, h, List.map_map]
  rfl

/-- The same diagnostic about a token of a text and the token that it becomes when names are
changed. -/
inductive Diagnostic.Renamed (word : String → String) (source other : String)
    (tokens others : List Token) : Diagnostic → Diagnostic → Prop where
  | grammatical {i : Nat} {token placed : Token} (fault : SyntaxFault)
      (htoken : tokens[i]? = some token) (hplaced : others[i]? = some placed) :
      Renamed word source other tokens others
        (.grammatical (.locate source token.span fault.message))
        (.grammatical (.locate other placed.span (fault.respell word).message))
  | undefinedName {i : Nat} {token placed : Token}
      (htoken : tokens[i]? = some token) (hplaced : others[i]? = some placed)
      (hname : token.kind = .identifier) :
      Renamed word source other tokens others
        (.undefinedName token.text (token.span.lineNumber source))
        (.undefinedName (word token.text) (placed.span.lineNumber other))

/-- A failure at a numbered token, put into a text and into one with other names. -/
theorem Failure.renamed {source other : String} {tokens others : List Token}
    {ρ : Identifier → Identifier}
    (hsame : others.map Token.content =
      tokens.map (Token.respelledContent (Identifier.rename ρ)))
    {failure : Failure} {i : Nat} {token : Token} (htoken : tokens[i]? = some token)
    (hat : failure.token = token.numbered i)
    (hname : ∀ name, failure = .undefinedName name → token.kind = .identifier) :
    Diagnostic.Renamed (Identifier.rename ρ) source other tokens others
      ((failure.respell ⟨id, placeIn tokens⟩).locate source)
      ((failure.respell ⟨Identifier.rename ρ, placeIn others⟩).locate other) := by
  have hplaced := Token.numbered_respell (Token.contents_id tokens) htoken
  have hmoved := Token.numbered_respell hsame htoken
  cases failure with
  | refused refusal =>
    rw [Failure.token] at hat
    rw [respell, respell, Refusal.respell, Refusal.respell, locate, locate, hat,
      SyntaxFault.respell_id]
    exact .grammatical refusal.fault hplaced hmoved
  | undefinedName name =>
    rw [Failure.token] at hat
    have hkind := hname name rfl
    have hword : (token.numbered i).kind.isWord = true := by
      rw [Token.numbered, hkind]
      rfl
    have htext : ((token.numbered i).respell ⟨Identifier.rename ρ, placeIn others⟩).text =
        Identifier.rename ρ ((token.numbered i).respell ⟨id, placeIn tokens⟩).text := by
      rw [Token.text_respell _ hword, Token.text_respell _ hword]
      rfl
    rw [respell, respell, locate, locate, hat, htext]
    exact .undefinedName hplaced hmoved hkind

/-- With other identifiers, a text compiles if it did, to the same lines but for the names of its
functions and of the calls that it spells out. If it does not compile, it fails in the same way at
the same one of its tokens. -/
theorem compile_renamed (ρ : Identifier ↪ Identifier) (source : String) :
    (((compile (renameText ρ source)).deliver {}).failure = none ↔
      ((compile source).deliver {}).failure = none) ∧
    ((compile source).deliver {}).device.written = codeOf (linesOf source) ∧
    ((compile (renameText ρ source)).deliver {}).device.written =
      codeOf ((linesOf source).map (Line.rename (Identifier.rename ρ))) ∧
    (∀ line ∈ linesOf source, line.IsMarked) ∧
    match Scanner.tokens source with
    | .error error => Scanner.tokens (renameText ρ source) = .error error
    | .ok tokens => ∃ others, Scanner.tokens (renameText ρ source) = .ok others ∧
      others.map Token.content = tokens.map (Token.respelledContent (Identifier.rename ρ)) ∧
      Option.Rel (Diagnostic.Renamed (Identifier.rename ρ) source (renameText ρ source) tokens
          others)
        ((compile source).deliver {}).failure
        ((compile (renameText ρ source)).deliver {}).failure := by
  rw [(compile source).deliver_unlimited.1, (compile (renameText ρ source)).deliver_unlimited.1]
  have hcontents := tokens_renameText ρ source
  cases h : Scanner.tokens source with
  | error error =>
    rw [h] at hcontents
    have hother : Scanner.tokens (renameText ρ source) = .error error := by
      cases hfound : Scanner.tokens (renameText ρ source) with
      | ok others =>
        rw [hfound] at hcontents
        cases hcontents
      | error found =>
        rw [hfound] at hcontents
        cases hcontents
        rfl
    rw [linesOf_lexical h, compile_lexical h, compile_lexical hother]
    exact ⟨Iff.rfl, rfl, rfl, List.forall_mem_nil _, hother⟩
  | ok tokens =>
    cases hother : Scanner.tokens (renameText ρ source) with
    | error error =>
      rw [h, hother] at hcontents
      cases hcontents
    | ok others =>
      rw [h, hother] at hcontents
      have hsame := Except.ok.inj hcontents
      obtain ⟨hlines, hmarked, hcommands, hfailure⟩ := compile_respelled h h
        (Token.contents_id tokens) Function.injective_id rfl rfl
      obtain ⟨hlinesOther, -, hcommandsOther, hfailureOther⟩ := compile_respelled h hother hsame
        (Identifier.rename_injective ρ.injective) (Identifier.rename_keyword ρ .this_) rfl
      rw [List.map_congr_left fun line _ => line.rename_id, List.map_id'] at hlines
      rw [written_eq_codeOf hcommands, written_eq_codeOf hcommandsOther, hlinesOther, ← hlines,
        hfailure, hfailureOther]
      refine ⟨?_, rfl, rfl, hlines ▸ hmarked, others, rfl, hsame, ?_⟩
      · rw [Option.map_eq_none_iff, Option.map_eq_none_iff]
      · cases hfail : (Reader.ofNumbered tokens).work.2 with
        | none => exact .none
        | some failure =>
          obtain ⟨i, token, htoken, hat, hname⟩ := Reader.exists_numbered h hfail
          exact .some (Failure.renamed hsame htoken hat hname)

end JackCompiler
