import JackCompiler.Proofs.ReferenceCode
import JackCompiler.Transcript

/-!
Carrying out the directives of a tree one by one issues the code of the tree. The generator knows
the declarations so far, and that is kept by every directive; it stops exactly at what they do not
allow.
-/

namespace JackCompiler

namespace Generator

/-- The commands issued so far, in order. -/
def commands (g : Generator) : List Command :=
  (⟨g.effects.reverse, none⟩ : Transcript).commands

/-- The generator has carried out these declarations, and they did not fail. -/
structure Knows (g : Generator) (c : Context) : Prop where
  className : g.className = c.className
  scopes : g.scopes.Reflects c
  fits : c.Fits

@[simp] theorem commands_issue (g : Generator) (command : Command) :
    (g.issue command).commands = g.commands ++ [command] := by
  simp [commands, issue, Transcript.commands]

@[simp] theorem commands_log (g : Generator) (level : Level) (target message : String) :
    (g.log level target message).commands = g.commands := by
  simp [commands, log, Transcript.commands]

theorem Knows.issue {g : Generator} {c : Context} (h : g.Knows c) (command : Command) :
    (g.issue command).Knows c :=
  ⟨h.className, h.scopes, h.fits⟩

theorem Knows.log {g : Generator} {c : Context} (h : g.Knows c) (level : Level)
    (target message : String) : (g.log level target message).Knows c :=
  ⟨h.className, h.scopes, h.fits⟩

theorem Knows.qualify {g : Generator} {c : Context} (h : g.Knows c) (name : String) :
    g.qualify name = c.className ++ "." ++ name := by
  rw [Generator.qualify, h.className]

/-- A generator that has done nothing knows that nothing is declared. -/
theorem knows_start : ({} : Generator).Knows {} := by
  refine ⟨rfl, ⟨fun name => ?_, fun name => ?_, fun kind => ?_⟩, fun kind => ?_⟩
  · exact Std.TreeMap.getElem?_emptyc
  · exact Std.TreeMap.getElem?_emptyc
  · cases kind <;> rfl
  · cases kind <;> exact Nat.zero_le _

theorem run_cons (g : Generator) (directive : Directive) (rest : List Directive) :
    g.run (directive :: rest) = (g.perform directive >>= fun g => g.run rest) :=
  List.foldlM_cons

theorem run_append (g : Generator) (x y : List Directive) :
    g.run (x ++ y) = (g.run x >>= fun g => g.run y) :=
  List.foldlM_append

theorem run_singleton (g : Generator) (directive : Directive) :
    g.run [directive] = g.perform directive := by
  rw [run_cons]
  cases g.perform directive <;> rfl

theorem bind_ok {α β : Type} {x : Outcome α} {f : α → Outcome β} {b : β}
    (h : x >>= f = .ok b) : ∃ a, x = .ok a ∧ f a = .ok b := by
  cases x with
  | error failure => cases h
  | ok a => exact ⟨a, rfl, h⟩

/-- Where the declarations of `c` are known, these directives can be carried out exactly if they are
allowed; then they issue the code, and the declarations of `d` are known. -/
structure Generates (c : Context) (directives : List Directive) (allowed : Prop)
    (code : List Command) (d : Context) : Prop where
  sound : ∀ {g g' : Generator}, g.Knows c → g.run directives = .ok g' →
    allowed ∧ g'.Knows d ∧ g'.commands = g.commands ++ code
  complete : ∀ {g : Generator}, g.Knows c → allowed → ∃ g', g.run directives = .ok g'

namespace Generates

variable {c d e : Context} {x y : List Directive} {p q : Prop} {m n : List Command}

theorem refl (c : Context) : Generates c [] True [] c := by
  refine ⟨fun {g g'} hknows hrun => ?_, fun {g} _ _ => ⟨g, rfl⟩⟩
  cases hrun
  exact ⟨trivial, hknows, (List.append_nil _).symm⟩

theorem trans (h : Generates c x p m d) (k : Generates d y q n e) :
    Generates c (x ++ y) (p ∧ q) (m ++ n) e := by
  refine ⟨fun {g g'} hknows hrun => ?_, fun {g} hknows ⟨hp, hq⟩ => ?_⟩
  · rw [run_append] at hrun
    obtain ⟨between, hfirst, hsecond⟩ := bind_ok hrun
    obtain ⟨hp, hbetween, hm⟩ := h.sound hknows hfirst
    obtain ⟨hq, hafter, hn⟩ := k.sound hbetween hsecond
    refine ⟨⟨hp, hq⟩, hafter, ?_⟩
    rw [hn, hm, List.append_assoc]
  · obtain ⟨between, hfirst⟩ := h.complete hknows hp
    obtain ⟨-, hbetween, -⟩ := h.sound hknows hfirst
    obtain ⟨after, hsecond⟩ := k.complete hbetween hq
    refine ⟨after, ?_⟩
    rw [run_append, hfirst]
    exact hsecond

theorem congr (h : Generates c x p m d) (hpq : p ↔ q) : Generates c x q m d :=
  ⟨fun hknows hrun => ⟨hpq.1 (h.sound hknows hrun).1, (h.sound hknows hrun).2⟩,
    fun hknows hq => h.complete hknows (hpq.2 hq)⟩

/-- A directive that always succeeds, and what it leaves behind. -/
theorem ofPerform {directive : Directive} (next : Generator → Generator)
    (hperform : ∀ g : Generator, g.perform directive = .ok (next g))
    (hnext : ∀ g : Generator, g.Knows c → (next g).Knows d ∧ (next g).commands = g.commands ++ m) :
    Generates c [directive] True m d := by
  refine ⟨fun {g g'} hknows hrun => ?_, fun {g} _ _ => ⟨next g, ?_⟩⟩
  · rw [run_singleton, hperform] at hrun
    cases hrun
    exact ⟨trivial, hnext g hknows⟩
  · rw [run_singleton, hperform]

theorem emit (c : Context) (command : Command) :
    Generates c [.emit command] True [command] c := by
  apply ofPerform (fun g => g.issue command)
  · intro g
    rfl
  · intro g hknows
    exact ⟨hknows.issue command, commands_issue g command⟩

theorem emits (c : Context) (commands : List Command) :
    Generates c (commands.map .emit) True commands c := by
  induction commands with
  | nil => exact refl c
  | cons command rest ih => exact ((emit c command).trans ih).congr and_self_iff

end Generates

/-! ### Names -/

/-- A directive that needs the variable of a name, and what it does with it. -/
theorem Generates.ofName {c : Context} {directive : Directive} {name : Token}
    (next : Generator → Variable → Generator) (code : Variable → List Command)
    (hperform : ∀ g : Generator, g.perform directive = (g.resolve name).map (next g))
    (hnext : ∀ (g : Generator) (entry : Variable), g.Knows c →
      (next g entry).Knows c ∧ (next g entry).commands = g.commands ++ code entry) :
    Generates c [directive] (c.Allows (.value name.text))
      ((c.lookup? name.text).elim [] code) c := by
  refine ⟨fun {g g'} hknows hrun => ?_, fun {g} hknows hallowed => ?_⟩
  · rw [run_singleton, hperform, resolve, hknows.scopes.lookup?] at hrun
    cases hentry : c.lookup? name.text with
    | none =>
      rw [hentry] at hrun
      cases hrun
    | some entry =>
      rw [hentry] at hrun
      cases hrun
      refine ⟨?_, hnext g entry hknows⟩
      rw [Context.Allows, hentry]
      rfl
  · obtain ⟨entry, hentry⟩ := Option.isSome_iff_exists.1 hallowed
    refine ⟨next g entry, ?_⟩
    rw [run_singleton, hperform, resolve, hknows.scopes.lookup?, hentry]
    rfl

theorem generates_require (c : Context) (name : Token) :
    Generates c [.require name] (c.Allows (.value name.text)) [] c := by
  have h : Generates c [.require name] (c.Allows (.value name.text))
      ((c.lookup? name.text).elim [] fun _ => []) c := by
    apply Generates.ofName (fun g _ => g)
    · intro g
      rfl
    · intro g entry hknows
      exact ⟨hknows, (List.append_nil _).symm⟩
  cases hentry : c.lookup? name.text with
  | none => rwa [hentry] at h
  | some entry => rwa [hentry] at h

theorem generates_load (c : Context) (name : Token) :
    Generates c [.load name] (c.Allows (.value name.text)) (c.load name.text) c := by
  apply Generates.ofName push
  · intro g
    rfl
  · intro g entry hknows
    exact ⟨hknows.issue _, commands_issue g _⟩

theorem generates_store (c : Context) (name : Token) :
    Generates c [.store name] (c.Allows (.value name.text)) (c.store name.text) c := by
  apply Generates.ofName fun g entry => g.issue (.pop entry.kind.segment entry.index)
  · intro g
    rfl
  · intro g entry hknows
    exact ⟨hknows.issue _, commands_issue g _⟩

/-! ### Strings -/

theorem foldl_append (characters : List Char) {g : Generator} {c : Context} (h : g.Knows c) :
    ∃ last, characters.foldl (fun g character =>
        (g.issue (.push .constant character.toNat)).issue (.call "String.appendChar" 2)) g = last ∧
      last.Knows c ∧ last.commands = g.commands ++ characters.flatMap fun character =>
        [.push .constant character.toNat, .call "String.appendChar" 2] := by
  induction characters generalizing g with
  | nil => exact ⟨g, rfl, h, (List.append_nil _).symm⟩
  | cons character rest ih =>
    obtain ⟨last, hlast, hknows, hcommands⟩ := ih ((h.issue (.push .constant character.toNat)).issue
      (.call "String.appendChar" 2))
    refine ⟨last, hlast, hknows, ?_⟩
    rw [hcommands]
    simp

theorem generates_build (c : Context) (string : Token) :
    Generates c [.build string] (c.Allows (.literal string.text)) (Tree.stringCode string.text)
      c := by
  refine ⟨fun {g g'} hknows hrun => ?_, fun {g} hknows ⟨hlength, hstorable⟩ => ?_⟩
  · rw [run_singleton, perform, build] at hrun
    dsimp only at hrun
    split at hrun
    · cases hrun
    · rename_i hfind
      split at hrun
      · rename_i hlength
        cases hrun
        have hstorable : ∀ character ∈ string.text.toList, character.toNat ≤ 0xFFFF := by
          intro character hmem
          have hnot := List.find?_eq_none.1 hfind character hmem
          exact Nat.le_of_not_lt (by simpa using hnot)
        obtain ⟨last, hlast, hafter, hcommands⟩ := foldl_append string.text.toList
          ((hknows.issue (.push .constant string.text.toList.length)).issue (.call "String.new" 1))
        rw [hlast]
        refine ⟨⟨by rwa [← String.length_toList], hstorable⟩, hafter, ?_⟩
        rw [hcommands]
        simp [Tree.stringCode, String.length_toList]
      · cases hrun
  · have hnone : string.text.toList.find? (0xFFFF < ·.toNat) = none := by
      apply List.find?_eq_none.2
      intro character hmem
      simpa using Nat.not_lt.2 (hstorable character hmem)
    rw [run_singleton, perform, build]
    dsimp only
    rw [hnone]
    dsimp only
    rw [if_pos (by rwa [String.length_toList])]
    exact ⟨_, rfl⟩

/-! ### Calls -/

theorem call_eq_ok {g g' : Generator} {callee : String} {arguments : Nat} {token : Token} :
    g.call callee arguments token = .ok g' ↔
      arguments ≤ maxInteger ∧ g' = g.issue (.call callee arguments) := by
  unfold call
  by_cases hcount : arguments ≤ maxInteger
  · rw [if_pos hcount]
    constructor
    · intro h
      cases h
      exact ⟨hcount, rfl⟩
    · rintro ⟨-, rfl⟩
      rfl
  · rw [if_neg hcount]
    constructor
    · intro h
      cases h
    · rintro ⟨h, -⟩
      exact absurd h hcount

theorem generates_receiver (c : Context) (owner : Token) :
    Generates c [.receiver owner] True (c.load owner.text) c := by
  refine ⟨fun {g g'} hknows hrun => ?_, fun {g} hknows _ => ?_⟩
  · rw [run_singleton, perform, hknows.scopes.lookup?] at hrun
    rw [Context.load]
    cases hentry : c.lookup? owner.text with
    | none =>
      rw [hentry] at hrun
      cases hrun
      exact ⟨trivial, hknows, (List.append_nil _).symm⟩
    | some entry =>
      rw [hentry] at hrun
      cases hrun
      exact ⟨trivial, hknows.issue _, commands_issue g _⟩
  · rw [run_singleton, perform]
    cases g.scopes.lookup? owner.text with
    | none => exact ⟨g, rfl⟩
    | some entry => exact ⟨g.push entry, rfl⟩

/-- A directive that ends in a call. -/
theorem Generates.ofCall {c : Context} {directive : Directive} {callee : String}
    {arguments : Nat} (token : Token)
    (hperform : ∀ g : Generator, g.Knows c →
      g.perform directive = g.call callee arguments token) :
    Generates c [directive] (arguments ≤ maxInteger) [.call callee arguments] c := by
  refine ⟨fun {g g'} hknows hrun => ?_, fun {g} hknows hcount => ?_⟩
  · rw [run_singleton, hperform g hknows] at hrun
    obtain ⟨hcount, rfl⟩ := call_eq_ok.1 hrun
    exact ⟨hcount, hknows.issue _, commands_issue g _⟩
  · refine ⟨g.issue (.call callee arguments), ?_⟩
    rw [run_singleton, hperform g hknows]
    exact call_eq_ok.2 ⟨hcount, rfl⟩

theorem generates_invokeOwn (c : Context) (method : Token) (arguments : Nat) :
    Generates c [.invokeOwn method arguments] (c.Allows (.call none arguments))
      [.call (c.className ++ "." ++ method.text) (arguments + 1)] c := by
  apply Generates.ofCall method
  intro g hknows
  rw [perform, hknows.qualify]

theorem generates_invoke_variable {c : Context} {owner : Token} {entry : Variable}
    (hentry : c.lookup? owner.text = some entry) (member : String) (arguments : Nat) :
    Generates c [.invoke owner member arguments] (c.Allows (.call (some owner.text) arguments))
      [.call (entry.type ++ "." ++ member) (arguments + 1)] c := by
  rw [Context.Allows, hentry]
  apply Generates.ofCall owner
  intro g hknows
  rw [perform, hknows.scopes.lookup?, hentry]
  rfl

theorem generates_invoke_class {c : Context} {owner : Token}
    (hentry : c.lookup? owner.text = none) (member : String) (arguments : Nat) :
    Generates c [.invoke owner member arguments] (c.Allows (.call (some owner.text) arguments))
      [.call (owner.text ++ "." ++ member) arguments] c := by
  rw [Context.Allows, hentry]
  apply Generates.ofCall owner
  intro g hknows
  rw [perform, hknows.scopes.lookup?, hentry]
  rfl

/-! ### Declarations -/

/-- Declaring takes place exactly if the kind still counts afterwards. -/
theorem declare_ok {g : Generator} {c : Context} (h : g.Knows c) (declaration : Declaration)
    (token : Token) (hfits : (c.declare declaration).Fits) :
    ∃ g', g.declare declaration.kind declaration.type declaration.name token = .ok g' ∧
      g'.Knows (c.declare declaration) ∧ g'.commands = g.commands := by
  have hcount : c.count declaration.kind < maxInteger := by
    have hafter := hfits declaration.kind
    rw [Context.count_declare, if_pos rfl] at hafter
    omega
  obtain ⟨scopes, hdefine, hreflects⟩ := h.scopes.define? declaration hcount
  rw [declare, hdefine]
  refine ⟨_, rfl, ⟨?_, hreflects, hfits⟩, ?_⟩
  · rw [Context.className_declare]
    exact h.className
  · rw [commands_log]
    rfl

theorem fits_of_declare {g g' : Generator} {c : Context} (h : g.Knows c)
    {declaration : Declaration} {token : Token}
    (hdeclare : g.declare declaration.kind declaration.type declaration.name token = .ok g') :
    (c.declare declaration).Fits := by
  by_cases hcount : maxInteger ≤ c.count declaration.kind
  · rw [declare, h.scopes.define?_none declaration hcount] at hdeclare
    cases hdeclare
  · intro kind
    have hbefore := h.fits kind
    rw [Context.count_declare]
    by_cases hkind : declaration.kind = kind
    · subst hkind
      rw [if_pos rfl]
      omega
    · rw [if_neg hkind]
      exact hbefore

theorem generates_declare (c : Context) (declaration : Declaration) (name : Token)
    (hname : name.text = declaration.name) :
    Generates c [.declare declaration.kind declaration.type name]
      (c.declare declaration).Fits [] (c.declare declaration) := by
  refine ⟨fun {g g'} hknows hrun => ?_, fun {g} hknows hfits => ?_⟩
  · rw [run_singleton, perform, hname] at hrun
    have hfits := fits_of_declare hknows hrun
    obtain ⟨g'', hdeclare, hafter, hcommands⟩ := declare_ok hknows declaration name hfits
    obtain rfl : g'' = g' := Except.ok.inj (hdeclare.symm.trans hrun)
    exact ⟨hfits, hafter, by rw [hcommands, List.append_nil]⟩
  · obtain ⟨g', hdeclare, -⟩ := declare_ok hknows declaration name hfits
    refine ⟨g', ?_⟩
    rw [run_singleton, perform, hname]
    exact hdeclare

/-- Declarations that follow each other fit if they fit at the end. -/
theorem generates_declareAll (declarations : List Declaration) (c : Context) :
    Generates c (declarations.map fun declaration =>
        .declare declaration.kind declaration.type (.unplaced declaration.name))
      (c.declareAll declarations).Fits [] (c.declareAll declarations) := by
  induction declarations generalizing c with
  | nil =>
    refine ⟨fun {g g'} hknows hrun => ?_, fun {g} _ _ => ⟨g, rfl⟩⟩
    obtain ⟨-, hafter⟩ := (Generates.refl c).sound hknows hrun
    exact ⟨hknows.fits, hafter⟩
  | cons declaration rest ih =>
    have hfirst := generates_declare c declaration (.unplaced declaration.name) rfl
    refine ⟨fun {g g'} hknows hrun => ?_, fun {g} hknows hfits => ?_⟩
    · rw [List.map_cons, run_cons] at hrun
      obtain ⟨between, hdeclare, hrest⟩ := bind_ok hrun
      obtain ⟨hfits, hbetween, hcommands⟩ :=
        hfirst.sound hknows ((run_singleton g _).trans hdeclare)
      obtain ⟨hall, hafter, hcommands'⟩ := (ih _).sound hbetween hrest
      refine ⟨hall, hafter, ?_⟩
      rw [hcommands', hcommands, List.append_nil, List.append_nil]
    · have hstep : (c.declare declaration).Fits := fun kind =>
        Nat.le_trans (Context.count_le_declareAll rest _ kind) (hfits kind)
      obtain ⟨between, hdeclare⟩ := hfirst.complete hknows hstep
      obtain ⟨-, hbetween, -⟩ := hfirst.sound hknows hdeclare
      obtain ⟨after, hrest⟩ := (ih _).complete hbetween hfits
      refine ⟨after, ?_⟩
      rw [run_singleton] at hdeclare
      rw [List.map_cons, run_cons, hdeclare]
      exact hrest

/-! ### Headers -/

theorem generates_openClass (c : Context) (name : String) :
    Generates c [.openClass name] True [] { c with className := name } := by
  apply Generates.ofPerform fun g => { g with className := name }.log .debug
    "jackc::compile::class" ("compiling class " ++ name)
  · intro g
    rfl
  · intro g hknows
    have hscopes : g.scopes.Reflects { c with className := name } :=
      ⟨hknows.scopes.ofClass, hknows.scopes.ofSubroutine, hknows.scopes.count⟩
    refine ⟨⟨rfl, hscopes, hknows.fits⟩, ?_⟩
    rw [commands_log, List.append_nil]
    rfl

theorem generates_nameSubroutine (c : Context) (kind : SubroutineKind) (name : String) :
    Generates c [.nameSubroutine kind name] True [] c := by
  apply Generates.ofPerform fun g => g.log .debug "jackc::compile::subroutine"
    ("compiling " ++ kind.text ++ " " ++ g.qualify name)
  · intro g
    rfl
  · intro g hknows
    exact ⟨hknows.log _ _ _, by rw [commands_log, List.append_nil]⟩

/-- Only a method declares something before its parameters, and there is always room for it. -/
theorem generates_openSubroutine (c : Context) (kind : SubroutineKind) (keyword : Token) :
    Generates c [.openSubroutine kind keyword] True []
      (c.startSubroutine.declareAll (Tree.receiverDeclarations c.className kind)) := by
  have hstart : ∀ {g : Generator}, g.Knows c →
      ({ g with scopes := g.scopes.startSubroutine } : Generator).Knows c.startSubroutine := by
    intro g hknows
    exact ⟨hknows.className, hknows.scopes.startSubroutine,
      Context.fits_startSubroutine hknows.fits⟩
  by_cases hmethod : kind = .method
  · subst hmethod
    let receiver : Declaration := ⟨.argument, c.className, "this"⟩
    have hperform : ∀ {g : Generator}, g.Knows c → g.run [.openSubroutine .method keyword] =
        ({ g with scopes := g.scopes.startSubroutine } : Generator).declare
          receiver.kind receiver.type receiver.name keyword := by
      intro g hknows
      rw [run_singleton, perform, if_pos rfl, hknows.className]
    have hdeclare : ∀ {g : Generator}, g.Knows c → ∃ g',
        g.run [.openSubroutine .method keyword] = .ok g' ∧
          g'.Knows (c.startSubroutine.declare receiver) ∧ g'.commands = g.commands := by
      intro g hknows
      obtain ⟨g', hg', hafter, hcommands⟩ := declare_ok (hstart hknows) receiver keyword
        (Context.fits_receiver hknows.fits)
      exact ⟨g', (hperform hknows).trans hg', hafter, hcommands⟩
    refine ⟨fun {g g'} hknows hrun => ?_, fun {g} hknows _ => ?_⟩
    · obtain ⟨g'', hg'', hafter, hcommands⟩ := hdeclare hknows
      obtain rfl : g'' = g' := Except.ok.inj (hg''.symm.trans hrun)
      exact ⟨trivial, hafter, by rw [hcommands, List.append_nil]⟩
    · obtain ⟨g', hg', -⟩ := hdeclare hknows
      exact ⟨g', hg'⟩
  · have hnone : Tree.receiverDeclarations c.className kind = [] := by
      cases kind with
      | constructor => rfl
      | function => rfl
      | method => exact absurd rfl hmethod
    rw [hnone]
    apply Generates.ofPerform fun g => { g with scopes := g.scopes.startSubroutine }
    · intro g
      rw [perform, if_neg hmethod]
    · intro g hknows
      exact ⟨hstart hknows, (List.append_nil _).symm⟩

theorem generates_openBody (c : Context) (kind : SubroutineKind) (name : String) :
    Generates c [.openBody kind name] True
      (.function (c.className ++ "." ++ name) (c.count .local_) ::
        Tree.prologue (c.count .field) kind) c := by
  apply Generates.ofPerform fun g => g.openBody kind name
  · intro g
    rfl
  · intro g hknows
    have hfunction := hknows.issue (.function (g.qualify name) (g.scopes.count .local_))
    rw [← hknows.qualify, ← hknows.scopes.count, ← hknows.scopes.count]
    cases kind with
    | constructor =>
      refine ⟨((hfunction.issue _).issue _).issue _, ?_⟩
      simp only [openBody, commands_issue, Tree.prologue, List.append_assoc, List.cons_append,
        List.nil_append]
      rfl
    | function => exact ⟨hfunction, commands_issue g _⟩
    | method =>
      refine ⟨(hfunction.issue _).issue _, ?_⟩
      simp only [openBody, commands_issue, Tree.prologue, List.append_assoc, List.cons_append,
        List.nil_append]

end Generator

end JackCompiler
