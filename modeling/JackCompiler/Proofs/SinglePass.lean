import JackCompiler.Pass.Rules
import JackCompiler.Proofs.RuleProgress

/-!
A single pass against a reading of the same tokens. Wherever the reading adds a directive, the pass
carries it out at once, and both go on with the same token. What an expression, a statement or a
block adds leaves the names alone; a variable that was looked up before an expression is the one
that would be found after it.
-/

namespace JackCompiler

/-- What is called as `owner.member`, and how many arguments come before those in the text. -/
def Scopes.callee (scopes : Scopes) (owner member : String) : String × Nat :=
  match scopes.lookup? owner with
  | some entry => (entry.type ++ "." ++ member, 1)
  | none => (owner ++ "." ++ member, 0)

/-- Directives that are carried out without a change to the names. -/
def Directive.isQuiet : Directive → Bool
  | .openClass _ | .openSubroutine .. | .declare .. => false
  | _ => true

/-! ### Names -/

namespace Generator

/-- The second generator knows the names that the first one does. -/
def SameNames (g g' : Generator) : Prop :=
  g'.className = g.className ∧ g'.scopes = g.scopes

variable {g g' : Generator}

theorem SameNames.trans {g'' : Generator} (h : SameNames g g') (k : SameNames g' g'') :
    SameNames g g'' :=
  ⟨k.left.trans h.left, k.right.trans h.right⟩

theorem sameNames_call {callee : String} {arguments : Nat} {token : Token}
    (h : g.call callee arguments token = .ok g') : SameNames g g' := by
  unfold call at h
  split at h <;> cases h
  exact ⟨rfl, rfl⟩

theorem sameNames_append (characters : List Char) (g : Generator) :
    SameNames g (characters.foldl (fun g c =>
      (g.issue (.push .constant c.toNat)).issue (.call "String.appendChar" 2)) g) := by
  induction characters generalizing g with
  | nil => exact ⟨rfl, rfl⟩
  | cons c rest ih => exact .trans ⟨rfl, rfl⟩ (ih _)

theorem sameNames_build {string : Token} (h : g.build string = .ok g') : SameNames g g' := by
  unfold build at h
  dsimp only at h
  split at h
  · cases h
  · split at h <;> cases h
    exact .trans ⟨rfl, rfl⟩ (sameNames_append _ _)

theorem sameNames_of_map {outcome : Outcome Variable} {f : Variable → Generator}
    (h : outcome.map f = .ok g') (hf : ∀ entry, SameNames g (f entry)) : SameNames g g' := by
  cases outcome <;> cases h
  exact hf _

/-- A directive that declares nothing leaves the names alone. -/
theorem sameNames_perform {directive : Directive} (hquiet : directive.isQuiet = true)
    (h : g.perform directive = .ok g') : SameNames g g' := by
  cases directive with
  | openClass name => cases hquiet
  | openSubroutine kind keyword => cases hquiet
  | declare kind type name => cases hquiet
  | nameSubroutine kind name =>
    cases h
    exact ⟨rfl, rfl⟩
  | openBody kind name =>
    cases h
    cases kind <;> exact ⟨rfl, rfl⟩
  | emit command =>
    cases h
    exact ⟨rfl, rfl⟩
  | require name => exact sameNames_of_map h fun _ => ⟨rfl, rfl⟩
  | load name => exact sameNames_of_map h fun _ => ⟨rfl, rfl⟩
  | store name => exact sameNames_of_map h fun _ => ⟨rfl, rfl⟩
  | build string => exact sameNames_build h
  | receiver owner =>
    rw [perform] at h
    split at h <;> cases h <;> exact ⟨rfl, rfl⟩
  | invoke owner member arguments =>
    rw [perform] at h
    split at h <;> exact sameNames_call h
  | invokeOwn method arguments => exact sameNames_call h

theorem sameNames_run {directives : List Directive}
    (hquiet : ∀ directive ∈ directives, directive.isQuiet = true)
    (h : g.run directives = .ok g') : SameNames g g' := by
  induction directives generalizing g with
  | nil =>
    cases h
    exact ⟨rfl, rfl⟩
  | cons directive rest ih =>
    obtain ⟨hdirective, hrest⟩ := List.forall_mem_cons.1 hquiet
    rw [run, List.foldlM_cons] at h
    cases hperform : g.perform directive with
    | error stop =>
      rw [hperform] at h
      cases h
    | ok after =>
      rw [hperform] at h
      exact .trans (sameNames_perform hdirective hperform) (ih hrest h)

end Generator

namespace Pass

variable {ω α β : Type}

namespace Job

/-! ### Jobs -/

theorem bind_apply (y : Job ω α) (f : α → Job ω β) (w : Work ω) :
    (y >>= f) w =
      match (y w : Option (Except (Stop ω) (α × Work ω))) with
      | none => none
      | some (.error stop) => some (.error stop)
      | some (.ok (a, w')) => f a w' := by
  change Option.bind (y w) _ = _
  cases (y w : Option (Except (Stop ω) (α × Work ω))) with
  | none => rfl
  | some result => cases result <;> rfl

/-- Two jobs may differ where they do not get to. -/
theorem bind_congr {y : Job ω α} {f g : α → Job ω β} {w : Work ω}
    (h : ∀ a w', y w = some (.ok (a, w')) → f a w' = g a w') : (y >>= f) w = (y >>= g) w := by
  rw [bind_apply, bind_apply]
  cases hy : (y w : Option (Except (Stop ω) (α × Work ω))) with
  | none => rfl
  | some result =>
    cases result with
    | error stop => rfl
    | ok found => exact h found.1 found.2 hy

theorem bind_congr_left {y z : Job ω α} {f : α → Job ω β} {w w' : Work ω} (h : y w = z w') :
    (y >>= f) w = (z >>= f) w' := by
  rw [bind_apply, bind_apply, h]

theorem bind_of_ok {y : Job ω α} {f : α → Job ω β} {w w' : Work ω} {a : α}
    (h : y w = some (.ok (a, w'))) : (y >>= f) w = f a w' := by
  rw [bind_apply, h]

theorem bind_error {y : Job ω α} {f : α → Job ω β} {w : Work ω} {stop : Stop ω}
    (h : y w = some (.error stop)) : (y >>= f) w = some (.error stop) := by
  rw [bind_apply, h]

theorem get_bind (f : Work ω → Job ω β) (w : Work ω) : (get >>= f) w = f w w :=
  rfl

/-- Nothing comes after a refusal. -/
theorem refuse_bind (refusal : Refusal) (f : α → Job ω β) :
    ((refuse refusal : Job ω α) >>= f) = refuse refusal := by
  unfold refuse
  split
  · exact bind_assoc _ _ _
  · rfl

theorem text_apply (token : Token) (w : Work ω) :
    text token w = (token.span.keptText? w.source).map fun text => .ok (text, w) := by
  rw [text, get_bind]
  cases token.span.keptText? w.source <;> rfl

theorem resolve_of_some {name : Token} {w : Work ω} {entry : Variable}
    (h : w.scopes.lookup? name.text = some entry) : resolve name w = some (.ok (entry, w)) := by
  rw [resolve, get_bind, h]
  rfl

theorem resolve_of_none {name : Token} {w : Work ω} (h : w.scopes.lookup? name.text = none) :
    resolve name w = stop (.failed (.undefinedName name)) w := by
  rw [resolve, get_bind, h]

theorem write_apply [Output ω] (command : Command) (w : Work ω) :
    write command w =
      match Output.issue w.output command with
      | (none, output) => some (.ok ((), { w with output }))
      | (some fault, output) => some (.error ⟨.io fault, w.records, output⟩) := by
  rw [write, get_bind]
  rcases Output.issue w.output command with ⟨_ | fault, output⟩ <;> rfl

/-- The job leaves the names as they are. -/
def Keeps (y : Job ω α) : Prop :=
  ∀ w a w', y w = some (.ok (a, w')) → w'.className = w.className ∧ w'.scopes = w.scopes

namespace Keeps

theorem pure (a : α) : Keeps (Pure.pure a : Job ω α) := by
  intro w b w' h
  cases h
  exact ⟨rfl, rfl⟩

theorem bind {y : Job ω α} {f : α → Job ω β} (hy : Keeps y) (hf : ∀ a, Keeps (f a)) :
    Keeps (y >>= f) := by
  intro w b w' h
  rw [bind_apply] at h
  cases hyw : (y w : Option (Except (Stop ω) (α × Work ω))) with
  | none =>
    rw [hyw] at h
    cases h
  | some result =>
    rw [hyw] at h
    cases result with
    | error stop => cases h
    | ok found =>
      obtain ⟨hclass, hscopes⟩ := hf _ _ _ _ h
      obtain ⟨kclass, kscopes⟩ := hy _ _ _ hyw
      exact ⟨hclass.trans kclass, hscopes.trans kscopes⟩

theorem get : Keeps (MonadState.get : Job ω (Work ω)) := by
  intro w a w' h
  cases h
  exact ⟨rfl, rfl⟩

theorem stop (cause : Cause) : Keeps (Job.stop cause : Job ω α) := by
  intro w a w' h
  cases h

theorem text (token : Token) : Keeps (Job.text token : Job ω String) := by
  refine bind get fun work => ?_
  split
  · exact pure _
  · intro w a w' h
    cases h

theorem refuse (refusal : Refusal) : Keeps (Job.refuse refusal : Job ω α) := by
  unfold Job.refuse
  split
  · exact bind (text _) fun _ => stop _
  · exact stop _

theorem log (level : Level) (target message : String) :
    Keeps (Job.log level target message : Job ω Unit) := by
  intro w a w' h
  cases h
  exact ⟨rfl, rfl⟩

theorem resolve (name : Token) : Keeps (Job.resolve name : Job ω Variable) := by
  refine bind get fun work => ?_
  split
  · exact pure _
  · exact stop _

theorem qualify (name : String) : Keeps (Job.qualify name : Job ω String) :=
  bind get fun _ => pure _

variable [Output ω]

theorem write (command : Command) : Keeps (Job.write command : Job ω Unit) := by
  intro w a w' h
  rw [write_apply] at h
  split at h <;> cases h
  exact ⟨rfl, rfl⟩

theorem appendAll (chars : List Char) : Keeps (Job.appendAll chars : Job ω Unit) := by
  induction chars with
  | nil => exact pure _
  | cons c rest ih => exact bind (write _) fun _ => bind (write _) fun _ => ih

theorem build (string : Token) : Keeps (Job.build string : Job ω Unit) := by
  refine bind (text string) fun text => ?_
  dsimp only
  split
  · exact refuse _
  · split
    · exact bind (write _) fun _ => bind (write _) fun _ => appendAll _
    · exact refuse _

theorem call (callee : String × Nat) (arguments : Nat) (token : Token) :
    Keeps (Job.call callee arguments token : Job ω Unit) := by
  unfold Job.call
  dsimp only
  split
  · exact write _
  · exact refuse _

theorem openBody (kind : SubroutineKind) (name : String) :
    Keeps (Job.openBody kind name : Job ω Unit) := by
  refine bind (qualify _) fun _ => bind get fun _ => bind (write _) fun _ => ?_
  cases kind with
  | constructor =>
    exact bind get fun _ => bind (write _) fun _ => bind (write _) fun _ => write _
  | method => exact bind (write _) fun _ => write _
  | function => exact pure _

theorem receiver (owner : Token) (member : String) :
    Keeps (Job.receiver owner member : Job ω (String × Nat)) := by
  refine bind get fun work => ?_
  split
  · exact bind (write _) fun _ => pure _
  · exact pure _

end Keeps

/-! ### Directives -/

variable [Output ω]

/-- Carries out a directive at once. -/
def carry : Directive → Job ω Unit
  | .openClass name => openClass name
  | .openSubroutine kind keyword => openSubroutine kind keyword
  | .nameSubroutine kind name => nameSubroutine kind name
  | .openBody kind name => openBody kind name
  | .declare kind type name => declare kind type name.text name
  | .emit command => write command
  | .require name => do let _ ← resolve name
  | .load name => load name
  | .store name => do pop (← resolve name)
  | .build string => build string
  | .receiver owner => do let _ ← receiver owner ""
  | .invoke owner member arguments => do
    call ((← get).scopes.callee owner.text member) arguments owner
  | .invokeOwn method arguments => do call (← qualify method.text, 1) arguments method

/-- Carries out directives, of which the first is the latest. -/
def carryAll : List Directive → Job ω Unit
  | [] => return ()
  | directive :: earlier => do
    carryAll earlier
    carry directive

theorem carryAll_append (later earlier : List Directive) :
    (carryAll (later ++ earlier) : Job ω Unit) = carryAll earlier >>= fun _ => carryAll later := by
  induction later with
  | nil => exact (bind_pure _).symm
  | cons directive rest ih =>
    rw [List.cons_append, carryAll, ih, bind_assoc]
    rfl

theorem carryAll_singleton (directive : Directive) :
    (carryAll [directive] : Job ω Unit) = carry directive :=
  pure_bind _ _

theorem keeps_carry {directive : Directive} (h : directive.isQuiet = true) :
    Keeps (carry directive : Job ω Unit) := by
  cases directive with
  | openClass name => cases h
  | openSubroutine kind keyword => cases h
  | nameSubroutine kind name => exact .bind (.qualify _) fun _ => .log _ _ _
  | openBody kind name => exact .openBody kind name
  | declare kind type name => cases h
  | emit command => exact .write command
  | require name => exact .bind (.resolve name) fun _ => .pure _
  | load name => exact .bind (.resolve name) fun _ => .write _
  | store name => exact .bind (.resolve name) fun _ => .write _
  | build string => exact .build string
  | receiver owner => exact .bind (.receiver owner "") fun _ => .pure _
  | invoke owner member arguments => exact .bind .get fun _ => .call _ _ _
  | invokeOwn method arguments => exact .bind (.qualify _) fun _ => .call _ _ _

theorem keeps_carryAll {directives : List Directive}
    (h : ∀ directive ∈ directives, directive.isQuiet = true) :
    Keeps (carryAll directives : Job ω Unit) := by
  induction directives with
  | nil => exact .pure _
  | cons directive rest ih =>
    obtain ⟨hdirective, hrest⟩ := List.forall_mem_cons.1 h
    exact .bind (ih hrest) fun _ => keeps_carry hdirective

/-! What is found before a directive is carried out is there afterwards. -/

theorem resolve_apply (name : Token) (w : Work ω) :
    (∃ entry, w.scopes.lookup? name.text = some entry ∧
      resolve name w = (carry (.require name) >>= fun _ => pure entry) w) ∨
    ∃ stop, resolve name w = some (.error stop) ∧ carry (.require name) w = some (.error stop) := by
  cases hlookup : w.scopes.lookup? name.text with
  | some entry =>
    refine .inl ⟨entry, rfl, ?_⟩
    rw [carry, bind_assoc, bind_of_ok (resolve_of_some hlookup), resolve_of_some hlookup]
    rfl
  | none => exact .inr ⟨_, resolve_of_none hlookup, bind_error (resolve_of_none hlookup)⟩

theorem push_eq_carry_load {name : Token} {entry : Variable} {w : Work ω}
    (h : w.scopes.lookup? name.text = some entry) : push entry w = carry (.load name) w := by
  rw [carry, load, bind_of_ok (resolve_of_some h)]

theorem pop_eq_carry_store {name : Token} {entry : Variable} {w : Work ω}
    (h : w.scopes.lookup? name.text = some entry) : pop entry w = carry (.store name) w := by
  rw [carry, bind_of_ok (resolve_of_some h)]

theorem receiver_apply (owner : Token) (member : String) (w : Work ω) :
    receiver owner member w =
      (carry (.receiver owner) >>= fun _ => pure (w.scopes.callee owner.text member)) w := by
  rw [carry, bind_assoc, receiver, receiver, bind_assoc, get_bind, get_bind, Scopes.callee]
  cases w.scopes.lookup? owner.text with
  | some entry =>
    dsimp only
    rw [bind_assoc]
    rfl
  | none => rfl

theorem ownReceiver_apply (method : Token) (w : Work ω) :
    ownReceiver method w =
      (carry (.emit (.push .pointer 0)) >>= fun _ =>
        pure (w.className ++ "." ++ method.text, 1)) w := by
  refine bind_congr fun _ w' h => ?_
  rw [qualify, bind_assoc, get_bind, pure_bind, (Keeps.write _ _ _ _ h).1]

theorem call_eq_carry_invoke {owner : Token} {member : String} {callee : String × Nat} {w : Work ω}
    (h : w.scopes.callee owner.text member = callee) (arguments : Nat) :
    call callee arguments owner w = carry (.invoke owner member arguments) w := by
  subst h
  rfl

theorem call_eq_carry_invokeOwn {method : Token} {callee : String × Nat} {w : Work ω}
    (h : (w.className ++ "." ++ method.text, 1) = callee) (arguments : Nat) :
    call callee arguments method w = carry (.invokeOwn method arguments) w := by
  subst h
  rfl

end Job

theorem job_bind (y : Job ω α) (f : α → Pass ω β) (place : Place) :
    (job y >>= f) place = y >>= fun a => f a place := by
  change (y >>= fun a => pure (a, place)) >>= (fun found : α × Place => f found.1 found.2) = _
  rw [bind_assoc]
  simp only [pure_bind]

theorem bind_apply (x : Pass ω α) (f : α → Pass ω β) (place : Place) :
    (x >>= f) place = x place >>= fun found => f found.1 found.2 :=
  rfl

theorem get_bind (f : Place → Pass ω α) (place : Place) : (get >>= f) place = f place place :=
  rfl

end Pass

end JackCompiler
