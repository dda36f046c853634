import JackCompiler.Proofs.Compilation
import JackCompiler.Proofs.SinglePassRules

/-!
What is written when directives are carried out at once: the effects that a generator lists for
them, one by one, until the output fails. The texts of string constants are asked for at that time.
-/

namespace JackCompiler

/-- If the directive asks for the text of a string constant, it stands where the token says. -/
def Directive.Readable (source : String) : Directive → Prop
  | .build string => string.span.keptText? source = some string.text
  | _ => True

/-- The text of a string constant is what stands where the token says, if anything does. -/
def Directive.ReadBack (source : String) : Directive → Prop
  | .build string => ∀ text, string.span.keptText? source = some text → string.text = text
  | _ => True

/-- All texts that are asked for before a directive fails can be read. -/
def Generator.Reads (source : String) : Generator → List Directive → Prop
  | _, [] => True
  | g, directive :: rest => directive.Readable source ∧
      ∀ next, g.perform directive = .ok next → Reads source next rest

/-- If the refusal quotes a string constant, its text stands where the token says. -/
def Refusal.Readable (source : String) (refusal : Refusal) : Prop :=
  ∀ expected text, refusal.fault = .unexpected expected .string text →
    refusal.token.span.keptText? source = some text

/-! ### Playing effects -/

namespace Transcript

variable {ω : Type} [Output ω]

/-- Plays the effects on an output of any kind, until it fails. -/
def playOn (records : List LogRecord) (output : ω) :
    List Effect → Option IoFault × List LogRecord × ω
  | [] => (none, records, output)
  | .logged record :: rest => playOn (record :: records) output rest
  | .issued command :: rest =>
    match Output.issue output command with
    | (none, output) => playOn records output rest
    | (some fault, output) => (some fault, records, output)

/-- Plays the transcript on an output and flushes it at the end of a successful compilation. -/
def deliverOn (transcript : Transcript) (output : ω) : Pass.Result ω :=
  match playOn [] output transcript.effects with
  | (some fault, records, output) => ⟨output, records.reverse, some (.io fault)⟩
  | (none, records, output) =>
    ⟨output, records.reverse, transcript.failure.or ((Output.flush output).map .io)⟩

theorem playOn_append (records : List LogRecord) (output : ω) (x y : List Effect) :
    playOn records output (x ++ y) =
      match playOn records output x with
      | (none, records, output) => playOn records output y
      | stopped => stopped := by
  induction x generalizing records output with
  | nil => rfl
  | cons effect rest ih =>
    cases effect with
    | logged record => exact ih _ _
    | issued command =>
      rw [List.cons_append, playOn, playOn]
      rcases Output.issue output command with ⟨_ | fault, after⟩
      · exact ih _ _
      · rfl

theorem play_eq_playOn (records : List LogRecord) (device : Device) (effects : List Effect) :
    play records device effects =
      match playOn records device effects with
      | (fault, records, device) => (fault, records.reverse, device) := by
  induction effects generalizing records device with
  | nil => rfl
  | cons effect rest ih =>
    cases effect with
    | logged record => exact ih (record :: records) device
    | issued command =>
      rw [play, playOn]
      have hissue : Output.issue device command = device.issue command := rfl
      rw [hissue]
      rcases device.issue command with ⟨_ | fault, after⟩
      · exact ih records after
      · rfl

/-- On a device, a transcript is delivered as ever. -/
theorem deliverOn_device (transcript : Transcript) (device : Device) :
    transcript.deliverOn device = ⟨(transcript.deliver device).device,
      (transcript.deliver device).records, (transcript.deliver device).failure⟩ := by
  rw [deliverOn, deliver, play_eq_playOn]
  rcases playOn [] device transcript.effects with ⟨_ | fault, records, after⟩
  · cases transcript.failure <;> rfl
  · rfl

end Transcript

/-- An output with this property takes every command and has the property still. -/
def Output.Unfailing {ω : Type} [Output ω] (P : ω → Prop) : Prop :=
  ∀ output, P output → ∀ command, ∃ after, issue output command = (none, after) ∧ P after

theorem Transcript.playOn_unfailing {ω : Type} [Output ω] {P : ω → Prop}
    (hP : Output.Unfailing P) (records : List LogRecord) {output : ω} (h : P output)
    (effects : List Effect) :
    ∃ later after, playOn records output effects = (none, later, after) ∧ P after := by
  induction effects generalizing records output with
  | nil => exact ⟨records, output, rfl, h⟩
  | cons effect rest ih =>
    cases effect with
    | logged record => exact ih (record :: records) h
    | issued command =>
      obtain ⟨after, hissue, hafter⟩ := hP output h command
      obtain ⟨later, last, hplay, hlast⟩ := ih records hafter
      refine ⟨later, last, ?_, hlast⟩
      rw [playOn, hissue]
      exact hplay

namespace Pass

variable {ω : Type}

namespace Work

/-- Work with the names that a generator knows. -/
def named (w : Work ω) (g : Generator) : Work ω :=
  { w with className := g.className, scopes := g.scopes }

/-- A generator that knows the names of the work. -/
def generator (w : Work ω) (effects : List Effect) : Generator :=
  ⟨w.className, w.scopes, effects⟩

end Work

namespace Job

variable [Output ω]

def plays (effects : List Effect) : Job ω Unit := fun w =>
  match Transcript.playOn w.records w.output effects with
  | (none, records, output) => some (.ok ((), { w with records, output }))
  | (some fault, records, output) => some (.error ⟨.io fault, records, output⟩)

theorem plays_append (x y : List Effect) :
    (plays (x ++ y) : Job ω Unit) = plays x >>= fun _ => plays y := by
  funext w
  rw [bind_apply, plays, plays, Transcript.playOn_append]
  rcases Transcript.playOn w.records w.output x with ⟨_ | fault, records, output⟩ <;> rfl

theorem plays_issued (command : Command) :
    (plays [.issued command] : Job ω Unit) = write command := by
  funext w
  rw [write_apply, plays, Transcript.playOn]
  rcases Output.issue w.output command with ⟨_ | fault, output⟩ <;> rfl

theorem plays_issued_cons (command : Command) (rest : List Effect) :
    (plays (.issued command :: rest) : Job ω Unit) = write command >>= fun _ => plays rest := by
  rw [← plays_issued, ← plays_append]
  rfl

/-- Playing effects leaves alone all that a pass knows. -/
theorem eq_of_plays {effects : List Effect} {w w' : Work ω}
    (h : plays effects w = some (.ok ((), w'))) :
    ∃ records output, w' = { w with records, output } := by
  rw [plays] at h
  split at h <;> cases h
  exact ⟨_, _, rfl⟩

/-- Whoever plays effects does not look at the names. -/
theorem plays_named {α : Type} (effects : List Effect) (f : Job ω α) (g : Generator) (w : Work ω) :
    (plays effects >>= fun _ => f) (w.named g) =
      (plays effects >>= fun _ w' => f (w'.named g)) w := by
  rw [bind_apply, bind_apply, plays, plays, Work.named]
  rcases Transcript.playOn w.records w.output effects with ⟨_ | fault, records, output⟩ <;> rfl

theorem plays_stop_named (effects : List Effect) (cause : Cause) (g : Generator) (w : Work ω) :
    (plays effects >>= fun _ => stop cause : Job ω Unit) (w.named g) =
      (plays effects >>= fun _ => stop cause : Job ω Unit) w :=
  plays_named effects (stop cause) g w

/-! ### Directives -/

/-- A job does what a generator lists, and knows the same names afterwards or ends with the same
failure. -/
def Comes (effects : List Effect) (w : Work ω) (y : Job ω Unit) :
    Generator.Outcome Generator → Prop
  | .ok g => ∃ new, g.effects = new.reverse ++ effects ∧ y w = plays new (w.named g)
  | .error (failure, g) => ∃ new, g.effects = new.reverse ++ effects ∧
      y w = (plays new >>= fun _ => stop (.failed failure)) w

variable {effects : List Effect} {w : Work ω}

theorem Comes.congr {y z : Job ω Unit} {outcome : Generator.Outcome Generator} (h : y w = z w)
    (hz : Comes effects w z outcome) : Comes effects w y outcome := by
  cases outcome with
  | ok g =>
    obtain ⟨new, hnew, hz⟩ := hz
    exact ⟨new, hnew, h.trans hz⟩
  | error stopped =>
    obtain ⟨new, hnew, hz⟩ := hz
    exact ⟨new, hnew, h.trans hz⟩

theorem Comes.bind_error {y z : Job ω Unit} {stopped : Failure × Generator}
    (hy : Comes effects w y (.error stopped)) :
    Comes effects w (y >>= fun _ => z) (.error stopped) := by
  obtain ⟨new, hnew, hstop⟩ := hy
  refine ⟨new, hnew, ?_⟩
  rw [bind_congr_left hstop, bind_assoc]
  rfl

/-- After a job that does what the generator lists comes one that does what is listed next. -/
theorem Comes.bind {y z : Job ω Unit} {next : Generator} {outcome : Generator.Outcome Generator}
    (hy : Comes effects w y (.ok next))
    (hz : ∀ w' : Work ω, w'.source = w.source →
      Comes next.effects (w'.named next) z outcome) :
    Comes effects w (y >>= fun _ => z) outcome := by
  obtain ⟨new, hnew, hplays⟩ := hy
  have hsame {later other rest : List Effect} (h : rest = later.reverse ++ next.effects)
      (hother : rest = other.reverse ++ next.effects) : other = later :=
    List.reverse_inj.1 ((List.append_left_inj _).1 (hother.symm.trans h))
  cases outcome with
  | ok last =>
    obtain ⟨later, hlater, -⟩ := hz w rfl
    refine ⟨new ++ later, ?_, ?_⟩
    · rw [hlater, hnew, List.reverse_append, List.append_assoc]
    · rw [bind_congr_left hplays, plays_named, plays_append, plays_named]
      refine bind_congr fun _ w' hw' => ?_
      obtain ⟨records, output, rfl⟩ := eq_of_plays hw'
      obtain ⟨other, hother, hrun⟩ := hz { w with records, output } rfl
      rw [hrun, hsame hlater hother]
      rfl
  | error stopped =>
    obtain ⟨later, hlater, -⟩ := hz w rfl
    refine ⟨new ++ later, ?_, ?_⟩
    · rw [hlater, hnew, List.reverse_append, List.append_assoc]
    · rw [bind_congr_left hplays, plays_named, plays_append, bind_assoc]
      refine bind_congr fun _ w' hw' => ?_
      obtain ⟨records, output, rfl⟩ := eq_of_plays hw'
      obtain ⟨other, hother, hrun⟩ := hz { w with records, output } rfl
      rw [hrun, hsame hlater hother, plays_stop_named]

theorem declare_comes (kind : VariableKind) (type name : String) (token : Token) :
    Comes effects w (declare kind type name token)
      ((w.generator effects).declare kind type name token) := by
  rw [Generator.declare, Work.generator]
  cases hdefine : w.scopes.define? name type kind with
  | some found =>
    refine ⟨[.logged _], rfl, ?_⟩
    rw [declare, get_bind, hdefine]
    rfl
  | none =>
    refine ⟨[], rfl, ?_⟩
    rw [declare, get_bind, hdefine]
    rfl

theorem call_comes (callee : String) (arguments before : Nat) (token : Token) :
    Comes effects w (call (callee, before) arguments token)
      ((w.generator effects).call callee (arguments + before) token) := by
  unfold call Generator.call
  dsimp only
  split
  · exact ⟨[.issued _], rfl, congrFun (plays_issued _).symm w⟩
  · exact ⟨[], rfl, rfl⟩

theorem push_comes (entry : Variable) :
    Comes effects w (push entry) (.ok ((w.generator effects).push entry)) :=
  ⟨[.issued _], rfl, congrFun (plays_issued _).symm w⟩

theorem openBody_comes (kind : SubroutineKind) (name : String) :
    Comes effects w (openBody kind name) (.ok ((w.generator effects).openBody kind name)) := by
  unfold openBody
  cases kind with
  | constructor =>
    refine ⟨[.issued _, .issued _, .issued _, .issued _], rfl, ?_⟩
    rw [qualify, bind_assoc, get_bind, pure_bind, get_bind, plays_issued_cons]
    refine bind_congr fun _ w' hw' => ?_
    -- The fields are counted after the first command, which declares none.
    have hscopes := (Keeps.write _ _ _ _ hw').2
    dsimp only
    rw [get_bind, hscopes, plays_issued_cons, plays_issued_cons, plays_issued]
    rfl
  | method =>
    refine ⟨[.issued _, .issued _, .issued _], rfl, ?_⟩
    rw [qualify, bind_assoc, get_bind, pure_bind, get_bind, plays_issued_cons, plays_issued_cons,
      plays_issued]
    rfl
  | function =>
    refine ⟨[.issued _], rfl, ?_⟩
    rw [qualify, bind_assoc, get_bind, pure_bind, get_bind, plays_issued]
    exact congrFun (bind_pure _) w

/-- What is played to append characters to a string. -/
def appends : List Char → List Effect
  | [] => []
  | c :: rest =>
    .issued (.push .constant c.toNat) :: .issued (.call "String.appendChar" 2) :: appends rest

theorem appendAll_eq (chars : List Char) :
    (appendAll chars : Job ω Unit) = plays (appends chars) := by
  induction chars with
  | nil => rfl
  | cons c rest ih =>
    rw [appendAll, ih, appends, plays_issued_cons, plays_issued_cons]

theorem foldl_appends (chars : List Char) (g : Generator) :
    chars.foldl (fun g c => (g.issue (.push .constant c.toNat)).issue (.call "String.appendChar" 2))
        g = { g with effects := (appends chars).reverse ++ g.effects } := by
  induction chars generalizing g with
  | nil => rfl
  | cons c rest ih =>
    rw [List.foldl_cons, ih, appends, List.reverse_cons, List.reverse_cons, List.append_assoc,
      List.append_assoc]
    rfl

theorem build_comes {string : Token}
    (hread : string.span.keptText? w.source = some string.text) :
    Comes effects w (build string) ((w.generator effects).build string) := by
  have htext : text string w = some (.ok (string.text, w)) := by
    rw [text_apply, hread, Option.map_some]
  rw [build, Generator.build]
  refine Comes.congr (bind_of_ok htext) ?_
  dsimp only
  cases string.text.toList.find? (0xFFFF < ·.toNat) with
  | some c => exact ⟨[], rfl, rfl⟩
  | none =>
    dsimp only
    by_cases hlength : string.text.toList.length ≤ maxInteger
    · rw [if_pos hlength, if_pos hlength]
      refine ⟨.issued (.push .constant string.text.toList.length) ::
        .issued (.call "String.new" 1) :: appends string.text.toList, ?_, ?_⟩
      · rw [foldl_appends, List.reverse_cons, List.reverse_cons, List.append_assoc,
          List.append_assoc]
        rfl
      · rw [foldl_appends, appendAll_eq, plays_issued_cons, plays_issued_cons]
        rfl
    · rw [if_neg hlength, if_neg hlength]
      exact ⟨[], rfl, rfl⟩

theorem receiver_comes (owner : Token) :
    Comes effects w (carry (.receiver owner))
      ((w.generator effects).perform (.receiver owner)) := by
  rw [Generator.perform, Work.generator]
  cases hlookup : w.scopes.lookup? owner.text with
  | some entry =>
    refine ⟨[.issued (.push entry.kind.segment entry.index)], rfl, ?_⟩
    rw [carry, receiver, bind_assoc, get_bind, hlookup, plays_issued]
    dsimp only
    rw [bind_assoc]
    exact congrFun (bind_pure _) w
  | none =>
    refine ⟨[], rfl, ?_⟩
    rw [carry, receiver, bind_assoc, get_bind, hlookup]
    rfl

theorem resolve_comes (name : Token) {f : Variable → Job ω Unit} {next : Variable → Generator}
    (h : ∀ entry, Comes effects w (f entry) (.ok (next entry))) :
    Comes effects w (resolve name >>= f) (((w.generator effects).resolve name).map next) := by
  rw [Generator.resolve, Work.generator]
  cases hlookup : w.scopes.lookup? name.text with
  | some entry =>
    obtain ⟨new, hnew, hf⟩ := h entry
    refine ⟨new, hnew, ?_⟩
    rw [bind_of_ok (resolve_of_some hlookup), hf]
  | none => exact ⟨[], rfl, bind_error (resolve_of_none hlookup)⟩

theorem invoke_comes (owner : Token) (member : String) (arguments : Nat) :
    Comes effects w (carry (.invoke owner member arguments))
      ((w.generator effects).perform (.invoke owner member arguments)) := by
  rw [Generator.perform]
  refine Comes.congr (get_bind _ w) ?_
  rw [Scopes.callee, Work.generator]
  cases w.scopes.lookup? owner.text with
  | some entry => exact call_comes _ arguments 1 owner
  | none => exact call_comes _ arguments 0 owner

/-- A directive that is carried out at once does what a generator lists for it. -/
theorem carry_comes (directive : Directive) (hread : directive.Readable w.source) :
    Comes effects w (carry directive) ((w.generator effects).perform directive) := by
  cases directive with
  | openClass name => exact ⟨[.logged _], rfl, rfl⟩
  | openSubroutine kind keyword =>
    cases kind with
    | method =>
      let later : Work ω := { w with scopes := w.scopes.startSubroutine }
      have hdeclare : Comes effects later (declare .argument w.className "this" keyword)
        ((w.generator effects).perform (.openSubroutine .method keyword)) :=
          declare_comes .argument w.className "this" keyword
      revert hdeclare
      cases (w.generator effects).perform (.openSubroutine .method keyword) with
      | ok g => exact id
      | error stopped =>
        rintro ⟨new, hnew, hstop⟩
        exact ⟨new, hnew, hstop.trans (plays_stop_named new _ (later.generator effects) w)⟩
    | _ => exact ⟨[], rfl, rfl⟩
  | nameSubroutine kind name => exact ⟨[.logged _], rfl, rfl⟩
  | openBody kind name => exact openBody_comes kind name
  | declare kind type name => exact declare_comes kind type name.text name
  | emit command => exact ⟨[.issued command], rfl, congrFun (plays_issued command).symm w⟩
  | require name => exact resolve_comes name fun entry => ⟨[], rfl, rfl⟩
  | load name => exact resolve_comes name push_comes
  | store name =>
    exact resolve_comes name fun entry => ⟨[.issued _], rfl, congrFun (plays_issued _).symm w⟩
  | build string => exact build_comes hread
  | receiver owner => exact receiver_comes owner
  | invoke owner member arguments => exact invoke_comes owner member arguments
  | invokeOwn method arguments => exact call_comes _ arguments 1 method

theorem carryAll_concat (directive : Directive) (rest : List Directive) :
    (carryAll (directive :: rest).reverse : Job ω Unit) =
      carry directive >>= fun _ => carryAll rest.reverse := by
  rw [List.reverse_cons, carryAll_append, carryAll_singleton]

/-- Directives that are carried out one by one do what a generator lists for them. -/
theorem carryAll_comes (directives : List Directive) (effects : List Effect) (w : Work ω)
    (hreads : Generator.Reads w.source (w.generator effects) directives) :
    Comes effects w (carryAll directives.reverse) ((w.generator effects).run directives) := by
  induction directives generalizing effects w with
  | nil => exact ⟨[], rfl, rfl⟩
  | cons directive rest ih =>
    obtain ⟨hread, hrest⟩ := hreads
    have hfirst : Comes effects w (carry directive) ((w.generator effects).perform directive) :=
      carry_comes directive hread
    rw [carryAll_concat, Generator.run_cons]
    cases hperform : (w.generator effects).perform directive with
    | error stopped => exact Comes.bind_error (hperform ▸ hfirst)
    | ok next =>
      refine Comes.bind (hperform ▸ hfirst) fun w' hsource => ?_
      have hreads := hrest next hperform
      rw [← hsource] at hreads
      exact ih next.effects (w'.named next) hreads

omit [Output ω] in
/-- A refusal whose text can be read is what a pass ends with. -/
theorem refuse_eq_stop {α : Type} {refusal : Refusal} (h : refusal.Readable w.source) :
    (refuse refusal : Job ω α) w = (stop (.failed (.refused refusal)) : Job ω α) w := by
  unfold refuse
  split
  · rename_i expected quoted token
    rw [bind_apply, text_apply, h expected quoted rfl]
    rfl
  · rfl

/-! ### Texts that are asked for -/

section Unfailing

variable {P : ω → Prop} (hP : Output.Unfailing P)

include hP

theorem plays_unfailing (effects : List Effect) {w : Work ω} (h : P w.output) :
    ∃ w', plays effects w = some (.ok ((), w')) ∧ P w'.output := by
  obtain ⟨records, output, hplay, houtput⟩ := Transcript.playOn_unfailing hP w.records h effects
  refine ⟨{ w with records, output }, ?_, houtput⟩
  rw [plays, hplay]

omit hP in
theorem readable_of_carry {directive : Directive} {w : Work ω}
    (hback : directive.ReadBack w.source) (h : carry directive w ≠ none) :
    directive.Readable w.source := by
  cases directive with
  | build string =>
    cases htext : string.span.keptText? w.source with
    | none =>
      refine absurd ?_ h
      rw [carry, build, bind_apply, text_apply, htext]
      rfl
    | some text =>
      exact htext.trans (congrArg some (hback text htext).symm)
  | _ => trivial

/-- A pass that is not kept from going on reads all texts that are asked for. -/
theorem reads_of_carryAll (directives : List Directive) (effects : List Effect) {w : Work ω}
    (hw : P w.output)
    (hback : ∀ directive ∈ directives, directive.ReadBack w.source)
    (h : carryAll directives.reverse w ≠ none) :
    Generator.Reads w.source (w.generator effects) directives := by
  induction directives generalizing effects w with
  | nil => trivial
  | cons directive rest ih =>
    obtain ⟨hfirst, hrest⟩ := List.forall_mem_cons.1 hback
    rw [carryAll_concat, bind_apply] at h
    have hread : directive.Readable w.source := by
      refine readable_of_carry hfirst fun hnone => h ?_
      rw [hnone]
    refine ⟨hread, fun next hperform => ?_⟩
    obtain ⟨new, hnew, hplays⟩ : Comes effects w (carry directive) (.ok next) :=
      hperform ▸ carry_comes directive hread
    obtain ⟨w', hw', hlater⟩ := plays_unfailing hP new (w := w.named next) hw
    rw [hplays, hw'] at h
    obtain ⟨records, output, rfl⟩ := eq_of_plays hw'
    exact ih next.effects hlater hrest h

end Unfailing

end Job

end Pass

end JackCompiler
