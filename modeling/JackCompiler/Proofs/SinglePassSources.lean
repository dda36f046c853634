import JackCompiler.Proofs.KeptTokens
import JackCompiler.Proofs.Layout
import JackCompiler.Proofs.SinglePassTranscript

/-!
Compiling in a single pass, from a text to an output. The pass onto any output is one transcript
that is played on it. In a text of fewer than `2 ^ 32` bytes it is the transcript of compiling; in
any text it is that of the tokens that are kept, unless the pass asks for a text where none is.
-/

namespace JackCompiler

/-- The token stands in the source where it says, in numbers of 32 bits. -/
def Token.Stands (source : String) (token : Token) : Prop :=
  token.span.keptText? source = some token.text ∧
    (position? source (min token.span.index source.utf8ByteSize)).isSome = true

/-- The token of the failure is at a place between two characters. -/
def Failure.Placed (source : String) : Failure → Prop
  | .refused refusal =>
    (position? source (min refusal.token.span.index source.utf8ByteSize)).isSome = true
  | .undefinedName _ => True

/-- The source has all that is asked of it, when the tokens of the reader are compiled. -/
structure Reader.Readable (reader : Reader) : Prop where
  texts : Generator.Reads reader.source {} reader.directives.1
  refused : (({} : Generator).run reader.directives.1).isOk = true →
    ∀ refusal ∈ reader.directives.2, refusal.Readable reader.source
  placed : ∀ failure ∈ reader.work.2, failure.Placed reader.source

/-- The tokens of the reader are those that are kept of its source. -/
structure Reader.Keeps (reader : Reader) : Prop where
  tokens : Scanner.keptTokens? reader.source = some (.ok (reader.tokens ++ [reader.last]))
  last : reader.last.kind = .endOfFile

/-- The tokens of the reader are compiled to this. -/
def Reader.transcript (reader : Reader) : Transcript :=
  ⟨reader.work.1, reader.work.2.map (Failure.locate reader.source)⟩

namespace Pass

variable {ω : Type}

open Job

variable [Output ω]

/-- The pass over the tokens of a reader. -/
def run (reader : Reader) (output : ω) : Option (Except (Stop ω) ((Unit × Place) × Work ω)) :=
  Rule.wholeClass.pass { input := reader } { source := reader.source, output }

/-- The pass carries out the directives of the class, and then what refuses a token is refused. -/
theorem run_eq {reader : Reader} (h : reader.last.kind = .endOfFile) (output : ω) :
    ∃ place, run reader output =
      (carryAll reader.directives.1.reverse >>= fun _ =>
        match reader.directives.2 with
        | none => pure ((), place)
        | some refusal => refuse refusal) { source := reader.source, output } := by
  let s : Reading := { input := reader }
  let w : Work ω := { source := reader.source, output }
  have hruns := (Rule.wholeClass.implements s : Implements ω .wholeClass s) h |>.runs
  cases hread : s.wholeClass with
  | ok t =>
    have hdirectives : reader.directives = (t.code.reverse, none) := by
      rw [Reader.directives, hread]
    have houtcome : Rule.wholeClass.read s = .ok (t, 0) := by
      rw [Rule.read, hread]
      rfl
    rw [houtcome] at hruns
    rw [hdirectives, List.reverse_reverse]
    exact ⟨.of t, hruns t.code (List.append_nil _).symm w fun _ => trivial⟩
  | error stop =>
    have hdirectives : reader.directives = (stop.code.reverse, some stop.refusal) := by
      rw [Reader.directives, hread]
    have houtcome : Rule.wholeClass.read s = .error stop := by
      rw [Rule.read, hread]
      rfl
    rw [houtcome] at hruns
    rw [hdirectives, List.reverse_reverse]
    exact ⟨.of s, hruns stop.code (List.append_nil _).symm w fun _ => trivial⟩

/-- What a pass over the tokens of a reader comes to, if the source has all that is asked of it. -/
theorem run_plays {reader : Reader} (h : reader.last.kind = .endOfFile)
    (htexts : Generator.Reads reader.source {} reader.directives.1)
    (hrefused : (({} : Generator).run reader.directives.1).isOk = true →
      ∀ refusal ∈ reader.directives.2, refusal.Readable reader.source) (output : ω) :
    ∃ place g, run reader output =
      (plays reader.work.1 >>= fun _ =>
        match reader.work.2 with
        | none => pure ((), place)
        | some failure => stop (.failed failure))
          (({ source := reader.source, output } : Work ω).named g) := by
  let w : Work ω := { source := reader.source, output }
  obtain ⟨place, hclass⟩ := run_eq h output
  have hcomes : Comes [] w (carryAll reader.directives.1.reverse)
      (({} : Generator).run reader.directives.1) := carryAll_comes _ [] w htexts
  refine ⟨place, ?_⟩
  rw [hclass, Reader.work]
  cases hrun : ({} : Generator).run reader.directives.1 with
  | ok g =>
    rw [hrun] at hcomes hrefused
    obtain ⟨new, hnew, hplays⟩ := hcomes
    refine ⟨g, ?_⟩
    rw [bind_congr_left hplays]
    simp only [hnew, List.append_nil, List.reverse_reverse]
    refine bind_congr fun _ w' hw' => ?_
    obtain ⟨records, output', rfl⟩ := eq_of_plays hw'
    cases hrefusal : reader.directives.2 with
    | none => rfl
    | some refusal => exact refuse_eq_stop (hrefused rfl refusal hrefusal)
  | error stopped =>
    rw [hrun] at hcomes
    obtain ⟨failure, g⟩ := stopped
    obtain ⟨new, hnew, hstop⟩ := hcomes
    refine ⟨w.generator [], ?_⟩
    rw [bind_congr_left hstop, bind_assoc]
    simp only [hnew, List.append_nil, List.reverse_reverse]
    rfl

theorem compile_of_keeps {reader : Reader} (h : reader.Keeps) (output : ω) :
    compile reader.source output =
      match run reader output with
      | none => none
      | some (.ok (_, work)) =>
        some ⟨work.output, work.records.reverse, (Output.flush work.output).map .io⟩
      | some (.error stop) => (stop.cause.locate? reader.source).map fun failure =>
        ⟨stop.output, stop.records.reverse, some failure⟩ := by
  have hreader := Reader.ofTokens_append_singleton reader.source reader.tokens h.last
  rw [compile, h.tokens]
  simp only [Option.bind_eq_bind, Option.bind_some, hreader]
  rw [← run.eq_1]
  rcases run reader output with _ | ⟨stop | found⟩
  · rfl
  · cases hlocate : stop.cause.locate? reader.source <;> simp [hlocate]
  · rfl

theorem locate?_eq {source : String} {failure : Failure} (h : failure.Placed source) :
    (Cause.failed failure).locate? source = some (failure.locate source) := by
  cases failure with
  | undefinedName name => rfl
  | refused refusal =>
    obtain ⟨position, hposition⟩ := Option.isSome_iff_exists.1 h
    simp [Cause.locate?, hposition]

theorem placed_of_locate? {source : String} {failure : Failure} {diagnostic : Diagnostic}
    (h : (Cause.failed failure).locate? source = some diagnostic) : failure.Placed source := by
  cases failure with
  | undefinedName name => trivial
  | refused refusal =>
    obtain ⟨position, hposition, -⟩ := Option.bind_eq_some_iff.1 h
    exact Option.isSome_iff_exists.2 ⟨position, hposition⟩

/-- Compiling onto an output is playing the transcript on it, if the source has all that is asked
of it. -/
theorem compile_of_readable {reader : Reader} (h : reader.Keeps) (hreadable : reader.Readable)
    (output : ω) :
    compile reader.source output = some (reader.transcript.deliverOn output) := by
  obtain ⟨place, g, hclass⟩ :=
    run_plays h.last hreadable.texts hreadable.refused output
  have hplaced := hreadable.placed
  rw [compile_of_keeps h, hclass, Job.bind_apply, plays, Work.named, Transcript.deliverOn,
    Reader.transcript]
  rcases Transcript.playOn [] output reader.work.1 with ⟨_ | fault, records, after⟩
  · cases hfailure : reader.work.2 with
    | none => rfl
    | some failure =>
      have hlocate := locate?_eq (hplaced failure hfailure)
      dsimp only
      change Option.map _ ((Cause.failed failure).locate? reader.source) = _
      rw [hlocate]
      rfl
  · rfl

end Pass

/-! ### Sources that have all that is asked of them -/

theorem Generator.reads_of_forall {source : String}
    {directives : List Directive} (h : ∀ directive ∈ directives, directive.Readable source)
    (g : Generator) : Generator.Reads source g directives := by
  induction directives generalizing g with
  | nil => trivial
  | cons directive rest ih =>
    obtain ⟨hfirst, hrest⟩ := List.forall_mem_cons.1 h
    exact ⟨hfirst, fun next _ => ih hrest next⟩

namespace Reader

variable {reader : Reader}

/-- A refusal quotes its own token. -/
theorem quotes_of_refusal (h : reader.last.kind = .endOfFile) {refusal : Refusal}
    (hmem : refusal ∈ reader.directives.2) {expected text : String} {kind : TokenKind}
    (hfault : refusal.fault = .unexpected expected kind text) :
    refusal.token.kind = kind ∧ refusal.token.text = text := by
  obtain ⟨a, -, -, -, hrefused⟩ := directives_reached h
  obtain ⟨stop, hrefuses, rfl⟩ := hrefused refusal hmem
  cases hrefuses with
  | unexpected hnot hrefuse =>
    cases hfault
    exact ⟨rfl, rfl⟩
  | full htokens hkind hwants hfull => cases hfault

theorem readable_of_stands (h : reader.last.kind = .endOfFile)
    (htokens : ∀ token ∈ reader.tokens, Token.Stands reader.source token)
    (hlast : Token.Stands reader.source reader.last) : reader.Readable := by
  obtain ⟨hdirectives, hrefusal⟩ := directives_readFrom h htokens hlast
  refine ⟨?_, fun _ refusal hmem expected text hfault => ?_, fun failure hmem => ?_⟩
  · refine Generator.reads_of_forall (fun directive hmem => ?_) {}
    have hread := hdirectives directive hmem
    cases directive with
    | build string => exact hread.1.1
    | _ => trivial
  · obtain ⟨-, rfl⟩ := quotes_of_refusal h hmem hfault
    exact (hrefusal refusal hmem).1
  · have hread := reader.work_readFrom h htokens hlast failure hmem
    cases failure with
    | refused refusal => exact hread.2
    | undefinedName name => trivial

end Reader

/-- In a source of fewer than `2 ^ 32` bytes every token stands where it says. -/
theorem stands_of_tokens {source : String} (hsize : source.utf8ByteSize < 2 ^ 32)
    {tokens : List Token} (h : Scanner.tokens source = .ok tokens) {token : Token}
    (hmem : token ∈ tokens) : token.Stands source := by
  obtain ⟨before, after, hsource, hindex⟩ := Token.exists_place h hmem
  refine ⟨(Span.kept_of_fragment? hsize (Scanner.fragments_of_tokens h token hmem)).2, ?_⟩
  obtain ⟨position, hposition, -⟩ := position?_append hsource
  rw [Span.min_index hsource hindex, ← hindex, hposition]
  rfl

namespace Pass

open Job

variable {ω : Type} [Output ω]

/-- Of a source of fewer than `2 ^ 32` bytes, compiling onto an output is playing on it what
compiling comes to. -/
theorem compile_eq_deliverOn {source : String} (hsize : source.utf8ByteSize < 2 ^ 32) (output : ω) :
    compile source output = some ((JackCompiler.compile source).deliverOn output) := by
  have hkept := Scanner.keptTokens?_eq hsize
  cases htokens : Scanner.tokens source with
  | error error =>
    rw [compile, hkept, htokens, compile_lexical htokens]
    rfl
  | ok tokens =>
    obtain ⟨earlier, last, rfl, hlast, -⟩ := Scanner.tokens_end htokens
    let reader : Reader := ⟨source, earlier, last⟩
    have hreader : Reader.ofSource source = .ok reader := by
      rw [Reader.ofSource, htokens]
      exact congrArg Except.ok (Reader.ofTokens_append_singleton source earlier hlast)
    have hkeeps : reader.Keeps := ⟨hkept.trans (congrArg some htokens), hlast⟩
    have hstands (token : Token) (hmem : token ∈ earlier ++ [last]) : token.Stands source :=
      stands_of_tokens hsize htokens hmem
    rw [compile_eq_work hreader]
    have hreadable := reader.readable_of_stands hlast
      (fun token hmem => hstands token (List.mem_append_left _ hmem)) (hstands last (by simp))
    exact compile_of_readable hkeeps hreadable output

/-! ### Sources of any size -/

omit [Output ω] in
theorem readable_of_refuse {α : Type} {refusal : Refusal} {w : Work ω}
    (hback : refusal.token.ReadBack w.source)
    (hquotes : ∀ expected text, refusal.fault = .unexpected expected .string text →
      refusal.token.kind = .string ∧ refusal.token.text = text)
    (h : (Job.refuse refusal : Job ω α) w ≠ none) : refusal.Readable w.source := by
  intro expected quoted hfault
  obtain ⟨fault, token⟩ := refusal
  obtain rfl : fault = _ := hfault
  obtain ⟨hkind, htext⟩ := hquotes expected quoted rfl
  cases hspan : token.span.keptText? w.source with
  | none =>
    refine absurd ?_ h
    rw [Job.refuse, Job.bind_apply, Job.text_apply, hspan]
    rfl
  | some text =>
    rw [← htext, hback hkind text hspan]

section Unfailing

variable {P : ω → Prop} (hP : Output.Unfailing P)

include hP

/-- If compiling onto an output that never fails comes to an end, the source has all that is asked
of it. -/
theorem readable_of_compile {reader : Reader} (h : reader.Keeps)
    (hback : ∀ token ∈ reader.tokens, token.ReadBack reader.source) {output : ω}
    (houtput : P output) {whole : Result ω} (hwhole : compile reader.source output = some whole) :
    reader.Readable := by
  have hlast : reader.last.ReadBack reader.source := fun hkind => by
    rw [h.last] at hkind
    cases hkind
  obtain ⟨hdirectives, hrefusal⟩ := reader.directives_readFrom h.last hback hlast
  rw [compile_of_keeps h] at hwhole
  let w : Work ω := { source := reader.source, output }
  obtain ⟨place, hclass⟩ := run_eq h.last output
  have hsome : run reader output ≠ none := by
    intro hnone
    rw [hnone] at hwhole
    cases hwhole
  have htexts : Generator.Reads reader.source {} reader.directives.1 := by
    refine reads_of_carryAll hP reader.directives.1 [] (w := w) houtput ?_ fun hnone => hsome ?_
    · intro directive hmem
      have hread := hdirectives directive hmem
      cases directive with
      | build string => exact hread.1 hread.2
      | _ => trivial
    · rw [hclass, Job.bind_apply, hnone]
  have hrefused : (({} : Generator).run reader.directives.1).isOk = true →
      ∀ refusal ∈ reader.directives.2, refusal.Readable reader.source := by
    intro hok refusal hmem
    have hcomes : Comes [] w (carryAll reader.directives.1.reverse)
      (({} : Generator).run reader.directives.1) := carryAll_comes _ [] w htexts
    cases hrun : ({} : Generator).run reader.directives.1 with
    | error stopped =>
      rw [hrun] at hok
      cases hok
    | ok g =>
      rw [hrun] at hcomes
      obtain ⟨new, -, hplays⟩ := hcomes
      obtain ⟨w', hw', -⟩ := plays_unfailing hP new (w := w.named g) houtput
      rw [hclass, Job.bind_apply, hplays, hw', hmem] at hsome
      obtain ⟨records, output, rfl⟩ := eq_of_plays hw'
      exact readable_of_refuse (hrefusal refusal hmem)
        (fun expected text hfault => reader.quotes_of_refusal h.last hmem hfault) hsome
  refine ⟨htexts, hrefused, fun failure hmem => ?_⟩
  obtain ⟨place', g, hclass'⟩ := run_plays h.last htexts hrefused output
  obtain ⟨w', hw', -⟩ := plays_unfailing hP reader.work.1 (w := w.named g) houtput
  rw [hclass', Job.bind_apply, hw', hmem] at hwhole
  obtain ⟨diagnostic, hlocate, -⟩ := Option.map_eq_some_iff.1 hwhole
  exact placed_of_locate? hlocate

end Unfailing

/-- The pass over the source is this transcript, on every output. -/
def Transcribes (source : String) (transcript : Transcript) : Prop :=
  ∀ (ω : Type) [Output ω] (output : ω),
    compile source output = some (transcript.deliverOn output)

theorem transcribes_compile {source : String} (hsize : source.utf8ByteSize < 2 ^ 32) :
    Transcribes source (JackCompiler.compile source) :=
  fun _ _ output => compile_eq_deliverOn hsize output

theorem transcribes_of_error {source : String} {error : LexicalError}
    (h : Scanner.keptTokens? source = some (.error error)) :
    Transcribes source ⟨[], some (.lexical error)⟩ := by
  intro ω _ output
  rw [compile, h]
  rfl

/-- If the pass onto an output that never fails comes to an end, it is a transcript, on every
output. -/
theorem exists_transcribes {P : ω → Prop} (hP : Output.Unfailing P) {output : ω}
    (houtput : P output) {source : String} {whole : Result ω}
    (h : compile source output = some whole) :
    ∃ transcript, Transcribes source transcript ∧
      ((∃ error, Scanner.keptTokens? source = some (.error error) ∧
        transcript = ⟨[], some (.lexical error)⟩) ∨
      ∃ reader : Reader, reader.source = source ∧ reader.Keeps ∧ transcript = reader.transcript ∧
        ∀ token ∈ reader.tokens, token.kind ≠ .endOfFile ∧ token.Spelled) := by
  cases hkept : Scanner.keptTokens? source with
  | none =>
    rw [compile, hkept] at h
    cases h
  | some result =>
    cases result with
    | error error =>
      exact ⟨_, transcribes_of_error hkept, .inl ⟨error, rfl, rfl⟩⟩
    | ok tokens =>
      obtain ⟨earlier, last, rfl, hlast, hearlier⟩ := Scanner.keptTokensFrom_end hkept
      let reader : Reader := ⟨source, earlier, last⟩
      have hkeeps : reader.Keeps := ⟨hkept, hlast⟩
      have hreadable := readable_of_compile hP hkeeps
        (fun token hmem => (hearlier token hmem).2.2) houtput h
      exact ⟨_, fun _ _ output => compile_of_readable hkeeps hreadable output, .inr ⟨reader, rfl,
        hkeeps, rfl, fun token hmem => ⟨(hearlier token hmem).1, (hearlier token hmem).2.1⟩⟩⟩

end Pass

end JackCompiler
