import JackCompiler.Proofs.CheckedReading
import JackCompiler.Proofs.EarliestErrors
import JackCompiler.Proofs.Layout
import JackCompiler.Proofs.ScopeHistory

/-!
Compiling on the machine that checks. Of a source of fewer than 2 ^ 32 bytes the machine scans the
tokens, reads them and carries out their directives without anything out of range, and it ends with
what compiling delivers. So no offset, count or label is ever too large, and every text that is
looked at is a part of the source.
-/

namespace JackCompiler

/-! ### Writing -/

/-- The scopes are those that some actions lead to. -/
def Scopes.Made (scopes : Scopes) : Prop :=
  ∃ actions, (record actions).scopes = scopes

namespace Scopes.Made

variable {scopes : Scopes}

theorem perform (h : scopes.Made) (action : Action) : (scopes.perform action).2.Made := by
  obtain ⟨actions, rfl⟩ := h
  exact ⟨actions ++ [action], congrArg Recorded.scopes (record_append actions [action])⟩

theorem count_le (h : scopes.Made) (kind : VariableKind) : scopes.count kind ≤ maxInteger := by
  obtain ⟨actions, rfl⟩ := h
  exact (record_follows actions).fits kind

/-- The number of a variable is below the count of its kind. -/
theorem index_lt (h : scopes.Made) {name : String} {entry : Variable}
    (hentry : scopes.lookup? name = some entry) : entry.index < 2 ^ 16 := by
  have hcount := h.count_le entry.kind
  obtain ⟨actions, rfl⟩ := h
  obtain ⟨inClass, hbinding⟩ := exists_binding?_of_lookup? hentry
  have hindex := (record_sound actions).index_lt inClass name entry hbinding
  have hmax : maxInteger < 2 ^ 16 := by decide
  omega

end Scopes.Made

namespace Generator

/-- Names are counted up to the largest constant, and the commands have numbers of 16 bits. -/
structure InRange (g : Generator) : Prop where
  scopes : g.scopes.Made
  effects : ∀ effect ∈ g.effects, effect.isNarrow = true

variable {g g' : Generator}

theorem InRange.start : ({} : Generator).InRange :=
  ⟨⟨[], rfl⟩, List.forall_mem_nil _⟩

theorem InRange.isNarrow (h : g.InRange) : g.isNarrow = true := by
  have hmax : maxInteger < 2 ^ 16 := by decide
  rw [Generator.isNarrow, Bool.and_eq_true, List.all_eq_true, List.all_eq_true]
  exact ⟨fun kind _ => decide_eq_true (Nat.lt_of_le_of_lt (h.scopes.count_le kind) hmax),
    h.effects⟩

theorem InRange.issue (h : g.InRange) (command : Command) (hcommand : command.number < 2 ^ 16) :
    (g.issue command).InRange :=
  ⟨h.scopes, List.forall_mem_cons.2 ⟨decide_eq_true hcommand, h.effects⟩⟩

theorem InRange.log (h : g.InRange) (level : Level) (target message : String) :
    (g.log level target message).InRange :=
  ⟨h.scopes, List.forall_mem_cons.2 ⟨rfl, h.effects⟩⟩

theorem InRange.startSubroutine (h : g.InRange) :
    ({ g with scopes := g.scopes.startSubroutine } : Generator).InRange :=
  ⟨h.scopes.perform .startSubroutine, h.effects⟩

theorem InRange.declare (h : g.InRange) {kind : VariableKind} {type name : String}
    {token : Token} (hdeclare : g.declare kind type name token = .ok g') : g'.InRange := by
  have hmade := h.scopes.perform (.define ⟨kind, type, name⟩)
  rw [Scopes.perform] at hmade
  unfold Generator.declare at hdeclare
  split at hdeclare
  · rename_i index after hdefine
    cases hdeclare
    rw [hdefine] at hmade
    have hafter : ({ g with scopes := after } : Generator).InRange := ⟨hmade, h.effects⟩
    exact hafter.log _ _ _
  · cases hdeclare

theorem InRange.resolve (h : g.InRange) {name : Token} {entry : Variable}
    (hresolve : g.resolve name = .ok entry) : entry.index < 2 ^ 16 := by
  unfold Generator.resolve at hresolve
  split at hresolve
  · rename_i found hlookup
    cases hresolve
    exact h.scopes.index_lt hlookup
  · cases hresolve

theorem InRange.call (h : g.InRange) {callee : String} {arguments : Nat} {token : Token}
    (hcall : g.call callee arguments token = .ok g') : g'.InRange := by
  unfold Generator.call at hcall
  split at hcall
  · rename_i hfits
    cases hcall
    exact h.issue (.call callee arguments) (Nat.lt_of_le_of_lt hfits (by decide))
  · cases hcall

theorem InRange.append (h : g.InRange) {characters : List Char}
    (hstorable : ∀ c ∈ characters, c.toNat ≤ 0xFFFF) :
    (characters.foldl (fun g c =>
      (g.issue (.push .constant c.toNat)).issue (.call "String.appendChar" 2)) g).InRange := by
  induction characters generalizing g with
  | nil => exact h
  | cons c rest ih =>
    obtain ⟨hfirst, hrest⟩ := List.forall_mem_cons.1 hstorable
    have hpush := h.issue (.push .constant c.toNat) (Nat.lt_succ_of_le hfirst)
    exact ih (hpush.issue (.call "String.appendChar" 2) (by decide)) hrest

theorem InRange.build (h : g.InRange) {string : Token} (hbuild : g.build string = .ok g') :
    g'.InRange := by
  unfold Generator.build at hbuild
  dsimp only at hbuild
  split at hbuild
  · cases hbuild
  · rename_i hnone
    have hstorable : ∀ c ∈ string.text.toList, c.toNat ≤ 0xFFFF := by
      simpa using List.find?_eq_none.1 hnone
    split at hbuild
    · rename_i hlength
      cases hbuild
      have hpush := h.issue (.push .constant string.text.toList.length)
        (Nat.lt_of_le_of_lt hlength (by decide))
      exact (hpush.issue (.call "String.new" 1) (by decide)).append hstorable
    · cases hbuild

theorem InRange.push (h : g.InRange) {entry : Variable} (hindex : entry.index < 2 ^ 16) :
    (g.push entry).InRange :=
  h.issue (.push entry.kind.segment entry.index) hindex

theorem InRange.openBody (h : g.InRange) (kind : SubroutineKind) (name : String) :
    (g.openBody kind name).InRange := by
  have hcount : ∀ kind, g.scopes.count kind < 2 ^ 16 := fun kind =>
    Nat.lt_of_le_of_lt (h.scopes.count_le kind) (by decide)
  have hfunction := h.issue (.function (g.qualify name) _) (hcount .local_)
  cases kind with
  | constructor =>
    have hfields := hfunction.issue (.push .constant _) (hcount .field)
    exact (hfields.issue (.call "Memory.alloc" 1) (by decide)).issue (.pop .pointer 0) (by decide)
  | method =>
    exact (hfunction.issue (.push .argument 0) (by decide)).issue (.pop .pointer 0) (by decide)
  | function => exact hfunction

/-- Carrying out a directive whose numbers fit issues commands whose numbers fit. -/
theorem InRange.perform (h : g.InRange) {directive : Directive} (hdirective : directive.Narrow)
    (hperform : g.perform directive = .ok g') : g'.InRange := by
  have hmap : ∀ {name : Token} {f : Variable → Generator},
      (∀ entry : Variable, entry.index < 2 ^ 16 → (f entry).InRange) →
      (g.resolve name).map f = .ok g' → g'.InRange := by
    intro name f hf hok
    obtain ⟨entry, hresolve, rfl⟩ := eq_ok_of_map hok
    exact hf entry (h.resolve hresolve)
  cases directive with
  | openClass name =>
    cases hperform
    have hnamed : ({ g with className := name } : Generator).InRange := ⟨h.scopes, h.effects⟩
    exact hnamed.log _ _ _
  | openSubroutine kind keyword =>
    simp only [Generator.perform] at hperform
    split at hperform
    · exact h.startSubroutine.declare hperform
    · cases hperform
      exact h.startSubroutine
  | nameSubroutine kind name =>
    cases hperform
    exact h.log _ _ _
  | openBody kind name =>
    cases hperform
    exact h.openBody kind name
  | declare kind type name => exact h.declare hperform
  | emit command =>
    cases hperform
    exact h.issue command hdirective
  | require name => exact hmap (fun _ _ => h) hperform
  | load name => exact hmap (fun _ hindex => h.push hindex) hperform
  | store name =>
    exact hmap (fun entry hindex => h.issue (.pop entry.kind.segment entry.index) hindex) hperform
  | build string => exact h.build hperform
  | receiver owner =>
    simp only [Generator.perform] at hperform
    split at hperform
    · rename_i entry hlookup
      cases hperform
      exact h.push (h.scopes.index_lt hlookup)
    · cases hperform
      exact h
  | invoke owner member arguments =>
    simp only [Generator.perform] at hperform
    split at hperform <;> exact h.call hperform
  | invokeOwn method arguments => exact h.call hperform

end Generator

/-! ### Runs -/

namespace CheckedMachine

/-- The machine gets from one state to the other, with everything in range. -/
def Reaches (source : String) (device : Device) (machine last : CheckedMachine) : Prop :=
  ∃ n, run? source device n machine = some last

section Runs

variable {source : String} {device : Device} {machine between last : CheckedMachine}

theorem Reaches.refl : Reaches source device machine machine :=
  ⟨0, rfl⟩

theorem Reaches.head (h : machine.step? source device = some between)
    (k : Reaches source device between last) : Reaches source device machine last := by
  obtain ⟨n, hn⟩ := k
  refine ⟨n + 1, ?_⟩
  rw [run?, h]
  exact hn

theorem Reaches.trans (h : Reaches source device machine between)
    (k : Reaches source device between last) : Reaches source device machine last := by
  obtain ⟨n, hn⟩ := h
  induction n generalizing machine with
  | zero =>
    cases hn
    exact k
  | succ n ih =>
    rw [run?] at hn
    obtain ⟨next, hstep, hrest⟩ := Option.bind_eq_some_iff.1 hn
    exact .head hstep (ih hrest)

end Runs

/-- What comes after the scanning of a text, with the tokens found so far, latest first. -/
def scanned (device : Device) (found : List Token) :
    Except LexicalError (List Token) → CheckedMachine
  | .ok tokens => .read (found.reverse ++ tokens)
  | .error error => .ended (Transcript.deliver ⟨[], some (.lexical error)⟩ device)

theorem scanned_cons (device : Device) (found : List Token) (token : Token)
    (later : Except LexicalError (List Token)) :
    scanned device found (later.map (token :: ·)) = scanned device (token :: found) later := by
  cases later with
  | error error => rfl
  | ok tokens =>
    rw [scanned, List.reverse_cons, List.append_assoc]
    rfl

section Phases

variable {source : String} (device : Device) (hsize : source.utf8ByteSize < 2 ^ 32)

include hsize

/-- All tokens of the source are scanned, or else the first error ends the work. -/
theorem reaches_scanned {scanner : Scanner} (found : List Token) (h : scanner.At source) :
    Reaches source device (.scanning scanner found)
      (scanned device found scanner.tokensFrom) := by
  -- By induction on the text that is left, which every token but the last makes shorter.
  generalize hlength : scanner.rest.length = length
  induction length using Nat.strongRecOn generalizing scanner found with
  | ind length ih =>
    obtain ⟨hchecked, hafter⟩ := h.next? hsize
    cases hnext : scanner.next with
    | mk result after =>
      rw [hnext] at hchecked hafter
      cases result with
      | error error =>
        rw [Scanner.tokensFrom_of_error (congrArg Prod.fst hnext)]
        refine .head ?_ .refl
        rw [step?, hchecked]
        rfl
      | ok token =>
        by_cases hkind : token.kind = .endOfFile
        · rw [Scanner.tokensFrom_of_end (congrArg Prod.fst hnext) hkind, scanned,
            ← List.reverse_cons]
          refine .head ?_ .refl
          rw [step?, hchecked]
          exact if_pos hkind
        · have hend : ¬Scanner.isEnd (.ok token) := by simpa [Scanner.isEnd] using hkind
          have hshorter := Scanner.next_shorter hnext hend
          have hstep : step? source device (.scanning scanner found) =
              some (.scanning after (token :: found)) := by
            rw [step?, hchecked]
            exact if_neg hkind
          rw [Scanner.tokensFrom_of_token hnext hkind, scanned_cons]
          exact .head hstep (ih _ (hlength ▸ hshorter) (token :: found) hafter rfl)

variable {buffer : List Token} (hbuffer : Scanner.tokens source = .ok buffer)

include hbuffer

/-- The machine does all the work on an agenda that is in range. -/
theorem reaches_agenda {a b : Agenda} (h : Agenda.Reaches (some maxInteger) a b)
    (ha : a.InRange source buffer) :
    b.InRange source buffer ∧
      Reaches source device (.reading (a.buffered buffer)) (.reading (b.buffered buffer)) := by
  have hvalue : ∀ token ∈ buffer, ∀ value, token.kind = .integer value → value ≤ maxInteger := by
    intro token hmem value hkind
    obtain ⟨before, hnext⟩ := Scanner.next_of_mem_tokens hbuffer hmem
    exact Scanner.next_integer_le hnext hkind
  induction h with
  | refl => exact ⟨ha, .refl⟩
  | @tail b c _ hstep ih =>
    obtain ⟨hb, hreaches⟩ := ih
    have hc := hstep.inRange hvalue hb
    exact ⟨hc, hreaches.trans (.head (hstep.checked hsize hbuffer hb hc) .refl)⟩

/-- A failure at one of the tokens is put at its place. -/
theorem conclude?_eq (g : Generator) (failure : Option Failure)
    (h : ∀ cause ∈ failure, cause.token ∈ buffer) :
    conclude? source device g failure = some (.ended (Transcript.deliver
      ⟨g.effects.reverse, failure.map (Failure.locate source)⟩ device)) := by
  cases failure with
  | none => rfl
  | some cause =>
    have hlocate := Failure.locate?_eq hsize hbuffer (h cause rfl)
    rw [conclude?]
    change (((cause.locate? source).map some).bind _) = _
    rw [hlocate]
    rfl

end Phases

/-- What is left when directives have been carried out, with the failure that ended it: that of a
directive, or else the refusal. -/
def written (g : Generator) (directives : List Directive) (refusal : Option Refusal) :
    Generator × Option Failure :=
  match g.run directives with
  | .ok last => (last, refusal.map .refused)
  | .error (cause, last) => (last, some cause)

theorem written_cons (g : Generator) (directive : Directive) (rest : List Directive)
    (refusal : Option Refusal) :
    written g (directive :: rest) refusal = match g.perform directive with
      | .ok next => written next rest refusal
      | .error (cause, last) => (last, some cause) := by
  rw [written, Generator.run_cons]
  cases g.perform directive <;> rfl

/-- The machine carries out directives until one fails or all are done. -/
theorem reaches_written {source : String} {device : Device} {g : Generator} (hg : g.InRange)
    {directives : List Directive} (hdirectives : ∀ directive ∈ directives, directive.Narrow)
    {refusal : Option Refusal} {last : CheckedMachine}
    (h : conclude? source device (written g directives refusal).1
      (written g directives refusal).2 = some last) :
    Reaches source device (.writing g directives refusal) last := by
  induction directives generalizing g with
  | nil => exact .head h .refl
  | cons directive rest ih =>
    obtain ⟨hfirst, hrest⟩ := List.forall_mem_cons.1 hdirectives
    rw [written_cons] at h
    cases hperform : g.perform directive with
    | ok next =>
      rw [hperform] at h
      have hnext := hg.perform hfirst hperform
      have hstep : step? source device (.writing g (directive :: rest) refusal) =
          some (.writing next rest refusal) := by
        rw [step?, hperform]
        exact if_pos hnext.isNarrow
      exact .head hstep (ih hnext hrest h)
    | error stop =>
      obtain ⟨cause, after⟩ := stop
      rw [hperform] at h
      refine .head ?_ .refl
      rw [step?, hperform]
      exact h

theorem work_eq (reader : Reader) :
    reader.work =
      ((written {} reader.directives.1 reader.directives.2).1.effects.reverse,
        (written {} reader.directives.1 reader.directives.2).2) := by
  rw [Reader.work, written]
  cases ({} : Generator).run reader.directives.1 <;> rfl

/-- At the start of a source the agenda of a class is in range. -/
theorem inRange_ofReading {source : String} {reader : Reader}
    (hbuffer : Scanner.tokens source = .ok (reader.tokens ++ [reader.last])) :
    (Agenda.ofReading { input := reader }).InRange source (reader.tokens ++ [reader.last]) := by
  obtain ⟨pieces, hdivides, hfound⟩ := Scanner.pieces_of_tokens hbuffer
  have hbranches := two_mul_branches_le hdivides hfound
  rw [← utf8ByteSize_eq, List.countP_append] at hbranches
  refine ⟨List.suffix_refl _, ?_, List.forall_mem_nil _, ?_⟩
  · simp [Agenda.ofReading, Goal.Narrow]
  · have hnone : (Agenda.ofReading { input := reader }).goals.countP Goal.branches = 0 := rfl
    rw [Agenda.labelBound, hnone]
    change 0 + 2 * 0 + 2 * reader.tokens.countP _ ≤ _
    omega

/-- The buffer is read from its start. -/
theorem read_eq (reader : Reader) :
    read (reader.tokens ++ [reader.last]) =
      .reading ((Agenda.ofReading { input := reader }).buffered
        (reader.tokens ++ [reader.last])) := by
  have hposition : (reader.tokens ++ [reader.last]).length - (reader.tokens.length + 1) = 0 := by
    rw [List.length_append, List.length_singleton, Nat.sub_self]
  rw [read, Agenda.buffered]
  exact congrArg (fun position => CheckedMachine.reading
    { buffer := reader.tokens ++ [reader.last], position
      goals := [.token (.keyword .class_), .name .class_, .finish] }) hposition.symm

/-- The tokens of the source are read, up to their end or to the refusal of one of them. -/
theorem reaches_directives {source : String} (device : Device)
    (hsize : source.utf8ByteSize < 2 ^ 32) {reader : Reader}
    (hlast : reader.last.kind = .endOfFile)
    (hbuffer : Scanner.tokens source = .ok (reader.tokens ++ [reader.last])) :
    (∀ directive ∈ reader.directives.1, directive.Narrow) ∧
      Reaches source device (.read (reader.tokens ++ [reader.last]))
        (.writing {} reader.directives.1 reader.directives.2) := by
  obtain ⟨a, hreaches, hcode, hfinished, hrefused⟩ := Reader.directives_reached hlast
  obtain ⟨ha, hread⟩ := reaches_agenda device hsize hbuffer hreaches (inRange_ofReading hbuffer)
  have hstep : (a.buffered (reader.tokens ++ [reader.last])).step? source =
      some (.writing {} reader.directives.1 reader.directives.2) := by
    cases hrefusal : reader.directives.2 with
    | none =>
      rw [(hfinished hrefusal).checked hsize hbuffer ha, hcode]
      rfl
    | some refusal =>
      obtain ⟨stop, hrefuses, rfl⟩ := hrefused refusal hrefusal
      rw [hrefuses.checked hsize hbuffer ha, hcode]
      rfl
  refine ⟨fun directive hmem => ?_, ?_⟩
  · rw [hcode] at hmem
    exact ha.code directive (List.mem_reverse.1 hmem)
  · rw [read_eq]
    exact hread.trans (.head hstep .refl)

end CheckedMachine

/-- Of a source of fewer than 2 ^ 32 bytes, and for every device, the machine ends with what
compiling delivers, and nothing is out of range on the way. -/
theorem compile_in_range (source : String) (hsize : source.utf8ByteSize < 2 ^ 32)
    (device : Device) :
    ∃ n, CheckedMachine.run? source device n (.start source) =
      some (.ended ((compile source).deliver device)) := by
  have hscanned := CheckedMachine.reaches_scanned device hsize [] (.start source)
  change CheckedMachine.Reaches source device (.start source)
    (CheckedMachine.scanned device [] (Scanner.tokens source)) at hscanned
  cases htokens : Scanner.tokens source with
  | error error =>
    rw [htokens] at hscanned
    rw [compile_lexical htokens]
    exact hscanned
  | ok tokens =>
    rw [htokens] at hscanned
    obtain ⟨reader, hreader, ⟨hlast, -⟩, rfl⟩ := Reader.proper_ofSource htokens
    obtain ⟨hnarrow, hread⟩ := CheckedMachine.reaches_directives device hsize hlast htokens
    have hfailure : ∀ cause ∈ reader.work.2, cause.token ∈ reader.tokens ++ [reader.last] :=
      fun cause hcause => (reader.work_readFrom hlast
        (fun token hmem => List.mem_append_left _ hmem) (by simp) cause hcause).token
    rw [compile_eq_work hreader]
    rw [CheckedMachine.work_eq] at hfailure ⊢
    refine hscanned.trans (hread.trans (CheckedMachine.reaches_written .start hnarrow ?_))
    exact CheckedMachine.conclude?_eq device hsize htokens _ _ hfailure

theorem compile_in_range_commentedText :
    commentedText.utf8ByteSize < 2 ^ 32 ∧
      ∃ n, CheckedMachine.run? commentedText {} n (.start commentedText) =
        some (.ended ((compile commentedText).deliver {})) := by
  have hsize : commentedText.utf8ByteSize < 2 ^ 32 := by decide +kernel
  exact ⟨hsize, compile_in_range commentedText hsize {}⟩

end JackCompiler
