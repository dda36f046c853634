import JackCompiler.Proofs.AgendaReading

/-!
What stays true while a class is read. Goals and directives come from the goals before them and from
the tokens that these take, so what every goal hands on holds of all that is read, up to the end or
to the refusal. The name of the class comes before everything else.
-/

namespace JackCompiler

/-- What a goal does instead keeps to the properties of goals and directives. -/
def Fallback.All (D : Directive → Prop) (G : Goal → Prop) : Fallback → Prop
  | .goals others => ∀ other ∈ others, G other
  | .emit directive => D directive
  | .branch others => ∀ label, ∀ other ∈ others label, G other
  | .refuse _ => True

namespace Agenda

/-- What goals do with tokens that have the property `T` keeps to the properties. -/
structure HandsOn (T : Token → Prop) (D : Directive → Prop) (G : Goal → Prop) : Prop where
  next : ∀ {goal : Goal} {token : Token}, T token → goal.wants token.kind = true → G goal →
    ∀ other ∈ goal.next token, G other
  fallback : ∀ {goal : Goal}, G goal → goal.fallback.All D G

/-- All that is to be done, has been done and is still to be read has the properties. -/
structure All (T : Token → Prop) (D : Directive → Prop) (G : Goal → Prop) (a : Agenda) :
    Prop where
  goals : ∀ goal ∈ a.goals, G goal
  code : ∀ directive ∈ a.reading.code, D directive
  tokens : ∀ token ∈ a.reading.input.tokens, T token
  last : T a.reading.input.last

section Work

variable {T : Token → Prop} {D : Directive → Prop} {G : Goal → Prop} {limit : Option Nat}
  {a b : Agenda} {stop : Reading.Stop}

theorem Step.all (h : Step limit a b) (hands : HandsOn T D G) (ha : a.All T D G) :
    b.All T D G := by
  obtain ⟨hgoals, hcode, htokens, hlast⟩ := ha
  cases h with
  | take ktokens kkind kwants kfull =>
    obtain ⟨hgoal, hrest⟩ := List.forall_mem_cons.1 hgoals
    rw [ktokens] at htokens
    obtain ⟨htoken, hlater⟩ := List.forall_mem_cons.1 htokens
    have hnext := hands.next htoken kwants hgoal
    exact ⟨List.forall_mem_append.2 ⟨hnext, hrest⟩, hcode, hlater, hlast⟩
  | goals knot kgoals =>
    obtain ⟨hgoal, hrest⟩ := List.forall_mem_cons.1 hgoals
    have hfallback := hands.fallback hgoal
    rw [kgoals] at hfallback
    exact ⟨List.forall_mem_append.2 ⟨hfallback, hrest⟩, hcode, htokens, hlast⟩
  | emit kemit =>
    obtain ⟨hgoal, hrest⟩ := List.forall_mem_cons.1 hgoals
    have hfallback := hands.fallback hgoal
    rw [kemit] at hfallback
    exact ⟨hrest, List.forall_mem_cons.2 ⟨hfallback, hcode⟩, htokens, hlast⟩
  | branch kbranch =>
    obtain ⟨hgoal, hrest⟩ := List.forall_mem_cons.1 hgoals
    have hfallback := hands.fallback hgoal
    rw [kbranch] at hfallback
    exact ⟨List.forall_mem_append.2 ⟨hfallback _, hrest⟩, hcode, htokens, hlast⟩

theorem Reaches.all (h : Reaches limit a b) (hands : HandsOn T D G) (ha : a.All T D G) :
    b.All T D G := by
  induction h with
  | refl => exact ha
  | tail _ hstep ih => exact hstep.all hands ih

theorem headD_mem {tokens : List Token} {last : Token} (htokens : ∀ token ∈ tokens, T token)
    (hlast : T last) : T (tokens.headD last) := by
  cases tokens with
  | nil => exact hlast
  | cons token rest => exact htokens token List.mem_cons_self

/-- What is refused is one of the tokens. -/
theorem Refuses.token (h : Refuses limit a stop) (ha : a.All T D G) : T stop.refusal.token := by
  obtain ⟨-, -, htokens, hlast⟩ := ha
  cases h with
  | unexpected knot krefuse => exact headD_mem htokens hlast
  | full ktokens kkind kwants kfull =>
    rw [ktokens] at htokens
    exact headD_mem (List.forall_mem_cons.1 htokens).2 hlast

theorem Refuses.code_eq (h : Refuses limit a stop) : stop.code = a.reading.code := by
  cases h <;> rfl

/-! ### The name of the class -/

/-- Nothing has been done so far but to look for the name of the class, or that was done first. -/
def NamesClassFirst (a : Agenda) : Prop :=
  (a.reading.code = [] ∧
    (a.goals = [.token (.keyword .class_), .name .class_, .finish] ∨
      a.goals = [.name .class_, .finish] ∨
      ∃ name rest, a.goals = .act (.openClass name) :: rest)) ∨
  ∃ name, [.openClass name] <:+ a.reading.code

theorem Step.namesClassFirst (h : Step limit a b) (ha : a.NamesClassFirst) :
    b.NamesClassFirst := by
  have hsuffix : a.reading.code <:+ b.reading.code := Reaches.code_suffix (.single h)
  rcases ha with ⟨hcode, hgoals⟩ | ⟨name, hname⟩
  · cases h with
    | take ktokens kkind kwants kfull =>
      refine Or.inl ⟨hcode, ?_⟩
      rcases hgoals with heq | heq | ⟨name, rest, heq⟩ <;> cases heq
      · exact Or.inr (Or.inl rfl)
      · exact Or.inr (Or.inr ⟨_, _, rfl⟩)
      · cases kwants
    | goals knot kgoals =>
      rcases hgoals with heq | heq | ⟨name, rest, heq⟩ <;> cases heq <;> cases kgoals
    | emit kemit =>
      rcases hgoals with heq | heq | ⟨name, rest, heq⟩ <;> cases heq <;> cases kemit
      refine Or.inr ⟨name, [], Eq.symm ?_⟩
      exact congrArg (List.cons (Directive.openClass name)) hcode
    | branch kbranch =>
      rcases hgoals with heq | heq | ⟨name, rest, heq⟩ <;> cases heq <;> cases kbranch
  · exact Or.inr ⟨name, hname.trans hsuffix⟩

theorem Reaches.namesClassFirst (h : Reaches limit a b) (ha : a.NamesClassFirst) :
    b.NamesClassFirst := by
  induction h with
  | refl => exact ha
  | tail _ hstep ih => exact hstep.namesClassFirst ih

end Work

end Agenda

/-! ### Directives -/

namespace Reader

variable {reader : Reader}

/-- The directives are those of an agenda that is reached, and it is finished, or a refusal is one
of that agenda. -/
theorem directives_reached (h : reader.last.kind = .endOfFile) :
    ∃ a, Agenda.Reaches (some maxInteger) (.ofReading { input := reader }) a ∧
      reader.directives.1 = a.reading.code.reverse ∧
      (reader.directives.2 = none → Agenda.Finished a) ∧
      ∀ refusal ∈ reader.directives.2, ∃ stop, Agenda.Refuses (some maxInteger) a stop ∧
        stop.refusal = refusal := by
  let s : Reading := { input := reader }
  unfold directives
  split
  · rename_i t hread
    obtain ⟨hreaches, hend⟩ := Agenda.Answers.wholeClass_ok (s := s) h hread
    exact ⟨_, hreaches, rfl, fun _ => ⟨rfl, hend⟩, fun _ hmem => absurd hmem (by simp)⟩
  · rename_i stop hread
    obtain ⟨last, hreaches, hrefuses⟩ := Agenda.Answers.wholeClass_error (s := s) h hread
    refine ⟨last, hreaches, congrArg List.reverse hrefuses.code_eq,
      fun hnone => absurd hnone (by simp), ?_⟩
    rintro _ ⟨⟩
    exact ⟨stop, hrefuses, rfl⟩

/-- Whatever goals hand on holds of all directives, and the refused token is one of the text. -/
theorem directives_all {T : Token → Prop} {D : Directive → Prop} {G : Goal → Prop}
    (h : reader.last.kind = .endOfFile) (hands : Agenda.HandsOn T D G)
    (htokens : ∀ token ∈ reader.tokens, T token) (hlast : T reader.last)
    (hgoals : ∀ goal ∈ (Agenda.ofReading { input := reader }).goals, G goal) :
    (∀ directive ∈ reader.directives.1, D directive) ∧
      ∀ refusal ∈ reader.directives.2, T refusal.token := by
  obtain ⟨a, hreaches, hcode, -, hrefusal⟩ := directives_reached h
  have hall : a.All T D G :=
    hreaches.all hands ⟨hgoals, List.forall_mem_nil _, htokens, hlast⟩
  refine ⟨fun directive hmem => ?_, fun refusal hmem => ?_⟩
  · rw [hcode] at hmem
    exact hall.code directive (List.mem_reverse.1 hmem)
  · obtain ⟨stop, hrefuses, rfl⟩ := hrefusal refusal hmem
    exact hrefuses.token hall

/-- If there are any directives, the first one names the class. -/
theorem directives_head (h : reader.last.kind = .endOfFile) :
    reader.directives.1 = [] ∨ ∃ name rest, reader.directives.1 = .openClass name :: rest := by
  obtain ⟨a, hreaches, hcode, -⟩ := directives_reached h
  rw [hcode]
  rcases hreaches.namesClassFirst (Or.inl ⟨rfl, Or.inl rfl⟩) with ⟨hnone, -⟩ | ⟨name, later, heq⟩
  · exact Or.inl (congrArg List.reverse hnone)
  · refine Or.inr ⟨name, later.reverse, ?_⟩
    rw [← heq, List.reverse_append]
    rfl

end Reader

end JackCompiler
