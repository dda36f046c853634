import JackCompiler.Proofs.Acceptance
import JackCompiler.Proofs.Labels

/-!
Subroutines do not depend on each other. A class with two groups of subroutines compiles exactly if
it compiles with each of the groups alone, and its code is that of the groups one after the other.
All that the second group learns of the first is how many labels are taken.
-/

namespace JackCompiler

/-- The name of the label whose number is `n` higher. -/
def raiseLabel (n : Nat) (name : String) : String :=
  labelName ((String.ofList (name.toList.drop 1)).toNat?.getD 0 + n)

theorem raiseLabel_labelName (n m : Nat) : raiseLabel n (labelName m) = labelName (m + n) := by
  have hnumber : String.ofList ((labelName m).toList.drop 1) = toString m := by
    rw [labelName, String.toList_append]
    exact String.ofList_toList
  rw [raiseLabel, hnumber, show (toString m).toNat? = some m from Nat.toNat?_repr m,
    Option.getD_some]

namespace Command

/-- The command with the number of its label raised by `n`, if it is a label or a jump. -/
def raiseLabel (n : Nat) : Command → Command
  | label name => label (JackCompiler.raiseLabel n name)
  | goto name => goto (JackCompiler.raiseLabel n name)
  | ifGoto name => ifGoto (JackCompiler.raiseLabel n name)
  | command => command

theorem raiseLabel_straight {command : Command} (n : Nat) (h : command.isStraight = true) :
    command.raiseLabel n = command := by
  cases command <;> first | rfl | cases h

end Command

/-- The code with the numbers of all its labels raised by `n`. -/
def raiseLabels (n : Nat) (code : List Command) : List Command :=
  code.map (Command.raiseLabel n)

theorem raiseLabels_append (n : Nat) (x y : List Command) :
    raiseLabels n (x ++ y) = raiseLabels n x ++ raiseLabels n y :=
  List.map_append

theorem raiseLabels_cons (n : Nat) (command : Command) (rest : List Command) :
    raiseLabels n (command :: rest) = command.raiseLabel n :: raiseLabels n rest :=
  rfl

theorem AllStraight.raiseLabels_eq {code : List Command} (n : Nat) (h : AllStraight code) :
    raiseLabels n code = code :=
  (List.map_congr_left fun command hmem => Command.raiseLabel_straight n (h command hmem)).trans
    (List.map_id code)

namespace Tree

/-! ### The number of the first choice or loop -/

/-- The labels of a choice or loop that comes `j` later. -/
theorem raiseLabel_branch (j k : Nat) :
    raiseLabel (2 * j) (labelName (2 * k)) = labelName (2 * (k + j)) ∧
      raiseLabel (2 * j) (labelName (2 * k + 1)) = labelName (2 * (k + j) + 1) := by
  rw [raiseLabel_labelName, raiseLabel_labelName, Nat.mul_add, Nat.add_right_comm]
  exact ⟨rfl, rfl⟩

mutual

theorem Statement.code_raise (c : Context) (j k : Nat) (x : Statement) :
    x.code c (k + j) = raiseLabels (2 * j) (x.code c k) := by
  obtain ⟨hfirst, hsecond⟩ := raiseLabel_branch j k
  cases x with
  | assign name value => exact ((assign_straight c k name value).raiseLabels_eq _).symm
  | assignElement array index value =>
    exact ((assignElement_straight c k array index value).raiseLabels_eq _).symm
  | choice condition body =>
    have hbody := body.code_raise c j (k + 1)
    rw [Nat.add_right_comm] at hbody
    simp only [Statement.code, raiseLabels_append, raiseLabels_cons, Command.raiseLabel,
      (condition.code_straight c).raiseLabels_eq, hfirst, hsecond, hbody]
    rfl
  | choiceElse condition body otherwise =>
    have hbody := body.code_raise c j (k + 1)
    have hotherwise := otherwise.code_raise c j (k + 1 + body.branches)
    rw [Nat.add_right_comm] at hbody
    rw [Nat.add_right_comm, Nat.add_right_comm k] at hotherwise
    simp only [Statement.code, raiseLabels_append, raiseLabels_cons, Command.raiseLabel,
      (condition.code_straight c).raiseLabels_eq, hfirst, hsecond, hbody, hotherwise]
    rfl
  | loop condition body =>
    have hbody := body.code_raise c j (k + 1)
    rw [Nat.add_right_comm] at hbody
    simp only [Statement.code, raiseLabels_append, raiseLabels_cons, Command.raiseLabel,
      (condition.code_straight c).raiseLabels_eq, hfirst, hsecond, hbody]
    rfl
  | invoke call => exact ((invoke_straight c k call).raiseLabels_eq _).symm
  | returnNothing => rfl
  | returnValue value =>
    simp only [Statement.code, raiseLabels_append, (value.code_straight c).raiseLabels_eq]
    rfl
termination_by structural x

theorem Statements.code_raise (c : Context) (j k : Nat) (x : Statements) :
    x.code c (k + j) = raiseLabels (2 * j) (x.code c k) := by
  cases x with
  | nil => rfl
  | cons first rest =>
    have hrest := rest.code_raise c j (k + first.branches)
    rw [Nat.add_right_comm] at hrest
    rw [Statements.code, first.code_raise c j k, hrest, Statements.code, raiseLabels_append]
termination_by structural x

end

theorem prologue_straight (fields : Nat) (kind : SubroutineKind) :
    AllStraight (prologue fields kind) := by
  cases kind <;> simp [prologue, AllStraight, Command.isStraight]

theorem Subroutine.code_raise (c : Context) (j k : Nat) (subroutine : Subroutine) :
    subroutine.code c (k + j) = raiseLabels (2 * j) (subroutine.code c k) := by
  rw [Subroutine.code, Subroutine.code, raiseLabels_cons, raiseLabels_append,
    (prologue_straight _ _).raiseLabels_eq, subroutine.body.code_raise c j k]
  rfl

/-! ### Groups of subroutines -/

theorem numbered_append (k : Nat) (first second : List Subroutine) :
    numbered k (first ++ second) =
      numbered k first ++ numbered (k + subroutineBranches first) second := by
  induction first generalizing k with
  | nil => rfl
  | cons subroutine rest ih =>
    rw [List.cons_append, numbered, ih, subroutineBranches, Nat.add_assoc]
    rfl

/-- The code of subroutines of the class, with the number of their first choice or loop. -/
def subroutinesCode (tree : Class) (k : Nat) (list : List Subroutine) : List Command :=
  (numbered k list).flatMap fun (k, subroutine) => subroutine.code (subroutine.context tree) k

theorem subroutinesCode_cons (tree : Class) (k : Nat) (first : Subroutine)
    (rest : List Subroutine) :
    subroutinesCode tree k (first :: rest) =
      first.code (first.context tree) k ++ subroutinesCode tree (k + first.body.branches) rest :=
  rfl

theorem subroutinesCode_raise (tree : Class) (j k : Nat) (list : List Subroutine) :
    subroutinesCode tree (k + j) list = raiseLabels (2 * j) (subroutinesCode tree k list) := by
  induction list generalizing k with
  | nil => rfl
  | cons subroutine rest ih =>
    have hrest := ih (k + subroutine.body.branches)
    rw [Nat.add_right_comm] at hrest
    rw [subroutinesCode_cons, subroutinesCode_cons, subroutine.code_raise, hrest,
      raiseLabels_append]

section Groups

variable (name : String) (lines : List ClassVariables) (first second : List Subroutine)

theorem allowed_append :
    Class.Allowed ⟨name, lines, first ++ second⟩ ↔
      Class.Allowed ⟨name, lines, first⟩ ∧ Class.Allowed ⟨name, lines, second⟩ := by
  -- the contexts are those of the header alone, whichever subroutines stand behind it
  have hgroup : ∀ list : List Subroutine, Class.Allowed ⟨name, lines, list⟩ ↔
      (Class.context ⟨name, lines, []⟩).Fits ∧
        ∀ subroutine ∈ list, subroutine.Allowed ⟨name, lines, []⟩ :=
    fun list => Iff.rfl
  rw [hgroup, hgroup, hgroup, List.forall_mem_append]
  constructor
  · rintro ⟨hfits, hfirst, hsecond⟩
    exact ⟨⟨hfits, hfirst⟩, hfits, hsecond⟩
  · rintro ⟨⟨hfits, hfirst⟩, -, hsecond⟩
    exact ⟨hfits, hfirst, hsecond⟩

theorem code_append :
    Class.code ⟨name, lines, first ++ second⟩ =
      Class.code ⟨name, lines, first⟩ ++
        raiseLabels (2 * subroutineBranches first) (Class.code ⟨name, lines, second⟩) := by
  have hgroup : ∀ list : List Subroutine, Class.code ⟨name, lines, list⟩ =
      subroutinesCode ⟨name, lines, []⟩ 0 list :=
    fun list => rfl
  rw [hgroup, hgroup, hgroup, ← subroutinesCode_raise, subroutinesCode, numbered_append,
    List.flatMap_append]
  rfl

end Groups

end Tree

/-- Compiling succeeds exactly if the limits are kept, and gives the code of the tree. -/
theorem Scans.delivers {source : String} {tree : Tree.Class} (h : Scans source tree.yield) :
    (((compile source).deliver {}).failure = none ↔ tree.Allowed) ∧
      (tree.Allowed → (compile source).commands = tree.code) := by
  obtain ⟨hdelivered, -⟩ := (compile source).deliver_unlimited
  rw [hdelivered]
  refine ⟨⟨fun hfailure => ?_, fun hallowed => (compile_of_tree h hallowed).1⟩,
    fun hallowed => (compile_of_tree h hallowed).2⟩
  obtain ⟨other, hscans, hallowed⟩ := tree_of_compile hfailure
  obtain ⟨tokens, last, htokens, -, hyield⟩ := h
  obtain ⟨tokens', last', htokens', -, hyield'⟩ := hscans
  obtain ⟨heq, -⟩ := List.append_inj' (Except.ok.inj (htokens.symm.trans htokens')) rfl
  obtain rfl : other = tree := Tree.Class.yield_injective (by rw [← hyield, ← hyield', heq])
  exact hallowed

/-- A class whose subroutines are in two groups compiles exactly if it compiles with either group
alone. Its code is then that of the first group and behind it that of the second, with labels that
are as much higher as the choices and loops of the first group have labels. -/
theorem subroutines_compile_independently (name : String) (lines : List Tree.ClassVariables)
    (first second : List Tree.Subroutine) {whole left right : String}
    (hwhole : Scans whole (Tree.Class.yield ⟨name, lines, first ++ second⟩))
    (hleft : Scans left (Tree.Class.yield ⟨name, lines, first⟩))
    (hright : Scans right (Tree.Class.yield ⟨name, lines, second⟩)) :
    (((compile whole).deliver {}).failure = none ↔
      ((compile left).deliver {}).failure = none ∧
        ((compile right).deliver {}).failure = none) ∧
    (((compile whole).deliver {}).failure = none →
      (compile whole).commands = (compile left).commands ++
        raiseLabels (2 * Tree.subroutineBranches first) (compile right).commands ∧
      ((compile whole).deliver {}).device.written =
        ((compile left).deliver {}).device.written ++
          (String.join ((raiseLabels (2 * Tree.subroutineBranches first)
            (compile right).commands).map Command.line)).toUTF8) := by
  obtain ⟨hwholeIff, hwholeCode⟩ := hwhole.delivers
  obtain ⟨hleftIff, hleftCode⟩ := hleft.delivers
  obtain ⟨hrightIff, hrightCode⟩ := hright.delivers
  have happend := Tree.allowed_append name lines first second
  refine ⟨by rw [hwholeIff, hleftIff, hrightIff, happend], fun hcompiles => ?_⟩
  have hallowed := hwholeIff.1 hcompiles
  obtain ⟨hfirst, hsecond⟩ := happend.1 hallowed
  have hcode : (compile whole).commands = (compile left).commands ++
      raiseLabels (2 * Tree.subroutineBranches first) (compile right).commands := by
    rw [hwholeCode hallowed, hleftCode hfirst, hrightCode hsecond, Tree.code_append]
  refine ⟨hcode, ?_⟩
  rw [(compile whole).deliver_unlimited.2, (compile left).deliver_unlimited.2, Transcript.output,
    hcode, List.map_append, String.join_append, Transcript.output]
  simp

/-- What a text is split into can be found out by splitting it. -/
theorem Scans.of_lexemes {source : String} {lexemes : List Lexeme}
    (h : (Scanner.tokens source).toOption.map (List.map Token.lexeme) =
      some (lexemes ++ [.endOfFile])) : Scans source lexemes := by
  obtain ⟨all, hall, hlexemes⟩ := Option.map_eq_some_iff.1 h
  obtain ⟨tokens, final, rfl, htokens, hfinal⟩ := List.map_eq_append_iff.1 hlexemes
  obtain ⟨last, rfl, hlast⟩ := List.map_eq_singleton_iff.1 hfinal
  refine ⟨tokens, last, ?_, ?_, htokens⟩
  · cases hscan : Scanner.tokens source with
    | error error =>
      rw [hscan] at hall
      cases hall
    | ok all =>
      rw [hscan] at hall
      rw [Option.some.inj hall]
  · unfold Token.lexeme TokenKind.lexeme at hlast
    split at hlast <;> simp_all

namespace Tree

def sharedLine : ClassVariables :=
  ⟨⟨.int_, "s", []⟩, .static⟩

def loopSubroutine : Subroutine :=
  ⟨.function, none, "f", [], [],
    .cons (.loop (.mk (.variable_ "s") .nil) .nil) (.cons .returnNothing .nil)⟩

/-- It has a variable of its own with the name of the one of the class. -/
def choiceSubroutine : Subroutine :=
  ⟨.method, some .int_, "g", [⟨.int_, "s"⟩], [],
    .cons (.choice (.mk (.variable_ "s") .nil) .nil)
      (.cons (.returnValue (.mk (.variable_ "s") .nil)) .nil)⟩

end Tree

def loopText : String :=
  "function void f() \x7b while (s) \x7b \x7d return; \x7d "

def choiceText : String :=
  "method int g(int s) \x7b if (s) \x7b \x7d return s; \x7d "

def sharedClass (subroutines : String) : String :=
  "class A \x7b static int s; " ++ subroutines ++ "\x7d"

theorem subroutines_compile_independently_sharedClass :
    Scans (sharedClass (loopText ++ choiceText))
      (Tree.Class.yield
        ⟨"A", [Tree.sharedLine], [Tree.loopSubroutine] ++ [Tree.choiceSubroutine]⟩) ∧
    Scans (sharedClass loopText)
      (Tree.Class.yield ⟨"A", [Tree.sharedLine], [Tree.loopSubroutine]⟩) ∧
    Scans (sharedClass choiceText)
      (Tree.Class.yield ⟨"A", [Tree.sharedLine], [Tree.choiceSubroutine]⟩) ∧
    ((compile (sharedClass (loopText ++ choiceText))).deliver {}).failure = none ∧
    (compile (sharedClass (loopText ++ choiceText))).commands =
      (compile (sharedClass loopText)).commands ++
        raiseLabels 2 (compile (sharedClass choiceText)).commands := by
  have hwhole : Scans (sharedClass (loopText ++ choiceText)) (Tree.Class.yield
      ⟨"A", [Tree.sharedLine], [Tree.loopSubroutine] ++ [Tree.choiceSubroutine]⟩) :=
    Scans.of_lexemes (by decide +kernel)
  have hleft : Scans (sharedClass loopText)
      (Tree.Class.yield ⟨"A", [Tree.sharedLine], [Tree.loopSubroutine]⟩) :=
    Scans.of_lexemes (by decide +kernel)
  have hright : Scans (sharedClass choiceText)
      (Tree.Class.yield ⟨"A", [Tree.sharedLine], [Tree.choiceSubroutine]⟩) :=
    Scans.of_lexemes (by decide +kernel)
  have hcompiles : ((compile (sharedClass (loopText ++ choiceText))).deliver {}).failure = none :=
    (Transcript.deliver_unlimited _).1.trans (by decide +kernel)
  obtain ⟨-, hcode⟩ := subroutines_compile_independently "A" [Tree.sharedLine]
    [Tree.loopSubroutine] [Tree.choiceSubroutine] hwhole hleft hright
  exact ⟨hwhole, hleft, hright, hcompiles, (hcode hcompiles).1⟩

end JackCompiler
