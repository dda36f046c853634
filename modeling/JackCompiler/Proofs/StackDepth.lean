import JackCompiler.Proofs.Compilation
import JackCompiler.Proofs.WordMachine

/-!
How deep the stack is. A command takes a fixed number of words and leaves a fixed number, so the
depth before each command follows from those above it in the text. Code is balanced if every command
finds the words that it takes and control changes hands at fixed depths only. The depth is then the
same on every path, whichever way it comes, and it is what a machine finds when it runs.
-/

namespace JackCompiler

/-- How many words an operation takes. It leaves one. -/
def Operation.operands : Operation → Nat
  | .neg | .not => 1
  | .add | .sub | .eq | .gt | .lt | .and | .or => 2

namespace Command

/-- How many words a command takes from the stack. -/
def operands : Command → Nat
  | push _ _ | label _ | goto _ | function _ _ => 0
  | pop _ _ | ifGoto _ | ret => 1
  | operate operation => operation.operands
  | call _ arguments => arguments

/-- The depth after a command, from the depth `d` before it. Each function starts at depth zero. -/
def depthAfter (d : Int) : Command → Int
  | function _ _ => 0
  | push _ _ => d + 1
  | pop _ _ | ifGoto _ | ret => d - 1
  | operate operation => d + 1 - operation.operands
  | call _ arguments => d + 1 - arguments
  | label _ | goto _ => d

/-- The depth at which control changes hands: there is one word where it is tested or returned, and
none where control can come from elsewhere. -/
def fixedDepth? : Command → Option Int
  | ifGoto _ | ret => some 1
  | label _ | goto _ | function _ _ => some 0
  | push _ _ | pop _ _ | operate _ | call _ _ => none

/-- The depth suits the command. -/
structure MayStand (d : Int) (command : Command) : Prop where
  operands_le : command.operands ≤ d
  eq_fixed : ∀ fixed, command.fixedDepth? = some fixed → d = fixed

end Command

/-- The depth before the command at this place, by the text above it. -/
def depthAt (code : List Command) (place : Nat) : Int :=
  (code.take place).foldl Command.depthAfter 0

/-- The code leads from depth `d` to depth `e`, and every depth between suits its command. -/
def Balanced (d : Int) : List Command → Int → Prop
  | [], e => d = e
  | command :: rest, e => command.MayStand d ∧ Balanced (command.depthAfter d) rest e

namespace Balanced

variable {d e f : Int} {x y : List Command} {command : Command}

theorem append (h : Balanced d x e) (k : Balanced e y f) : Balanced d (x ++ y) f := by
  induction x generalizing d with
  | nil =>
    obtain rfl : d = e := h
    exact k
  | cons command rest ih => exact ⟨h.1, ih h.2⟩

theorem single (h : command.MayStand d) : Balanced d [command] (command.depthAfter d) :=
  ⟨h, rfl⟩

/-- A command that takes and leaves words, and no more. -/
theorem ofFree (hfree : command.fixedDepth? = none) (hoperands : command.operands ≤ d)
    (hafter : command.depthAfter d = e) : Balanced d [command] e := by
  subst hafter
  refine single ⟨hoperands, ?_⟩
  intro fixed hfixed
  rw [hfree] at hfixed
  cases hfixed

theorem push (hd : 0 ≤ d) (segment : Segment) (i : Nat) :
    Balanced d [.push segment i] (d + 1) :=
  ofFree rfl hd rfl

theorem pop (hd : 0 ≤ d) (segment : Segment) (i : Nat) : Balanced (d + 1) [.pop segment i] d := by
  apply ofFree rfl
  · change (1 : Int) ≤ d + 1
    omega
  · change d + 1 - 1 = d
    omega

/-- A call takes its arguments and leaves one word. -/
theorem call (hd : 0 ≤ d) (name : String) (n : Nat) : Balanced (d + n) [.call name n] (d + 1) := by
  apply ofFree rfl
  · change (n : Int) ≤ d + n
    omega
  · change d + n + 1 - n = d + 1
    omega

theorem operate (hd : 0 ≤ d) (operation : Operation) :
    Balanced (d + operation.operands) [.operate operation] (d + 1) := by
  apply ofFree rfl
  · change (operation.operands : Int) ≤ d + operation.operands
    omega
  · change d + operation.operands + 1 - operation.operands = d + 1
    omega

/-- A command at which control changes hands. -/
theorem ofFixed (hfixed : command.fixedDepth? = some d) (hoperands : command.operands ≤ d)
    (hafter : command.depthAfter d = e) : Balanced d [command] e := by
  subst hafter
  refine single ⟨hoperands, ?_⟩
  intro fixed heq
  exact Option.some.inj (hfixed.symm.trans heq)

theorem label (name : String) : Balanced 0 [.label name] 0 :=
  ofFixed rfl (Int.le_refl 0) rfl

theorem goto (name : String) : Balanced 0 [.goto name] 0 :=
  ofFixed rfl (Int.le_refl 0) rfl

theorem ifGoto (name : String) : Balanced 1 [.ifGoto name] 0 :=
  ofFixed rfl (Int.le_refl 1) rfl

theorem ret : Balanced 1 [.ret] 0 :=
  ofFixed rfl (Int.le_refl 1) rfl

theorem function (name : String) (locals : Nat) : Balanced 0 [.function name locals] 0 :=
  ofFixed rfl (Int.le_refl 0) rfl

/-- The depths at the places of the code are those that suit its commands. -/
theorem mayStand (h : Balanced d x e) {i : Nat} (hcommand : x[i]? = some command) :
    command.MayStand ((x.take i).foldl Command.depthAfter d) := by
  induction x generalizing d i with
  | nil => cases hcommand
  | cons first rest ih =>
    cases i with
    | zero =>
      obtain rfl := Option.some.inj hcommand
      exact h.1
    | succ i => exact ih h.2 hcommand

theorem foldl_eq (h : Balanced d x e) : x.foldl Command.depthAfter d = e := by
  induction x generalizing d with
  | nil => exact h
  | cons first rest ih => exact ih h.2

end Balanced

theorem depthAt_succ {code : List Command} {place : Nat} {command : Command}
    (h : code[place]? = some command) :
    depthAt code (place + 1) = command.depthAfter (depthAt code place) := by
  rw [depthAt, depthAt, List.take_add_one, h, List.foldl_append]
  rfl

/-! ### Expressions -/

variable {c : Context}

theorem Context.load_balanced {name : String} (h : (c.lookup? name).isSome) {d : Int}
    (hd : 0 ≤ d) : Balanced d (c.load name) (d + 1) := by
  obtain ⟨entry, hentry⟩ := Option.isSome_iff_exists.1 h
  rw [Context.load, hentry]
  exact Balanced.push hd _ _

theorem Context.store_balanced {name : String} (h : (c.lookup? name).isSome) {d : Int}
    (hd : 0 ≤ d) : Balanced (d + 1) (c.store name) d := by
  obtain ⟨entry, hentry⟩ := Option.isSome_iff_exists.1 h
  rw [Context.store, hentry]
  exact Balanced.pop hd _ _

namespace Tree

theorem stringCode_balanced (text : String) {d : Int} (hd : 0 ≤ d) :
    Balanced d (stringCode text) (d + 1) := by
  have hcharacters : ∀ characters : List Char, Balanced (d + 1)
      (characters.flatMap fun character =>
        [.push .constant character.toNat, .call "String.appendChar" 2]) (d + 1) := by
    intro characters
    induction characters with
    | nil => exact rfl
    | cons character rest ih =>
      have hpush := Balanced.push (d := d + 1) (by omega) .constant character.toNat
      have hcall : Balanced (d + 1 + 1) [.call "String.appendChar" 2] (d + 1) := by
        rw [Int.add_assoc]
        exact Balanced.call hd "String.appendChar" 2
      exact (hpush.append hcall).append ih
  have hpush := Balanced.push hd .constant text.length
  exact hpush.append ((Balanced.call hd "String.new" 1).append (hcharacters text.toList))

theorem BinaryOperator.command_balanced (operator : BinaryOperator) {d : Int} (hd : 0 ≤ d) :
    Balanced (d + 2) [operator.command] (d + 1) := by
  cases operator with
  | multiply => exact Balanced.call hd "Math.multiply" 2
  | divide => exact Balanced.call hd "Math.divide" 2
  | add => exact Balanced.operate hd .add
  | subtract => exact Balanced.operate hd .sub
  | and => exact Balanced.operate hd .and
  | or => exact Balanced.operate hd .or
  | less => exact Balanced.operate hd .lt
  | greater => exact Balanced.operate hd .gt
  | equal => exact Balanced.operate hd .eq

theorem UnaryOperator.command_balanced (operator : UnaryOperator) {d : Int} (hd : 0 ≤ d) :
    Balanced (d + 1) [operator.command] (d + 1) := by
  cases operator with
  | negate => exact Balanced.operate hd .neg
  | complement => exact Balanced.operate hd .not

theorem KeywordConstant.code_balanced (word : KeywordConstant) {d : Int} (hd : 0 ≤ d) :
    Balanced d word.code (d + 1) := by
  have hpush := Balanced.push hd
  cases word with
  | true_ => exact (hpush .constant 0).append (Balanced.operate hd .not)
  | false_ => exact hpush .constant 0
  | null_ => exact hpush .constant 0
  | this_ => exact hpush .pointer 0

/-- The address of an element is exchanged for its word. -/
theorem access_balanced {d : Int} (hd : 0 ≤ d) :
    Balanced (d + 2) [.operate .add, .pop .pointer 1, .push .that 0] (d + 1) := by
  have hadd := Balanced.operate hd .add
  exact hadd.append ((Balanced.pop hd .pointer 1).append (Balanced.push hd .that 0))

mutual

/-- An expression leaves one word. -/
theorem Expression.code_balanced (e : Expression) (h : c.AllowsAll e.uses) {d : Int}
    (hd : 0 ≤ d) : Balanced d (e.code c) (d + 1) := by
  cases e with
  | mk first rest =>
    obtain ⟨hfirst, hrest⟩ := Context.allowsAll_append.1 h
    exact (first.code_balanced hfirst hd).append (rest.code_balanced hrest hd)
termination_by structural e

theorem Operations.code_balanced (x : Operations) (h : c.AllowsAll x.uses) {d : Int}
    (hd : 0 ≤ d) : Balanced (d + 1) (x.code c) (d + 1) := by
  cases x with
  | nil => exact rfl
  | cons operator operand rest =>
    obtain ⟨hoperand, hrest⟩ := Context.allowsAll_append.1 h
    have hterm := operand.code_balanced hoperand (d := d + 1) (by omega)
    rw [Int.add_assoc] at hterm
    exact hterm.append ((operator.command_balanced hd).append (rest.code_balanced hrest hd))
termination_by structural x

theorem Term.code_balanced (e : Term) (h : c.AllowsAll e.uses) {d : Int}
    (hd : 0 ≤ d) : Balanced d (e.code c) (d + 1) := by
  cases e with
  | integer value => exact Balanced.push hd .constant value
  | string text => exact stringCode_balanced text hd
  | constant word => exact word.code_balanced hd
  | variable_ name => exact Context.load_balanced (h _ List.mem_cons_self) hd
  | element array index =>
    obtain ⟨harray, hindex⟩ := Context.allowsAll_cons.1 h
    have hexpression := index.code_balanced hindex (d := d + 1) (by omega)
    rw [Int.add_assoc] at hexpression
    exact (Context.load_balanced harray hd).append (hexpression.append (access_balanced hd))
  | call call => exact call.code_balanced h hd
  | group inner => exact inner.code_balanced h hd
  | unary operator operand =>
    exact (operand.code_balanced h hd).append (operator.command_balanced hd)
termination_by structural e

/-- What a call counts is what has been pushed for it, its receiver included. -/
theorem Call.code_balanced (call : Call) (h : c.AllowsAll call.uses) {d : Int}
    (hd : 0 ≤ d) : Balanced d (call.code c) (d + 1) := by
  cases call with
  | own name arguments =>
    obtain ⟨-, harguments⟩ := Context.allowsAll_cons.1 h
    have hwords := arguments.code_balanced harguments (d := d + 1) (by omega)
    have hcall := Balanced.call hd (c.className ++ "." ++ name) (arguments.count + 1)
    rw [show d + 1 + (arguments.count : Int) = d + (arguments.count + 1 : Nat) by omega] at hwords
    exact (Balanced.push hd .pointer 0).append (hwords.append hcall)
  | member owner name arguments =>
    obtain ⟨-, harguments⟩ := Context.allowsAll_cons.1 h
    rw [Call.code]
    cases c.lookup? owner with
    | some entry =>
      have hwords := arguments.code_balanced harguments (d := d + 1) (by omega)
      have hcall := Balanced.call hd (entry.type ++ "." ++ name) (arguments.count + 1)
      rw [show d + 1 + (arguments.count : Int) = d + (arguments.count + 1 : Nat) by omega] at hwords
      exact (Balanced.push hd _ _).append (hwords.append hcall)
    | none =>
      exact (arguments.code_balanced harguments hd).append
        (Balanced.call hd (owner ++ "." ++ name) arguments.count)
termination_by structural call

/-- Arguments leave one word each. -/
theorem Arguments.code_balanced (x : Arguments) (h : c.AllowsAll x.uses) {d : Int}
    (hd : 0 ≤ d) : Balanced d (x.code c) (d + x.count) := by
  cases x with
  | nil => exact (Int.add_zero d).symm
  | cons first rest =>
    obtain ⟨hfirst, hrest⟩ := Context.allowsAll_append.1 h
    have hwords := rest.code_balanced hrest (d := d + 1) (by omega)
    rw [show d + 1 + (rest.count : Int) = d + (rest.count + 1 : Nat) by omega] at hwords
    exact (first.code_balanced hfirst hd).append hwords
termination_by structural x

end

/-! ### Statements -/

/-- A condition, complemented, decides a jump. -/
theorem guard_balanced {condition : List Command} (h : Balanced 0 condition 1) (name : String) :
    Balanced 0 (condition ++ [.operate .not, .ifGoto name]) 0 :=
  h.append ((Balanced.operate (Int.le_refl 0) .not).append (Balanced.ifGoto name))

theorem assign_balanced (k : Nat) {name : String} {value : Expression}
    (h : c.AllowsAll (Statement.assign name value).uses) :
    Balanced 0 ((Statement.assign name value).code c k) 0 := by
  obtain ⟨hname, hvalue⟩ := Context.allowsAll_cons.1 h
  exact (value.code_balanced hvalue (Int.le_refl 0)).append
    (Context.store_balanced hname (Int.le_refl 0))

/-- The address of the element waits below the value. -/
theorem assignElement_balanced (k : Nat) {array : String} {index value : Expression}
    (h : c.AllowsAll (Statement.assignElement array index value).uses) :
    Balanced 0 ((Statement.assignElement array index value).code c k) 0 := by
  obtain ⟨harray, hparts⟩ := Context.allowsAll_cons.1 h
  obtain ⟨hindex, hvalue⟩ := Context.allowsAll_append.1 hparts
  have hbase := Context.load_balanced harray (Int.le_refl 0)
  have hoffset := index.code_balanced hindex (d := 1) (by omega)
  have haddress := hoffset.append (Balanced.operate (Int.le_refl 0) .add)
  have hword := value.code_balanced hvalue (d := 1) (by omega)
  have hstore : Balanced 2 [.pop .temp 0, .pop .pointer 1, .push .temp 0, .pop .that 0] 0 := by
    have hpop := Balanced.pop (Int.le_refl 0)
    exact (Balanced.pop (d := 1) (by omega) .temp 0).append ((hpop .pointer 1).append
      ((Balanced.push (Int.le_refl 0) .temp 0).append (hpop .that 0)))
  have hall := hbase.append (haddress.append (hword.append hstore))
  rw [List.append_assoc] at hall
  exact hall

mutual

/-- A statement starts and ends with nothing on the stack. -/
theorem Statement.code_balanced (x : Statement) (h : c.AllowsAll x.uses) (k : Nat) :
    Balanced 0 (x.code c k) 0 := by
  cases x with
  | assign name value => exact assign_balanced k h
  | assignElement array index value => exact assignElement_balanced k h
  | choice condition body =>
    obtain ⟨hcondition, hbody⟩ := Context.allowsAll_append.1 h
    have hguard := guard_balanced (condition.code_balanced hcondition (Int.le_refl 0))
      (labelName (2 * k))
    have hend := (Balanced.goto (labelName (2 * k + 1))).append
      ((Balanced.label (labelName (2 * k))).append (Balanced.label (labelName (2 * k + 1))))
    have hall := hguard.append ((body.code_balanced hbody (k + 1)).append hend)
    rw [List.append_assoc] at hall
    exact hall
  | choiceElse condition body otherwise =>
    obtain ⟨hcondition, hblocks⟩ := Context.allowsAll_append.1 h
    obtain ⟨hbody, hotherwise⟩ := Context.allowsAll_append.1 hblocks
    have hguard := guard_balanced (condition.code_balanced hcondition (Int.le_refl 0))
      (labelName (2 * k))
    have hmiddle := (Balanced.goto (labelName (2 * k + 1))).append
      (Balanced.label (labelName (2 * k)))
    have hend := (otherwise.code_balanced hotherwise (k + 1 + body.branches)).append
      (Balanced.label (labelName (2 * k + 1)))
    have hall := hguard.append ((body.code_balanced hbody (k + 1)).append (hmiddle.append hend))
    rw [List.append_assoc] at hall
    exact hall
  | loop condition body =>
    obtain ⟨hcondition, hbody⟩ := Context.allowsAll_append.1 h
    have hguard := guard_balanced (condition.code_balanced hcondition (Int.le_refl 0))
      (labelName (2 * k + 1))
    have hend := (Balanced.goto (labelName (2 * k))).append
      (Balanced.label (labelName (2 * k + 1)))
    have hall := (Balanced.label (labelName (2 * k))).append
      (hguard.append ((body.code_balanced hbody (k + 1)).append hend))
    rw [List.append_assoc] at hall
    exact hall
  | invoke call =>
    exact (call.code_balanced h (Int.le_refl 0)).append (Balanced.pop (Int.le_refl 0) .temp 0)
  | returnNothing => exact (Balanced.push (Int.le_refl 0) .constant 0).append Balanced.ret
  | returnValue value => exact (value.code_balanced h (Int.le_refl 0)).append Balanced.ret
termination_by structural x

theorem Statements.code_balanced (x : Statements) (h : c.AllowsAll x.uses) (k : Nat) :
    Balanced 0 (x.code c k) 0 := by
  cases x with
  | nil => exact rfl
  | cons first rest =>
    obtain ⟨hfirst, hrest⟩ := Context.allowsAll_append.1 h
    exact (first.code_balanced hfirst k).append (rest.code_balanced hrest (k + first.branches))
termination_by structural x

end

/-! ### Subroutines and classes -/

theorem prologue_balanced (fields : Nat) (kind : SubroutineKind) :
    Balanced 0 (prologue fields kind) 0 := by
  have hpush := Balanced.push (Int.le_refl 0)
  have hpop := Balanced.pop (Int.le_refl 0) .pointer 0
  cases kind with
  | constructor =>
    exact (hpush .constant fields).append
      ((Balanced.call (Int.le_refl 0) "Memory.alloc" 1).append hpop)
  | function => exact rfl
  | method => exact (hpush .argument 0).append hpop

theorem Subroutine.code_balanced (subroutine : Subroutine) (h : c.AllowsAll subroutine.body.uses)
    (k : Nat) : Balanced 0 (subroutine.code c k) 0 := by
  have hbody := subroutine.body.code_balanced h k
  exact (Balanced.function _ _).append ((prologue_balanced _ subroutine.kind).append hbody)

theorem subroutines_balanced {tree : Class} {list : List Subroutine}
    (h : ∀ subroutine ∈ list, subroutine.Allowed tree) (k : Nat) :
    Balanced 0 ((numbered k list).flatMap fun (k, subroutine) =>
      subroutine.code (subroutine.context tree) k) 0 := by
  induction list generalizing k with
  | nil => rfl
  | cons first rest ih =>
    obtain ⟨hfirst, hrest⟩ := List.forall_mem_cons.1 h
    exact (first.code_balanced hfirst.2 k).append (ih hrest (k + first.body.branches))

theorem Class.code_balanced {tree : Class} (h : tree.Allowed) : Balanced 0 tree.code 0 :=
  subroutines_balanced h.2 0

end Tree

/-! ### Paths -/

/-- Where control goes from a command at `place`: on to the next command, to the label that is
named, or to either. A path ends at a return and where another function starts. -/
def Command.Leads (code : List Command) (place target : Nat) : Command → Prop
  | push _ _ | pop _ _ | operate _ | call _ _ | label _ => target = place + 1
  | goto name => JumpsTo code place name target
  | ifGoto name => target = place + 1 ∨ JumpsTo code place name target
  | ret | function _ _ => False

/-- A path through the function that starts at `start` comes to this place, and the stack has this
depth there if it was empty at the start. -/
inductive Flows (code : List Command) (start : Nat) : Nat → Int → Prop where
  | enter {name locals} (hstart : code[start]? = some (.function name locals)) :
      Flows code start (start + 1) 0
  | step {place target d command} (h : Flows code start place d)
      (hcommand : code[place]? = some command) (hleads : command.Leads code place target) :
      Flows code start target (command.depthAfter d)

/-- A jump finds the depth that its label has in the text. -/
theorem Balanced.depthAt_target {code : List Command} {e : Int} (h : Balanced 0 code e)
    {place target : Nat} {name : String} (hjumps : JumpsTo code place name target) :
    depthAt code target = 0 :=
  (h.mayStand hjumps.1).eq_fixed 0 rfl

/-- On every path the depth is the one in the text. -/
theorem Flows.eq_depthAt {code : List Command} {e : Int} (h : Balanced 0 code e)
    {start place : Nat} {d : Int} (hflows : Flows code start place d) : d = depthAt code place := by
  induction hflows with
  | enter hstart =>
    rw [depthAt_succ hstart]
    rfl
  | @step place target d command _ hcommand hleads ih =>
    subst ih
    have hstands : command.MayStand (depthAt code place) := h.mayStand hcommand
    cases command with
    | goto name =>
      rw [h.depthAt_target hleads]
      exact hstands.eq_fixed 0 rfl
    | ifGoto name =>
      rcases hleads with rfl | hjumps
      · exact (depthAt_succ hcommand).symm
      · have hone := hstands.eq_fixed 1 rfl
        rw [h.depthAt_target hjumps, Command.depthAfter, hone]
        rfl
    | ret => cases hleads
    | function name locals => cases hleads
    | _ =>
      obtain rfl : target = place + 1 := hleads
      exact (depthAt_succ hcommand).symm

/-! ### Runs -/

/-- An operation leaves one word in place of those it takes. -/
theorem Operation.length_of_apply {operation : Operation} {stack after : List Word}
    (h : operation.apply stack = some after) :
    after.length + operation.operands = stack.length + 1 := by
  unfold apply at h
  split at h <;> cases h <;> rfl

/-- The machine does to the size of its stack what is counted. -/
theorem Calls.length_of_effect {calls : Calls} {command : Command} {s t : State Store}
    (h : calls.effect command s t) :
    (t.stack.length : Int) = command.depthAfter s.stack.length := by
  cases command with
  | push segment i =>
    obtain ⟨word, -, rfl⟩ := h
    rfl
  | pop segment i =>
    obtain ⟨word, rest, σ, hstack, -, rfl⟩ := h
    rw [hstack]
    change (rest.length : Int) = (rest.length + 1 : Nat) - 1
    omega
  | operate operation =>
    obtain ⟨stack, happly, rfl⟩ := h
    have hlength := Operation.length_of_apply happly
    change (stack.length : Int) = s.stack.length + 1 - operation.operands
    omega
  | call name n =>
    obtain ⟨arguments, rest, word, shared, hstack, rfl, -, rfl⟩ := h
    rw [hstack]
    change ((word :: rest).length : Int) =
      (arguments.reverse ++ rest).length + 1 - (arguments.length : Nat)
    simp only [List.length_append, List.length_reverse, List.length_cons]
    omega
  | label name => cases h
  | goto name => cases h
  | ifGoto name => cases h
  | function name locals => cases h
  | ret => cases h

/-- A step of the machine goes along a path, and does to the size of the stack what is counted. -/
theorem Step.leads {calls : Calls} {code : List Command} {p q : Point Store}
    (h : Step calls.machine code p q) : ∃ command, code[p.place]? = some command ∧
      command.Leads code p.place q.place ∧
      (q.state.stack.length : Int) = command.depthAfter p.state.stack.length := by
  cases h with
  | @straight place command s t hcommand hstraight heffect =>
    refine ⟨command, hcommand, ?_, Calls.length_of_effect heffect⟩
    cases command <;> first | rfl | cases hstraight
  | label hcommand => exact ⟨_, hcommand, rfl, rfl⟩
  | goto hcommand htarget => exact ⟨_, hcommand, htarget, rfl⟩
  | @jump place name target word rest memory hcommand hword htarget =>
    refine ⟨_, hcommand, Or.inr htarget, ?_⟩
    change (rest.length : Int) = (rest.length + 1 : Nat) - 1
    omega
  | @pass place name rest memory hcommand =>
    refine ⟨_, hcommand, Or.inl rfl, ?_⟩
    change (rest.length : Int) = (rest.length + 1 : Nat) - 1
    omega

/-- What is below on the stack makes no difference to what is counted. -/
theorem Command.depthAfter_sub {code : List Command} {place target : Nat} {command : Command}
    (h : command.Leads code place target) (d n : Int) :
    command.depthAfter d - n = command.depthAfter (d - n) := by
  cases command with
  | function name locals => cases h
  | label name => rfl
  | goto name => rfl
  | _ =>
    simp only [depthAfter]
    omega

/-- A run goes along a path. -/
theorem Path.flows {calls : Calls} {code : List Command} {a b k start : Nat} {p q : Point Store}
    (h : Path calls.machine code a b k p q) {n : Int}
    (hflows : Flows code start p.place (p.state.stack.length - n)) :
    Flows code start q.place (q.state.stack.length - n) := by
  induction h with
  | refl => exact hflows
  | cons _ _ hstep _ ih =>
    obtain ⟨command, hcommand, hleads, hlength⟩ := hstep.leads
    apply ih
    rw [hlength, Command.depthAfter_sub hleads]
    exact hflows.step hcommand hleads

/-- The depth before each command follows from the text of the code. Every command finds what it
takes, on every path, and nothing is left at the end. A machine has so many words above those that
it entered a function with. -/
structure DepthsKnown (code : List Command) : Prop where
  mayStand : ∀ place (command : Command), code[place]? = some command →
    command.MayStand (depthAt code place)
  ends : depthAt code code.length = 0
  flows : ∀ start place d, Flows code start place d → d = depthAt code place ∧
    ∀ command : Command, code[place]? = some command → command.MayStand d
  runs : ∀ (calls : Calls) start name locals a b s place t,
    code[start]? = some (.function name locals) →
    Reaches calls.machine code a b ⟨start + 1, s⟩ ⟨place, t⟩ →
    (t.stack.length : Int) = s.stack.length + depthAt code place

theorem Balanced.depthsKnown {code : List Command} (h : Balanced 0 code 0) : DepthsKnown code := by
  have hstands : ∀ place (command : Command), code[place]? = some command →
      command.MayStand (depthAt code place) := fun place command => h.mayStand
  refine ⟨hstands, ?_, ?_, ?_⟩
  · rw [depthAt, List.take_length]
    exact h.foldl_eq
  · intro start place d hflows
    obtain rfl := hflows.eq_depthAt h
    exact ⟨rfl, hstands place⟩
  · rintro calls start name locals a b s place t hstart ⟨k, hpath⟩
    have henter : Flows code start (start + 1) (s.stack.length - s.stack.length) := by
      rw [Int.sub_self]
      exact .enter hstart
    have hdepth := (hpath.flows henter).eq_depthAt h
    change (t.stack.length : Int) - s.stack.length = depthAt code place at hdepth
    omega

/-- In a text that compiles every command finds what it takes on the stack, with one word and no
more at each test and return, and none at each label, at each jump without a test, where a function
starts and at the end. It is so by the order of the text and on every path through every function,
and a machine has so many words above those that it entered the function with. -/
theorem stack_depth_of_compile (source : String)
    (h : ((compile source).deliver {}).failure = none) :
    (∀ place (command : Command), (compile source).commands[place]? = some command →
      command.MayStand (depthAt (compile source).commands place)) ∧
    depthAt (compile source).commands (compile source).commands.length = 0 ∧
    (∀ start place d, Flows (compile source).commands start place d →
      d = depthAt (compile source).commands place ∧
      ∀ command : Command, (compile source).commands[place]? = some command →
        command.MayStand d) ∧
    ∀ (calls : Calls) start name locals a b s place t,
      (compile source).commands[start]? = some (.function name locals) →
      Reaches calls.machine (compile source).commands a b ⟨start + 1, s⟩ ⟨place, t⟩ →
      (t.stack.length : Int) = s.stack.length + depthAt (compile source).commands place := by
  obtain ⟨tree, -, hallowed, hcommands⟩ := tree_of_delivered h
  rw [hcommands]
  obtain ⟨hstands, hends, hflows, hruns⟩ := (Tree.Class.code_balanced hallowed).depthsKnown
  exact ⟨hstands, hends, hflows, hruns⟩

theorem stack_depth_of_compile_rowClass :
    ((compile rowClass).deliver {}).failure = none ∧
    (∀ place (command : Command), (compile rowClass).commands[place]? = some command →
      command.MayStand (depthAt (compile rowClass).commands place)) ∧
    depthAt (compile rowClass).commands (compile rowClass).commands.length = 0 ∧
    (∀ start place d, Flows (compile rowClass).commands start place d →
      d = depthAt (compile rowClass).commands place ∧
      ∀ command : Command, (compile rowClass).commands[place]? = some command →
        command.MayStand d) ∧
    ∀ (calls : Calls) start name locals a b s place t,
      (compile rowClass).commands[start]? = some (.function name locals) →
      Reaches calls.machine (compile rowClass).commands a b ⟨start + 1, s⟩ ⟨place, t⟩ →
      (t.stack.length : Int) = s.stack.length + depthAt (compile rowClass).commands place :=
  ⟨rowClass_compiles, stack_depth_of_compile rowClass rowClass_compiles⟩

end JackCompiler
