import JackCompiler.Proofs.Declarations
import JackCompiler.Proofs.StackMachine
import Mathlib.Logic.Function.Basic

/-!
The machine with its memory. Words have 16 bits, comparisons take them as signed, and a truth value
is all zeros or all ones. What a call does is a parameter: it sees everything and gives back a word,
and it changes nothing but the memory that all functions share.
-/

namespace JackCompiler

/-- The memory that a called function can change. -/
structure Shared where
  heap : Word → Word
  statics : Nat → Word
  temp : Nat → Word

/-- All memory, as the function that is running sees it. -/
structure Store extends Shared where
  locals : Nat → Word
  arguments : Nat → Word
  /-- `pointer 0` -/
  this : Word
  /-- `pointer 1` -/
  that : Word

/-- What calls do: the function, its arguments in order, the memory before, the word that is given
back and the shared memory after. -/
abbrev Calls := String → List Word → Store → Word → Shared → Prop

def truth (condition : Bool) : Word :=
  if condition then .allOnes 16 else 0

namespace Store

/-- The word that a push takes from the memory region. -/
def read (σ : Store) : Segment → Nat → Option Word
  | .constant, value => some (.ofNat 16 value)
  | .argument, i => some (σ.arguments i)
  | .local_, i => some (σ.locals i)
  | .static, i => some (σ.statics i)
  | .this, i => some (σ.heap (σ.this + .ofNat 16 i))
  | .that, i => some (σ.heap (σ.that + .ofNat 16 i))
  | .pointer, 0 => some σ.this
  | .pointer, 1 => some σ.that
  | .pointer, _ => none
  | .temp, i => some (σ.temp i)

/-- The memory after a pop into the region. -/
def write (σ : Store) : Segment → Nat → Word → Option Store
  | .constant, _, _ => none
  | .argument, i, word => some { σ with arguments := Function.update σ.arguments i word }
  | .local_, i, word => some { σ with locals := Function.update σ.locals i word }
  | .static, i, word => some { σ with statics := Function.update σ.statics i word }
  | .this, i, word => some { σ with heap := Function.update σ.heap (σ.this + .ofNat 16 i) word }
  | .that, i, word => some { σ with heap := Function.update σ.heap (σ.that + .ofNat 16 i) word }
  | .pointer, 0, word => some { σ with this := word }
  | .pointer, 1, word => some { σ with that := word }
  | .pointer, _, _ => none
  | .temp, i, word => some { σ with temp := Function.update σ.temp i word }

/-- The value of a variable. -/
def get (σ : Store) (entry : Variable) : Word :=
  match entry.kind with
  | .static => σ.statics entry.index
  | .field => σ.heap (σ.this + .ofNat 16 entry.index)
  | .argument => σ.arguments entry.index
  | .local_ => σ.locals entry.index

/-- The memory after an assignment to a variable. -/
def set (σ : Store) (entry : Variable) (word : Word) : Store :=
  match entry.kind with
  | .static => { σ with statics := Function.update σ.statics entry.index word }
  | .field =>
    { σ with heap := Function.update σ.heap (σ.this + .ofNat 16 entry.index) word }
  | .argument => { σ with arguments := Function.update σ.arguments entry.index word }
  | .local_ => { σ with locals := Function.update σ.locals entry.index word }

/-- The memory after an assignment to the element at this address. It is written through
`pointer 1`, and until then its word is kept in `temp 0`. -/
def setElement (σ : Store) (address word : Word) : Store :=
  { σ with
    heap := Function.update σ.heap address word
    temp := Function.update σ.temp 0 word
    that := address }

theorem read_variable (σ : Store) (entry : Variable) :
    σ.read entry.kind.segment entry.index = some (σ.get entry) := by
  unfold get
  cases entry.kind <;> rfl

theorem write_variable (σ : Store) (entry : Variable) (word : Word) :
    σ.write entry.kind.segment entry.index word = some (σ.set entry word) := by
  unfold set
  cases entry.kind <;> rfl

end Store

/-- The stack after an operation, its top first. -/
def Operation.apply : Operation → List Word → Option (List Word)
  | .add, y :: x :: rest => some ((x + y) :: rest)
  | .sub, y :: x :: rest => some ((x - y) :: rest)
  | .neg, x :: rest => some (-x :: rest)
  | .eq, y :: x :: rest => some (truth (x == y) :: rest)
  | .gt, y :: x :: rest => some (truth (y.slt x) :: rest)
  | .lt, y :: x :: rest => some (truth (x.slt y) :: rest)
  | .and, y :: x :: rest => some ((x &&& y) :: rest)
  | .or, y :: x :: rest => some ((x ||| y) :: rest)
  | .not, x :: rest => some (~~~x :: rest)
  | _, _ => none

/-- What a straight command does on the machine with these calls. -/
def Calls.effect (calls : Calls) : Command → State Store → State Store → Prop
  | .push segment i, s, t =>
    ∃ word, s.memory.read segment i = some word ∧ t = ⟨word :: s.stack, s.memory⟩
  | .pop segment i, s, t =>
    ∃ word rest σ, s.stack = word :: rest ∧ s.memory.write segment i word = some σ ∧ t = ⟨rest, σ⟩
  | .operate operation, s, t =>
    ∃ stack, operation.apply s.stack = some stack ∧ t = ⟨stack, s.memory⟩
  | .call name n, s, t =>
    ∃ arguments rest word shared, s.stack = arguments.reverse ++ rest ∧ arguments.length = n ∧
      calls name arguments s.memory word shared ∧
        t = ⟨word :: rest, { s.memory with toShared := shared }⟩
  | _, _, _ => False

/-- A call gives this word, and this is the memory after it. -/
def Calls.Gives (calls : Calls) (name : String) (arguments : List Word) (σ : Store) (word : Word)
    (τ : Store) : Prop :=
  ∃ shared, calls name arguments σ word shared ∧ τ = { σ with toShared := shared }

/-- Every call gives a word. -/
def Calls.Return (calls : Calls) : Prop :=
  ∀ name arguments σ, ∃ word τ, calls.Gives name arguments σ word τ

def Calls.machine (calls : Calls) : Machine Store where
  effect := calls.effect
  complement := by
    intro s t
    constructor
    · rintro ⟨stack, happly, rfl⟩
      cases hstack : s.stack with
      | nil =>
        rw [hstack] at happly
        cases happly
      | cons word rest =>
        rw [hstack] at happly
        cases happly
        exact ⟨word, rest, rfl, rfl⟩
    · rintro ⟨word, rest, hstack, rfl⟩
      exact ⟨~~~word :: rest, by rw [hstack]; rfl, rfl⟩

/-! ### Runs of single commands -/

namespace Calls

variable {calls : Calls} {stack : List Word} {σ : Store} {t : State Store} {word x y : Word}

theorem runs_push {segment : Segment} {i : Nat} (h : σ.read segment i = some word)
    (rest : List Command) : calls.machine.Runs (.push segment i :: rest) ⟨stack, σ⟩ t ↔
      calls.machine.Runs rest ⟨word :: stack, σ⟩ t := by
  constructor
  · rintro ⟨u, ⟨word', hread, rfl⟩, hrest⟩
    obtain rfl := Option.some.inj (h.symm.trans hread)
    exact hrest
  · intro hrest
    exact ⟨_, ⟨word, h, rfl⟩, hrest⟩

theorem runs_pop {segment : Segment} {i : Nat} {ρ : Store}
    (h : σ.write segment i word = some ρ) (rest : List Command) :
    calls.machine.Runs (.pop segment i :: rest) ⟨word :: stack, σ⟩ t ↔
      calls.machine.Runs rest ⟨stack, ρ⟩ t := by
  constructor
  · rintro ⟨u, ⟨word', stack', ρ', hstack, hwrite, rfl⟩, hrest⟩
    obtain ⟨rfl, rfl⟩ := List.cons.inj hstack
    obtain rfl := Option.some.inj (h.symm.trans hwrite)
    exact hrest
  · intro hrest
    exact ⟨_, ⟨word, stack, ρ, rfl, h, rfl⟩, hrest⟩

theorem runs_operate {operation : Operation} {after : List Word}
    (h : operation.apply stack = some after) (rest : List Command) :
    calls.machine.Runs (.operate operation :: rest) ⟨stack, σ⟩ t ↔
      calls.machine.Runs rest ⟨after, σ⟩ t := by
  constructor
  · rintro ⟨u, ⟨after', happly, rfl⟩, hrest⟩
    obtain rfl := Option.some.inj (h.symm.trans happly)
    exact hrest
  · intro hrest
    exact ⟨_, ⟨after, h, rfl⟩, hrest⟩

/-- A call takes its arguments, the last of which is on top, and leaves one word. -/
theorem runs_call {name : String} {n : Nat} (arguments : List Word)
    (hlength : arguments.length = n) (rest : List Command) :
    calls.machine.Runs (.call name n :: rest) ⟨arguments.reverse ++ stack, σ⟩ t ↔
      ∃ word τ, calls.Gives name arguments σ word τ ∧
        calls.machine.Runs rest ⟨word :: stack, τ⟩ t := by
  constructor
  · rintro ⟨u, ⟨arguments', stack', word, shared, hstack, hlength', hcall, rfl⟩, hrest⟩
    have hreverse : arguments.reverse.length = arguments'.reverse.length := by
      rw [List.length_reverse, List.length_reverse, hlength, hlength']
    obtain ⟨harguments, rfl⟩ := List.append_inj hstack hreverse
    obtain rfl := List.reverse_inj.1 harguments
    exact ⟨word, _, ⟨shared, hcall, rfl⟩, hrest⟩
  · rintro ⟨word, τ, ⟨shared, hcall, rfl⟩, hrest⟩
    exact ⟨_, ⟨arguments, stack, word, shared, rfl, hlength, hcall, rfl⟩, hrest⟩

end Calls

end JackCompiler
