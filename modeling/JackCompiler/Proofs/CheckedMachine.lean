import JackCompiler.Proofs.Agenda
import JackCompiler.Proofs.CheckedScanning

/-!
Compiling as a machine that checks what it does. Tokens are found one by one and kept in a buffer,
the buffer is read by position on an agenda of goals, and directives are carried out one by one.
Texts of tokens are slices of the source, offsets and labels are numbers of 32 bits, and values,
counts and the numbers of commands have 16 bits. A step has no result if anything it computes does
not fit or is not there.
-/

namespace JackCompiler

/-! ### Reading and writing -/

/-- Whether the arguments are counted in 16 bits, with the receiver if there is one. -/
def Goal.isNarrow : Goal → Bool
  | moreArguments _ count => count < 2 ^ 16
  | act (.invoke _ _ count) | act (.invokeOwn _ count) => count + 1 < 2 ^ 16
  | _ => true

/-- The number in a command. -/
def Command.number : Command → Nat
  | push _ n | pop _ n | call _ n | function _ n => n
  | operate _ | label _ | goto _ | ifGoto _ | ret => 0

def Effect.isNarrow : Effect → Bool
  | issued command => command.number < 2 ^ 16
  | logged _ => true

/-- Whether names are counted in 16 bits, and the commands have numbers of 16 bits. -/
def Generator.isNarrow (g : Generator) : Bool :=
  VariableKind.all.all (g.scopes.count · < 2 ^ 16) && g.effects.all Effect.isNarrow

/-- An agenda whose tokens are in a buffer. -/
structure BufferedAgenda where
  buffer : List Token
  position : Nat := 0
  labels : Nat := 0
  goals : List Goal
  code : List Directive := []

inductive CheckedMachine where
  | scanning (scanner : Scanner) (found : List Token)
  | reading (agenda : BufferedAgenda)
  | writing (g : Generator) (directives : List Directive) (refusal : Option Refusal)
  | ended (delivery : Transcript.Delivery)

namespace BufferedAgenda

/-- The token so many places after the position, or the last one, with its text. -/
def peekNth? (source : String) (agenda : BufferedAgenda) (n : Nat) : Option Token := do
  let last ← minus? agenda.buffer.length 1
  let token ← agenda.buffer[min (agenda.position + n) last]?
  let text ← token.span.text? source
  some { token with text }

/-- The agenda with other goals in front. -/
def push? (agenda : BufferedAgenda) (others goals : List Goal) : Option CheckedMachine :=
  if others.all Goal.isNarrow then some (.reading { agenda with goals := others ++ goals })
  else none

/-- Nothing is left to be read. -/
def finish (agenda : BufferedAgenda) (refusal : Option Refusal) : CheckedMachine :=
  .writing {} agenda.code.reverse refusal

/-- The goal takes the token that it wants. Only the last goal wants the end of the text. -/
def take? (source : String) (agenda : BufferedAgenda) (token : Token) (goal : Goal)
    (goals : List Goal) : Option CheckedMachine :=
  if token.kind = .endOfFile then some (agenda.finish none)
  else if goal.isFull (some maxInteger) then do
    let following ← agenda.peekNth? source 1
    some (agenda.finish (some ⟨.tooManyArguments, following⟩))
  else push? { agenda with position := agenda.position + 1 } (goal.next token) goals

/-- The goal does not want the token, and falls back. -/
def pass? (agenda : BufferedAgenda) (token : Token) (goal : Goal) (goals : List Goal) :
    Option CheckedMachine :=
  match goal.fallback with
  | .goals others => agenda.push? others goals
  | .emit directive => some (.reading { agenda with goals, code := directive :: agenda.code })
  | .branch others => do
    let second ← narrow? 32 (agenda.labels + 1)
    let labels ← narrow? 32 (second + 1)
    push? { agenda with labels } (others agenda.labels) goals
  | .refuse expected =>
    some (agenda.finish (some ⟨.unexpected expected token.kind token.text, token⟩))

/-- Work on the goal in front. -/
def step? (source : String) (agenda : BufferedAgenda) : Option CheckedMachine :=
  match agenda.goals with
  | [] => none
  | goal :: goals => do
    let token ← agenda.peekNth? source 0
    if goal.wants token.kind then agenda.take? source token goal goals
    else agenda.pass? token goal goals

end BufferedAgenda

namespace CheckedMachine

/-- The machine before the first step. -/
def start (source : String) : CheckedMachine :=
  .scanning (.start source) []

/-- All that is to be read of a class, in the tokens of a buffer. -/
def read (buffer : List Token) : CheckedMachine :=
  .reading { buffer, goals := [.token (.keyword .class_), .name .class_, .finish] }

/-- The end of the work. A failure is put at its place, and what was done goes to the device. -/
def conclude? (source : String) (device : Device) (g : Generator) (failure : Option Failure) :
    Option CheckedMachine := do
  let diagnostic ← failure.mapM (Failure.locate? source)
  some (.ended (Transcript.deliver ⟨g.effects.reverse, diagnostic⟩ device))

/-- One step, with a result only if all that it computes is in range. -/
def step? (source : String) (device : Device) : CheckedMachine → Option CheckedMachine
  | scanning scanner found => do
    match ← scanner.next? source with
    | (.error error, _) => some (.ended (Transcript.deliver ⟨[], some (.lexical error)⟩ device))
    | (.ok token, after) =>
      if token.kind = .endOfFile then some (.read (token :: found).reverse)
      else some (.scanning after (token :: found))
  | reading agenda => agenda.step? source
  | writing g [] refusal => conclude? source device g (refusal.map .refused)
  | writing g (directive :: rest) refusal =>
    match g.perform directive with
    | .ok next => if next.isNarrow then some (.writing next rest refusal) else none
    | .error (failure, last) => conclude? source device last (some failure)
  | ended delivery => some (.ended delivery)

/-- The machine after so many steps, if none of them goes out of range. -/
def run? (source : String) (device : Device) : Nat → CheckedMachine → Option CheckedMachine
  | 0, machine => some machine
  | n + 1, machine => machine.step? source device >>= run? source device n

end CheckedMachine

end JackCompiler
