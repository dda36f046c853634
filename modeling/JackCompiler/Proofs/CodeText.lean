import JackCompiler.Proofs.Acceptance
import JackCompiler.Proofs.CodeNames
import JackCompiler.Proofs.Utf8Texts

/-!
The text of code, as a program that reads it sees it. A line is a few fields with one space between
any two of them, no field contains a space or the end of a line, and the fields tell the command. So
the commands of a text can be read back from what is written, up to wherever its compilation ends.
-/

namespace JackCompiler

/-! ### Fields -/

/-- The number that decimal digits stand for. -/
def number? (digits : String) : Option Nat :=
  if digits.toList ≠ [] ∧ digits.toList.all isDigit then some (Nat.ofDigitChars 10 digits.toList 0)
  else none

theorem isDigit_of_mem_toString {c : Char} {n : Nat} (h : c ∈ (toString n).toList) :
    isDigit c = true := by
  rw [Nat.toString_eq_repr, Nat.toList_repr] at h
  exact Nat.isDigit_of_mem_toDigits (by decide) (by decide) h

theorem number?_toString (n : Nat) : number? (toString n) = some n := by
  have hdigits : (toString n).toList ≠ [] ∧ (toString n).toList.all isDigit = true := by
    refine ⟨?_, List.all_eq_true.2 fun c => isDigit_of_mem_toString⟩
    rw [Nat.toString_eq_repr, Nat.toList_repr]
    exact Nat.toDigits_ne_nil
  rw [number?, if_pos hdigits, Nat.toString_eq_repr, Nat.toList_repr]
  exact congrArg some Nat.ofDigitChars_ten_toDigits

namespace Command

/-- The parts that a line of code is put together from. -/
def fields : Command → List String
  | push segment index => ["push", segment.text, toString index]
  | pop segment index => ["pop", segment.text, toString index]
  | operate operation => [operation.text]
  | label name => ["label", name]
  | goto name => ["goto", name]
  | ifGoto name => ["if-goto", name]
  | call name arguments => ["call", name, toString arguments]
  | function name locals => ["function", name, toString locals]
  | ret => ["return"]

theorem text_eq_fields (command : Command) :
    command.text = String.intercalate " " command.fields := by
  cases command <;> simp [text, fields, String.intercalate_cons_cons, String.append_assoc]

/-- The command with these fields, if they are those of one. -/
def ofFields? : List String → Option Command
  | [word] => if word = "return" then some ret else (Operation.ofText? word).map operate
  | [word, name] =>
    if word = "label" then some (label name)
    else if word = "goto" then some (goto name)
    else if word = "if-goto" then some (ifGoto name)
    else none
  | [word, name, number] =>
    (number? number).bind fun n =>
      if word = "push" then (Segment.ofText? name).map (push · n)
      else if word = "pop" then (Segment.ofText? name).map (pop · n)
      else if word = "call" then some (call name n)
      else if word = "function" then some (function name n)
      else none
  | _ => none

theorem ofFields?_fields (command : Command) : ofFields? command.fields = some command := by
  have hnumber : ∀ n : Nat, number? n.repr = some n := number?_toString
  cases command with
  | operate operation =>
    have hword : operation.text ≠ "return" := by cases operation <;> decide
    rw [fields, ofFields?, if_neg hword, Operation.ofText?_text, Option.map_some]
  | push segment index => simp [fields, ofFields?, hnumber, Segment.ofText?_text]
  | pop segment index => simp [fields, ofFields?, hnumber, Segment.ofText?_text]
  | _ => simp [fields, ofFields?, hnumber]

end Command

/-! ### Reading code back -/

/-- The command that a line stands for. Its fields are parted by spaces. -/
def decodeLine (line : List Char) : Option Command :=
  Command.ofFields? ((line.splitOn ' ').map String.ofList)

/-- The commands of a text in which every line ends with a line feed. -/
def decodeCode (text : String) : Option (List Command) :=
  let lines := text.toList.splitOn '\n'
  if lines.getLast? = some [] then lines.dropLast.mapM decodeLine else none

/-! ### Plain text -/

def isPlainCharacter (c : Char) : Bool :=
  isWordCharacter c || c = '.' || c = '-'

theorem toNat_lt_of_isPlainCharacter {c : Char} (h : isPlainCharacter c = true) :
    c.toNat < 128 := by
  simp only [isPlainCharacter, isWordCharacter, isLetter, isDigit, Bool.or_eq_true,
    Bool.and_eq_true, decide_eq_true_eq, Char.le_def, UInt32.le_iff_toNat_le] at h
  rcases h with (((((⟨-, hlast⟩ | ⟨-, hlast⟩) | rfl) | ⟨-, hlast⟩) | rfl) | rfl)
  · exact Nat.lt_of_le_of_lt hlast (by decide)
  · exact Nat.lt_of_le_of_lt hlast (by decide)
  · decide
  · exact Nat.lt_of_le_of_lt hlast (by decide)
  · decide
  · decide

/-- The text has only letters, digits, underscores, dots and hyphens. -/
def IsPlain (text : String) : Prop :=
  text.toList.all isPlainCharacter = true

namespace IsPlain

variable {text other : String}

theorem character (h : IsPlain text) {c : Char} (hmem : c ∈ text.toList) :
    isPlainCharacter c = true :=
  List.all_eq_true.1 h c hmem

theorem append (h : IsPlain text) (k : IsPlain other) : IsPlain (text ++ other) := by
  rw [IsPlain, String.toList_append, List.all_append, Bool.and_eq_true]
  exact ⟨h, k⟩

theorem not_mem (h : IsPlain text) {c : Char} (hc : isPlainCharacter c = false) :
    c ∉ text.toList := by
  intro hmem
  rw [h.character hmem] at hc
  cases hc

/-- Plain characters are ASCII, and none ends a line. -/
theorem ascii (h : IsPlain text) {c : Char} (hmem : c ∈ text.toList) :
    c.toNat < 128 ∧ c ≠ '\n' := by
  refine ⟨toNat_lt_of_isPlainCharacter (h.character hmem), ?_⟩
  rintro rfl
  exact h.not_mem rfl hmem

theorem of_words (h : ∀ c ∈ text.toList, isWordCharacter c = true) : IsPlain text := by
  refine List.all_eq_true.2 fun c hmem => ?_
  rw [isPlainCharacter, h c hmem, Bool.true_or, Bool.true_or]

theorem ofNat (n : Nat) : IsPlain (toString n) := by
  refine of_words fun c hmem => ?_
  rw [isWordCharacter, isDigit_of_mem_toString hmem, Bool.or_true]

theorem of_isIdentifier (h : isIdentifier text = true) : IsPlain text := by
  unfold isIdentifier at h
  split at h
  · cases h
  · next first rest hlist =>
    rw [Bool.and_eq_true, Bool.and_eq_true, List.all_eq_true] at h
    obtain ⟨⟨hfirst, hrest⟩, -⟩ := h
    refine of_words ?_
    rw [hlist]
    exact List.forall_mem_cons.2 ⟨isWordCharacter_of_isLetter hfirst, hrest⟩

theorem of_isTypeName (h : IsTypeName text) : IsPlain text := by
  rcases h with h | h
  · exact of_isIdentifier h
  · simp only [List.mem_cons, List.not_mem_nil, or_false] at h
    rcases h with rfl | rfl | rfl <;> rfl

theorem of_isQualified (h : IsQualified text) : IsPlain text := by
  obtain ⟨owner, member, howner, hmember, rfl⟩ := h
  have hdot : IsPlain "." := rfl
  exact ((of_isTypeName howner).append hdot).append (of_isIdentifier hmember)

theorem of_isLabel (h : IsLabel text) : IsPlain text := by
  obtain ⟨n, rfl⟩ := h
  have hletter : IsPlain "L" := rfl
  exact hletter.append (ofNat n)

end IsPlain

/-! ### The forms of a line -/

/-- What a line of code can be. -/
inductive Form where
  | access | operation | jump | invocation | ret
deriving DecidableEq

/-- The first field of a line. -/
def Form.words : Form → List String
  | access => ["push", "pop"]
  | operation => ["add", "sub", "neg", "eq", "gt", "lt", "and", "or", "not"]
  | jump => ["label", "goto", "if-goto"]
  | invocation => ["call", "function"]
  | ret => ["return"]

def IsSegment (text : String) : Prop :=
  text ∈ ["constant", "argument", "local", "static", "this", "that", "pointer", "temp"]

def IsNumber (text : String) : Prop :=
  ∃ n : Nat, text = toString n

theorem IsPlain.of_isSegment {text : String} (h : IsSegment text) : IsPlain text := by
  simp only [IsSegment, List.mem_cons, List.not_mem_nil, or_false] at h
  rcases h with rfl | rfl | rfl | rfl | rfl | rfl | rfl | rfl <;> rfl

theorem IsPlain.of_isNumber {text : String} (h : IsNumber text) : IsPlain text := by
  obtain ⟨n, rfl⟩ := h
  exact .ofNat n

/-- What the other fields of a line are. -/
def Form.operands : Form → List (String → Prop)
  | access => [IsSegment, IsNumber]
  | jump => [IsLabel]
  | invocation => [IsQualified, IsNumber]
  | operation | ret => []

/-- These are the fields of a line of this form. -/
def Form.Fits (form : Form) : List String → Prop
  | [] => False
  | word :: operands =>
    word ∈ form.words ∧ List.Forall₂ (fun holds field => holds field) form.operands operands

/-- The line is of this form: its fields are, and there is one space between any two of them. -/
def Form.Matches (form : Form) (line : String) : Prop :=
  ∃ fields, form.Fits fields ∧ line = String.intercalate " " fields

theorem Form.isPlain_of_mem {form : Form} {word : String} (h : word ∈ form.words) :
    IsPlain word := by
  have hall : form.words.all (·.toList.all isPlainCharacter) = true := by
    cases form <;> rfl
  exact List.all_eq_true.1 hall word h

theorem Form.eq_of_mem {form other : Form} {word : String} (h : word ∈ form.words)
    (k : word ∈ other.words) : form = other := by
  have hall : ∀ word ∈ form.words, word ∈ other.words → form = other := by
    cases form <;> cases other <;> decide
  exact hall word h k

/-- The first field is what comes before the first space. -/
theorem takeWhile_intercalate {word : String} (h : IsPlain word) (fields : List String) :
    (String.intercalate " " (word :: fields)).toList.takeWhile (· != ' ') = word.toList := by
  have hword : ∀ c ∈ word.toList, (c != ' ') = true := by
    intro c hmem
    apply bne_iff_ne.2
    rintro rfl
    exact h.not_mem rfl hmem
  cases fields with
  | nil =>
    rw [String.intercalate_singleton]
    exact List.takeWhile_eq_self_iff.2 hword
  | cons second rest =>
    rw [String.intercalate_cons_cons, String.toList_append, String.toList_append,
      List.append_assoc, List.takeWhile_append_of_pos hword]
    simp

/-- No line is of two forms. -/
theorem Form.unique {form other : Form} {line : String} (h : form.Matches line)
    (k : other.Matches line) : form = other := by
  obtain ⟨_ | ⟨word, fields⟩, hfits, rfl⟩ := h
  · exact hfits.elim
  obtain ⟨_ | ⟨another, others⟩, kfits, heq⟩ := k
  · exact kfits.elim
  obtain ⟨hword, -⟩ := hfits
  obtain ⟨hanother, -⟩ := kfits
  have hsame : word.toList = another.toList := by
    rw [← takeWhile_intercalate (isPlain_of_mem hword) fields, heq,
      takeWhile_intercalate (isPlain_of_mem hanother) others]
  rw [← String.toList_injective hsame] at hanother
  exact eq_of_mem hword hanother

namespace Command

def form : Command → Form
  | push _ _ | pop _ _ => .access
  | operate _ => .operation
  | label _ | goto _ | ifGoto _ => .jump
  | call _ _ | function _ _ => .invocation
  | ret => .ret

theorem form_fits {command : Command} (h : command.WellNamed) :
    command.form.Fits command.fields := by
  have hsegment : ∀ segment : Segment, IsSegment segment.text := by
    intro segment
    unfold IsSegment
    cases segment <;> decide
  cases command with
  | push segment index | pop segment index =>
    exact ⟨by simp [form, Form.words], .cons (hsegment segment) (.cons ⟨index, rfl⟩ .nil)⟩
  | operate operation =>
    refine ⟨?_, .nil⟩
    cases operation <;> decide
  | label name | goto name | ifGoto name =>
    exact ⟨by simp [form, Form.words], .cons h .nil⟩
  | call name number | function name number =>
    exact ⟨by simp [form, Form.words], .cons h (.cons ⟨number, rfl⟩ .nil)⟩
  | ret => exact ⟨by simp [form, Form.words], .nil⟩

theorem form_matches {command : Command} (h : command.WellNamed) :
    command.form.Matches command.text :=
  ⟨command.fields, form_fits h, command.text_eq_fields⟩

end Command

theorem Form.Fits.isPlain {form : Form} {fields : List String} (h : form.Fits fields) :
    ∀ field ∈ fields, IsPlain field := by
  cases fields with
  | nil => exact List.forall_mem_nil _
  | cons word operands =>
    obtain ⟨hword, hoperands⟩ := h
    refine List.forall_mem_cons.2 ⟨isPlain_of_mem hword, ?_⟩
    cases form with
    | access =>
      rcases hoperands with _ | ⟨hfirst, _ | ⟨hsecond, _ | _⟩⟩
      simp [IsPlain.of_isSegment hfirst, IsPlain.of_isNumber hsecond]
    | jump =>
      rcases hoperands with _ | ⟨hfirst, _ | _⟩
      simp [IsPlain.of_isLabel hfirst]
    | invocation =>
      rcases hoperands with _ | ⟨hfirst, _ | ⟨hsecond, _ | _⟩⟩
      simp [IsPlain.of_isQualified hfirst, IsPlain.of_isNumber hsecond]
    | operation | ret =>
      rcases hoperands with _ | _
      exact List.forall_mem_nil _

/-! ### Lines -/

theorem mem_intercalate {c : Char} {fields : List String}
    (h : c ∈ (String.intercalate " " fields).toList) :
    c = ' ' ∨ ∃ field ∈ fields, c ∈ field.toList := by
  induction fields with
  | nil => cases h
  | cons first rest ih =>
    cases rest with
    | nil => exact Or.inr ⟨first, List.mem_cons_self, by rwa [String.intercalate_singleton] at h⟩
    | cons second later =>
      rw [String.intercalate_cons_cons, String.toList_append, String.toList_append,
        List.mem_append, List.mem_append] at h
      rcases h with (hfirst | hspace) | hrest
      · exact Or.inr ⟨first, List.mem_cons_self, hfirst⟩
      · exact Or.inl (List.mem_singleton.1 hspace)
      · rcases ih hrest with hc | ⟨field, hfield, hc⟩
        · exact Or.inl hc
        · exact Or.inr ⟨field, List.mem_cons_of_mem _ hfield, hc⟩

/-- A line is ASCII and does not end before it does. -/
theorem Form.Matches.characters {form : Form} {line : String} (h : form.Matches line) :
    ∀ c ∈ line.toList, c.toNat < 128 ∧ c ≠ '\n' := by
  obtain ⟨fields, hfits, rfl⟩ := h
  intro c hmem
  rcases mem_intercalate hmem with rfl | ⟨field, hfield, hc⟩
  · decide
  · exact hfits.isPlain field hfield |>.ascii hc

/-- The fields of a line can be told apart. -/
theorem decodeLine_text {command : Command} (h : command.WellNamed) :
    decodeLine command.text.toList = some command := by
  have hspace : ∀ field ∈ command.fields.map String.toList, ' ' ∉ field := by
    intro field hmem
    obtain ⟨text, htext, rfl⟩ := List.mem_map.1 hmem
    exact ((Command.form_fits h).isPlain text htext).not_mem rfl
  have hfields : command.fields.map String.toList ≠ [] := by
    cases command <;> exact List.cons_ne_nil _ _
  have hline : command.text.toList = [' '].intercalate (command.fields.map String.toList) := by
    rw [command.text_eq_fields, String.toList_intercalate]
    rfl
  rw [decodeLine, hline, List.splitOn_intercalate ' ' hspace hfields, List.map_map]
  have hsame : String.ofList ∘ String.toList = id := funext fun _ => String.ofList_toList
  rw [hsame, List.map_id, Command.ofFields?_fields]

theorem mapM_decodeLine {code : List Command} (h : ∀ command ∈ code, command.WellNamed) :
    (code.map fun command => command.text.toList).mapM decodeLine = some code := by
  induction code with
  | nil => rfl
  | cons command rest ih =>
    obtain ⟨hfirst, hrest⟩ := List.forall_mem_cons.1 h
    rw [List.map_cons, List.mapM_cons, decodeLine_text hfirst, ih hrest]
    rfl

/-- The text of code is its lines with a line feed between any two and one behind the last. -/
theorem toList_join_lines (code : List Command) :
    (String.join (code.map Command.line)).toList =
      ['\n'].intercalate (code.map (fun command => command.text.toList) ++ [[]]) := by
  induction code with
  | nil => rfl
  | cons command rest ih =>
    rw [List.map_cons, String.join_cons, String.toList_append, ih, Command.line,
      String.toList_append, List.map_cons, List.cons_append,
      List.intercalate_cons_of_ne_nil (by simp)]
    rfl

theorem decodeCode_lines {code : List Command} (h : ∀ command ∈ code, command.WellNamed) :
    decodeCode (String.join (code.map Command.line)) = some code := by
  have hnewline : ∀ line ∈ code.map (fun command => command.text.toList) ++ [[]],
      '\n' ∉ line := by
    intro line hmem hc
    rcases List.mem_append.1 hmem with hline | hlast
    · obtain ⟨command, hcommand, rfl⟩ := List.mem_map.1 hline
      exact ((Command.form_matches (h command hcommand)).characters '\n' hc).2 rfl
    · rw [List.mem_singleton.1 hlast] at hc
      cases hc
  rw [decodeCode, toList_join_lines, List.splitOn_intercalate '\n' hnewline (by simp)]
  simp only [List.getLast?_append, List.getLast?_singleton, Option.some_or, if_true,
    List.dropLast_concat]
  exact mapM_decodeLine h

example : decodeCode "push constant 7\nreturn\n" = some [.push .constant 7, .ret] := by
  decide +kernel

/-! ### What is written -/

theorem ascii_lines {code : List Command} (h : ∀ command ∈ code, command.WellNamed) :
    ∀ c ∈ (String.join (code.map Command.line)).toList, c.toNat < 128 := by
  intro c hmem
  rw [String.toList_join, List.mem_flatMap] at hmem
  obtain ⟨line, hline, hc⟩ := hmem
  obtain ⟨command, hcommand, rfl⟩ := List.mem_map.1 hline
  rw [Command.line, String.toList_append] at hc
  rcases List.mem_append.1 hc with hc | hc
  · exact ((Command.form_matches (h command hcommand)).characters c hc).1
  · rw [List.mem_singleton.1 hc]
    decide

theorem lt_of_mem_toUTF8 {text : String} (h : ∀ c ∈ text.toList, c.toNat < 128) :
    ∀ byte ∈ text.toUTF8.toList, byte < 128 := by
  intro byte hmem
  rw [Utf8.toList_toUTF8] at hmem
  obtain ⟨c, hc, hbyte⟩ := List.mem_flatMap.1 hmem
  have hle : c.val.toNat ≤ 127 := Nat.le_of_lt_succ (h c hc)
  simp only [String.utf8EncodeChar, if_pos hle, List.mem_singleton] at hbyte
  rw [hbyte, UInt8.lt_iff_toNat_lt, UInt8.toNat_ofNat']
  exact Nat.lt_of_le_of_lt (Nat.mod_le _ _) (Nat.lt_succ_of_le hle)

theorem compileText_ne_encoding (source : String) (fault : Utf8.Fault) :
    compileText source ≠ .error (.encoding fault) := by
  intro hfault
  have hdecodes := Utf8.decode_eq_ok.2 (compile source).deliver_unlimited.2
  rw [compileText, (compile source).deliver_unlimited.1, hdecodes] at hfault
  cases hfailure : (compile source).failure with
  | none =>
    rw [hfailure] at hfault
    cases hfault
  | some failure =>
    rw [hfailure] at hfault
    cases hfault
    exact compile_failure_ne_encoding source fault hfailure

/-- Whatever is written of a text, up to the end or to where its compilation fails, is ASCII in
whole lines, each of exactly one form, and the commands can be read back from it. So it is never
what is written that is not UTF-8. -/
theorem compile_output_decodes (source : String) :
    (∀ byte ∈ ((compile source).deliver {}).device.written.toList, byte < 128) ∧
      (∃ lines : List String, ((compile source).deliver {}).device.written =
          (String.join (lines.map (· ++ "\n"))).toUTF8 ∧
        ∀ line ∈ lines, '\n' ∉ line.toList ∧ ∃! form : Form, form.Matches line) ∧
      (∃ text, Utf8.decode ((compile source).deliver {}).device.written = .ok text ∧
        decodeCode text = some (compile source).commands) ∧
      ∀ fault, compileText source ≠ .error (.encoding fault) := by
  have hnamed := compile_wellNamed source
  have hwritten : ((compile source).deliver {}).device.written =
      (String.join ((compile source).commands.map Command.line)).toUTF8 :=
    (compile source).deliver_unlimited.2
  refine ⟨?_, ?_, ⟨_, Utf8.decode_eq_ok.2 hwritten, decodeCode_lines hnamed⟩,
    compileText_ne_encoding source⟩
  · rw [hwritten]
    exact lt_of_mem_toUTF8 (ascii_lines hnamed)
  · refine ⟨(compile source).commands.map Command.text, ?_, fun line hmem => ?_⟩
    · rw [hwritten, List.map_map]
      rfl
    · obtain ⟨command, hcommand, rfl⟩ := List.mem_map.1 hmem
      have hmatches := Command.form_matches (hnamed command hcommand)
      exact ⟨fun hc => (hmatches.characters '\n' hc).2 rfl, command.form, hmatches,
        fun other hother => Form.unique hother hmatches⟩

/-- A text that compiles is the yield of one tree, and the code of the tree is what is written, to
the last command. Read back, what is written is the code of the tree again. -/
theorem compile_writes_code_of_tree (source : String)
    (h : ((compile source).deliver {}).failure = none) :
    ∃ tokens last, Scanner.tokens source = .ok (tokens ++ [last]) ∧ last.kind = .endOfFile ∧
      ∃ tree : Tree.Class, tree.yield = tokens.map Token.lexeme ∧
        (∀ other : Tree.Class, other.yield = tokens.map Token.lexeme → other = tree) ∧
        (compile source).commands = tree.code ∧
        ((compile source).deliver {}).device.written =
          (String.join (tree.code.map Command.line)).toUTF8 ∧
        ∃ text, Utf8.decode ((compile source).deliver {}).device.written = .ok text ∧
          decodeCode text = some tree.code := by
  obtain ⟨-, hwritten⟩ := (compile source).deliver_unlimited
  have hnamed := compile_wellNamed source
  obtain ⟨tree, hscans, -, hcommands⟩ := tree_of_delivered h
  obtain ⟨tokens, last, htokens, hlast, hyield⟩ := hscans
  rw [hcommands] at hnamed
  rw [Transcript.output, hcommands] at hwritten
  refine ⟨tokens, last, htokens, hlast, tree, hyield.symm, ?_, hcommands, hwritten,
    _, Utf8.decode_eq_ok.2 hwritten, decodeCode_lines hnamed⟩
  intro other hother
  exact Tree.Class.yield_injective (hother.trans hyield)

theorem compile_writes_code_of_rowClass :
    ((compile rowClass).deliver {}).failure = none ∧
      ∃ tokens last, Scanner.tokens rowClass = .ok (tokens ++ [last]) ∧
        last.kind = .endOfFile ∧
        ∃ tree : Tree.Class, tree.yield = tokens.map Token.lexeme ∧
          (∀ other : Tree.Class, other.yield = tokens.map Token.lexeme → other = tree) ∧
          (compile rowClass).commands = tree.code ∧
          ((compile rowClass).deliver {}).device.written =
            (String.join (tree.code.map Command.line)).toUTF8 ∧
          ∃ text, Utf8.decode ((compile rowClass).deliver {}).device.written = .ok text ∧
            decodeCode text = some tree.code :=
  ⟨rowClass_compiles, compile_writes_code_of_tree rowClass rowClass_compiles⟩

end JackCompiler
