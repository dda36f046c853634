import JackCompiler.Token.Cursor

/-!
Any sequence of requests to a cursor before given tokens. A request either finds a token of a kind
that it wants and moves the cursor over this token, or it leaves the cursor as it was. The end of
the text is never taken, so the cursor goes through its tokens in order and comes to stand before
the first end at the latest.
-/

namespace JackCompiler

/-! ### Readers of given tokens -/

namespace Reader

/-- The given tokens, closed by the end of the text if they do not end with one. -/
def completed (source : String) (tokens : List Token) : List Token :=
  if tokens.getLast?.map Token.kind = some .endOfFile then tokens
  else tokens ++ [endOf source]

theorem ofTokens_append_singleton (source : String) (earlier : List Token) {last : Token}
    (hlast : last.kind = .endOfFile) :
    ofTokens source (earlier ++ [last]) = ⟨source, earlier, last⟩ := by
  rw [ofTokens, List.getLast?_concat]
  dsimp only
  rw [if_pos hlast, List.dropLast_concat]

theorem ofTokens_eq (source : String) (tokens : List Token) :
    (ofTokens source tokens).source = source ∧
      (ofTokens source tokens).tokens ++ [(ofTokens source tokens).last] =
        completed source tokens ∧
      (ofTokens source tokens).last.kind = .endOfFile := by
  by_cases hlast : tokens.getLast?.map Token.kind = some .endOfFile
  · obtain ⟨last, hget, hkind⟩ := Option.map_eq_some_iff.1 hlast
    obtain ⟨earlier, rfl⟩ := List.getLast?_eq_some_iff.1 hget
    rw [completed, if_pos hlast, ofTokens_append_singleton source earlier hkind]
    exact ⟨rfl, rfl, hkind⟩
  · have hreader : ofTokens source tokens = ⟨source, tokens, endOf source⟩ := by
      rw [ofTokens]
      split
      · next last hget =>
        rw [hget] at hlast
        exact if_neg fun hkind => hlast (congrArg some hkind)
      · rfl
    rw [completed, if_neg hlast, hreader]
    exact ⟨rfl, rfl, rfl⟩

variable {reader : Reader}

/-- A place behind the last token is that of the last token. -/
theorem getElem?_concat_min (tokens : List Token) (last : Token) (i : Nat) :
    (tokens ++ [last])[min i tokens.length]? = some (tokens.getD i last) := by
  rw [List.getD_eq_getElem?_getD]
  rcases Nat.lt_or_ge i tokens.length with hinside | hbeyond
  · rw [Nat.min_eq_left (Nat.le_of_lt hinside), List.getElem?_append_left hinside,
      List.getElem?_eq_getElem hinside, Option.getD_some]
  · rw [Nat.min_eq_right hbeyond, List.getElem?_concat_length, List.getElem?_eq_none hbeyond,
      Option.getD_none]

theorem next?_cases (h : reader.last.kind = .endOfFile) :
    (reader.peek.kind = .endOfFile ∧ reader.next? = none) ∨
      ∃ rest, reader.tokens = reader.peek :: rest ∧ reader.peek.kind ≠ .endOfFile ∧
        reader.next? = some (reader.peek, { reader with tokens := rest }) := by
  obtain ⟨source, tokens, last⟩ := reader
  cases tokens with
  | nil => exact .inl ⟨h, rfl⟩
  | cons token rest =>
    by_cases hend : token.kind = .endOfFile
    · exact .inl ⟨hend, if_pos hend⟩
    · exact .inr ⟨rest, rfl, hend, if_neg hend⟩

end Reader

/-! ### Requests -/

namespace Cursor

inductive Request where
  | peek
  | peekNth (n : UInt64)
  | peekKind
  | next
  | accept (kind : TokenKind)
  | consume (kind : TokenKind)
  | consumeAny (kinds : List TokenKind)
  | consumeIdentifier
  | unexpected (expected : String)

inductive Answer where
  | token (token : Token)
  | kind (kind : TokenKind)
  | next (token? : Option Token)
  | accepted (accepted : Bool)
  | consumed (result : Except SyntaxError Token)
  | identifier (result : Except SyntaxError (Token × String))
  | error (error : SyntaxError)

/-- Requests that only look at what is there. -/
def Request.isPeek : Request → Bool
  | peek | peekNth _ | peekKind | unexpected _ => true
  | next | accept _ | consume _ | consumeAny _ | consumeIdentifier => false

/-- The kinds of tokens that a request takes. -/
def Request.wants : Request → TokenKind → Bool
  | peek, _ | peekNth _, _ | peekKind, _ | unexpected _, _ => false
  | next, _ => true
  | accept kind, found | consume kind, found => found = kind
  | consumeAny kinds, found => found ∈ kinds
  | consumeIdentifier, found => found = .identifier

/-- Whether a token was taken. -/
def Answer.isSuccess : Answer → Bool
  | next (some _) | accepted true | consumed (.ok _) | identifier (.ok _) => true
  | _ => false

/-- The answer that this token was taken, with what the request tells of it. -/
def Request.success (token : Token) : Request → Answer
  | next => .next (some token)
  | accept _ => .accepted true
  | consumeIdentifier => .identifier (.ok (token, token.text))
  | _ => .consumed (.ok token)

/-- The answer to a request, and the cursor for the next one. -/
def ask (cursor : Cursor) : Request → Answer × Cursor
  | .peek => (.token cursor.peek, cursor)
  | .peekNth n => (.token (cursor.peekNth n), cursor)
  | .peekKind => (.kind cursor.peek.kind, cursor)
  | .next =>
    match cursor.next? with
    | some (token, after) => (.next (some token), after)
    | none => (.next none, cursor)
  | .accept kind =>
    match cursor.accept? kind with
    | some (_, after) => (.accepted true, after)
    | none => (.accepted false, cursor)
  | .consume kind =>
    match cursor.consume kind with
    | .ok (token, after) => (.consumed (.ok token), after)
    | .error error => (.consumed (.error error), cursor)
  | .consumeAny kinds =>
    match cursor.consumeAny kinds with
    | .ok (token, after) => (.consumed (.ok token), after)
    | .error error => (.consumed (.error error), cursor)
  | .consumeIdentifier =>
    match cursor.consume .identifier with
    | .ok (token, after) => (.identifier (.ok (token, token.text)), after)
    | .error error => (.identifier (.error error), cursor)
  | .unexpected expected => (.error (cursor.unexpected expected), cursor)

/-- The cursor after one request for each of the list. -/
def after (cursor : Cursor) (requests : List Request) : Cursor :=
  requests.foldl (fun cursor request => (cursor.ask request).2) cursor

def answers (cursor : Cursor) : List Request → List Answer
  | [] => []
  | request :: later => (cursor.ask request).1 :: (cursor.ask request).2.answers later

/-- The tokens that were current when a request succeeded. -/
def taken (cursor : Cursor) : List Request → List Token
  | [] => []
  | request :: later =>
    if (cursor.ask request).1.isSuccess then cursor.peek :: (cursor.ask request).2.taken later
    else (cursor.ask request).2.taken later

/-- The place of the first end. -/
def firstEnd (buffer : List Token) : Nat :=
  buffer.findIdx (·.kind = .endOfFile)

/-- The cursor has so many tokens of the buffer behind it and the others before it. -/
structure Stands (cursor : Cursor) (source : String) (buffer : List Token) (place : Nat) :
    Prop where
  source_eq : cursor.ahead.source = source
  behind : cursor.behind.reverse = buffer.take place
  rest : cursor.ahead.tokens ++ [cursor.ahead.last] = buffer.drop place
  closed : cursor.ahead.last.kind = .endOfFile
  bound : place ≤ firstEnd buffer

theorem stands_ofTokens (source : String) (tokens : List Token) :
    (ofTokens source tokens).Stands source (Reader.completed source tokens) 0 := by
  obtain ⟨hsource, hbuffer, hclosed⟩ := Reader.ofTokens_eq source tokens
  exact ⟨hsource, rfl, hbuffer, hclosed, Nat.zero_le _⟩

/-! ### One request -/

section Step

variable {cursor : Cursor} {source : String} {buffer : List Token} {place : Nat}

/-- A request for tokens finds none where the reader has none. -/
theorem consumeAny_of_end (h : cursor.ahead.next? = none) (kinds : List TokenKind) :
    cursor.consumeAny kinds = .error (cursor.unexpected (Reader.expectation kinds)) := by
  rw [consumeAny, Reader.consumeAny, h]
  rfl

theorem consumeAny_of_next? {ahead : Reader} (h : cursor.ahead.next? = some (cursor.peek, ahead))
    (kinds : List TokenKind) :
    cursor.consumeAny kinds =
      if cursor.peek.kind ∈ kinds then .ok (cursor.peek, ⟨cursor.peek :: cursor.behind, ahead⟩)
      else .error (cursor.unexpected (Reader.expectation kinds)) := by
  rw [consumeAny, Reader.consumeAny, h]
  by_cases hkind : cursor.peek.kind ∈ kinds
  · rw [if_pos hkind]
    dsimp only
    rw [if_pos hkind]
    rfl
  · rw [if_neg hkind]
    dsimp only
    rw [if_neg hkind]
    rfl

theorem accept?_of_next? {ahead : Reader} (h : cursor.ahead.next? = some (cursor.peek, ahead))
    (kind : TokenKind) :
    cursor.accept? kind =
      if cursor.peek.kind = kind then some (cursor.peek, ⟨cursor.peek :: cursor.behind, ahead⟩)
      else none := by
  rw [accept?, Reader.accept?, h]
  dsimp only
  split <;> rfl

/-- A request takes the current token if it wants its kind and this is not the end. Otherwise
nothing is taken. -/
theorem ask_cases (h : cursor.ahead.last.kind = .endOfFile) (request : Request) :
    (request.wants cursor.peek.kind = true ∧ cursor.peek.kind ≠ .endOfFile ∧
        ∃ rest, cursor.ahead.tokens = cursor.peek :: rest ∧
          cursor.ask request = (request.success cursor.peek,
            ⟨cursor.peek :: cursor.behind, { cursor.ahead with tokens := rest }⟩)) ∨
      (¬(request.wants cursor.peek.kind = true ∧ cursor.peek.kind ≠ .endOfFile) ∧
        (cursor.ask request).1.isSuccess = false ∧ (cursor.ask request).2 = cursor) := by
  rcases Reader.next?_cases h with ⟨hend, hnext⟩ | ⟨rest, htokens, hnot, hnext⟩
  · refine .inr ⟨fun hwanted => hwanted.2 hend, ?_⟩
    cases request <;> simp [ask, next?, accept?, consume, Reader.accept?, consumeAny_of_end hnext,
      hnext, Answer.isSuccess]
  · have hconsume := consumeAny_of_next? hnext
    have haccept := accept?_of_next? hnext
    by_cases hwants : request.wants cursor.peek.kind = true
    · refine .inl ⟨hwants, hnot, rest, htokens, ?_⟩
      cases request with
      | next =>
        rw [ask, next?, hnext]
        rfl
      | accept kind =>
        rw [ask, haccept, if_pos (of_decide_eq_true hwants)]
        rfl
      | consume kind =>
        have hmem := List.mem_singleton.2 (of_decide_eq_true hwants)
        rw [ask, consume, hconsume, if_pos hmem]
        rfl
      | consumeAny kinds =>
        rw [ask, hconsume, if_pos (of_decide_eq_true hwants)]
        rfl
      | consumeIdentifier =>
        have hmem := List.mem_singleton.2 (of_decide_eq_true hwants)
        rw [ask, consume, hconsume, if_pos hmem]
        rfl
      | _ => cases hwants
    · refine .inr ⟨fun hwanted => hwants hwanted.1, ?_⟩
      have hnotMem {kind : TokenKind} (h : ¬decide (cursor.peek.kind = kind) = true) :
          cursor.peek.kind ∉ [kind] := fun hmem => h (decide_eq_true (List.mem_singleton.1 hmem))
      cases request with
      | next => exact absurd rfl hwants
      | accept kind =>
        rw [ask, haccept, if_neg fun heq => hwants (decide_eq_true heq)]
        exact ⟨rfl, rfl⟩
      | consume kind =>
        rw [ask, consume, hconsume, if_neg (hnotMem hwants)]
        exact ⟨rfl, rfl⟩
      | consumeAny kinds =>
        rw [ask, hconsume, if_neg fun hmem => hwants (decide_eq_true hmem)]
        exact ⟨rfl, rfl⟩
      | consumeIdentifier =>
        rw [ask, consume, hconsume, if_neg (hnotMem hwants)]
        exact ⟨rfl, rfl⟩
      | _ => exact ⟨rfl, rfl⟩

theorem isSuccess_success (request : Request) (token : Token) :
    (request.success token).isSuccess = true := by
  cases request <;> rfl

theorem ask_of_isPeek {request : Request} (h : request.isPeek = true) (cursor : Cursor) :
    (cursor.ask request).2 = cursor := by
  cases request <;> first | rfl | cases h

namespace Stands

/-- The buffer has an end, and the cursor does not pass it. -/
theorem firstEnd_lt (h : cursor.Stands source buffer place) : firstEnd buffer < buffer.length := by
  have hlast : cursor.ahead.last ∈ buffer.drop place := by
    rw [← h.rest]
    exact List.mem_concat_self
  exact List.findIdx_lt_length_of_exists ⟨_, List.mem_of_mem_drop hlast, decide_eq_true h.closed⟩

theorem buffer_eq (h : cursor.Stands source buffer place) :
    buffer = cursor.behind.reverse ++ cursor.ahead.tokens ++ [cursor.ahead.last] := by
  rw [List.append_assoc, h.behind, h.rest, List.take_append_drop]

theorem length_behind (h : cursor.Stands source buffer place) : cursor.behind.length = place := by
  have hbehind := congrArg List.length h.behind
  have hinside := h.firstEnd_lt
  have hbound := h.bound
  rw [List.length_reverse, List.length_take] at hbehind
  omega

/-- Looking ahead gives the token so many places on, or the last one. The place is counted in 64
bits. -/
theorem getElem?_min (h : cursor.Stands source buffer place) (n : UInt64) :
    buffer[min ((place + n.toNat) % UInt64.size) (buffer.length - 1)]? =
      some (cursor.peekNth n) := by
  rw [peekNth, h.length_behind, h.buffer_eq, List.length_append, List.length_singleton,
    Nat.add_sub_cancel]
  exact Reader.getElem?_concat_min _ _ _

theorem getElem?_place (h : cursor.Stands source buffer place) :
    buffer[place]? = some cursor.peek := by
  rw [← Nat.add_zero place, ← List.getElem?_drop, ← h.rest, peek, Reader.peek]
  cases cursor.ahead.tokens <;> rfl

theorem advance {rest : List Token} (h : cursor.Stands source buffer place)
    (htokens : cursor.ahead.tokens = cursor.peek :: rest) (hnot : cursor.peek.kind ≠ .endOfFile) :
    Stands ⟨cursor.peek :: cursor.behind, { cursor.ahead with tokens := rest }⟩ source buffer
      (place + 1) := by
  refine ⟨h.source_eq, ?_, ?_, h.closed, Nat.succ_le_of_lt (Nat.lt_of_le_of_ne h.bound ?_)⟩
  · rw [List.reverse_cons, h.behind, List.take_add_one, h.getElem?_place]
    rfl
  · rw [← List.tail_drop, ← h.rest, htokens]
    rfl
  · -- the current token would be the first end
    rintro rfl
    obtain ⟨_, hcurrent⟩ := List.getElem?_eq_some_iff.1 h.getElem?_place
    refine hnot (hcurrent ▸ of_decide_eq_true ?_)
    exact List.findIdx_getElem (w := h.firstEnd_lt)

end Stands

end Step

/-! ### One request after the other -/

theorem answers_append (cursor : Cursor) (x y : List Request) :
    cursor.answers (x ++ y) = cursor.answers x ++ (cursor.after x).answers y := by
  induction x generalizing cursor with
  | nil => rfl
  | cons request x ih => exact congrArg _ (ih _)

theorem length_answers (cursor : Cursor) (x : List Request) :
    (cursor.answers x).length = x.length := by
  induction x generalizing cursor with
  | nil => rfl
  | cons request x ih => exact congrArg _ (ih _)

/-- A run of requests goes on from the place where the cursor stands, over the tokens it takes. -/
theorem Stands.after {cursor : Cursor} {source : String} {buffer : List Token} {place : Nat}
    (h : cursor.Stands source buffer place) (requests : List Request) :
    ∃ later, (cursor.after requests).Stands source buffer later ∧
      buffer.take later = buffer.take place ++ cursor.taken requests := by
  induction requests generalizing cursor place with
  | nil => exact ⟨place, h, (List.append_nil _).symm⟩
  | cons request requests ih =>
    rcases ask_cases h.closed request with
      ⟨-, hnot, rest, htokens, hask⟩ | ⟨-, hfailed, hsame⟩
    · obtain ⟨later, hstands, htake⟩ := ih (h.advance htokens hnot)
      refine ⟨later, ?_, ?_⟩
      · rw [Cursor.after, List.foldl_cons, hask]
        exact hstands
      · rw [htake, taken, hask, if_pos (isSuccess_success request _), List.take_add_one,
          h.getElem?_place, List.append_assoc]
        rfl
    · obtain ⟨later, hstands, htake⟩ := ih h
      refine ⟨later, ?_, ?_⟩
      · rw [Cursor.after, List.foldl_cons, hsame]
        exact hstands
      · rw [htake, taken, hfailed, hsame]
        rfl

/-- What these requests have taken, and what can come of any other after them. -/
structure ReadsInOrder (first : Cursor) (source : String) (buffer : List Token)
    (requests : List Request) (place : Nat) : Prop where
  taken : first.taken requests = buffer.take place
  stands : (first.after requests).Stands source buffer place
  inside : firstEnd buffer < buffer.length
  lookahead : ∀ n : UInt64, buffer[min ((place + n.toNat) % UInt64.size) (buffer.length - 1)]? =
    some ((first.after requests).peekNth n)
  succeeds : ∀ request, ((first.after requests).ask request).1.isSuccess = true ↔
    request.wants (first.after requests).peek.kind = true ∧
      (first.after requests).peek.kind ≠ .endOfFile
  success : ∀ request, ((first.after requests).ask request).1.isSuccess = true →
    ∃ token, buffer[place]? = some token ∧
      ((first.after requests).ask request).1 = request.success token ∧
      ((first.after requests).ask request).2.Stands source buffer (place + 1)
  failure : ∀ request, ((first.after requests).ask request).1.isSuccess = false →
    ((first.after requests).ask request).2 = first.after requests
  peeking : ∀ request, request.isPeek = true → ∀ later, ∃ x answer y, x.length = requests.length ∧
    first.answers (requests ++ later) = x ++ y ∧
    first.answers (requests ++ request :: later) = x ++ answer :: y
  ends : ∀ request, (∀ kind, request.wants kind = true → kind = .endOfFile) →
    ((first.after requests).ask request).1.isSuccess = false

/-- Whatever is asked of a cursor, it goes through its tokens in order and stops at the first
end. -/
theorem reads_in_order (source : String) (tokens : List Token) (requests : List Request) :
    ∃ place, (ofTokens source tokens).ReadsInOrder source (Reader.completed source tokens) requests
      place := by
  obtain ⟨place, hstands, htake⟩ := (stands_ofTokens source tokens).after requests
  have hcases := ask_cases hstands.closed
  refine ⟨place, htake.symm, hstands, hstands.firstEnd_lt, hstands.getElem?_min,
    fun request => ?_, fun request hsuccess => ?_, fun request hfailed => ?_,
    fun request hpeek later => ?_, fun request hends => ?_⟩
  · rcases hcases request with ⟨hwants, hnot, rest, -, hask⟩ | ⟨hneither, hfailed, -⟩
    · rw [hask]
      exact iff_of_true (isSuccess_success request _) ⟨hwants, hnot⟩
    · exact iff_of_false (Bool.eq_false_iff.1 hfailed) hneither
  · rcases hcases request with ⟨-, hnot, rest, htokens, hask⟩ | ⟨-, hfailed, -⟩
    · rw [hask]
      exact ⟨_, hstands.getElem?_place, rfl, hstands.advance htokens hnot⟩
    · exact absurd hsuccess (Bool.eq_false_iff.1 hfailed)
  · rcases hcases request with ⟨-, -, rest, -, hask⟩ | ⟨-, -, hsame⟩
    · rw [hask, isSuccess_success] at hfailed
      cases hfailed
    · exact hsame
  · refine ⟨_, (((ofTokens source tokens).after requests).ask request).1, _,
      length_answers _ requests, answers_append _ requests later, ?_⟩
    rw [answers_append, answers, ask_of_isPeek hpeek]
  · rcases hcases request with ⟨hwants, hnot, -⟩ | ⟨-, hfailed, -⟩
    · exact absurd (hends _ hwants) hnot
    · exact hfailed

/-- An end in the middle of the tokens stops the cursor, which looks past it all the same. Far
enough ahead is a token that was taken. -/
example :
    let x : Token := ⟨.identifier, "x", ⟨0, 1⟩⟩
    let first := ofTokens "x y" [x, .endAt 1, ⟨.identifier, "y", ⟨2, 1⟩⟩]
    first.taken [.peekNth 2, .consumeIdentifier, .next, .accept .endOfFile] = [x] ∧
      (first.after [.next, .next]).peekNth 1 = ⟨.identifier, "y", ⟨2, 1⟩⟩ ∧
      (first.after [.next]).peekNth 0xFFFFFFFFFFFFFFFF = x := by
  decide

end Cursor

end JackCompiler
