import LineBasic.Proofs.Grammar.Bounds
import LineBasic.Proofs.Grammar.Drawing
import LineBasic.Proofs.Grammar.FirstFault

/-!
# Readers that go on after errors

A reader that has failed can be used again, in the middle of whatever it was reading, and for
another rule of the grammar.  It goes on from the token that it was at.  Whatever is asked for, in
whatever order and with whatever success, each token of the text is consumed once or is the current
one, and a tree is only ever that of the tokens that were consumed for it.

Main definitions:

- `Request` and `Tree`: what can be asked for, and what is given.
- `Tree.Derives`: the tokens of a tree by the rule that was asked for.
- `session`: requests one after the other, whether they are met or not.
- `Call` and `Calls`: what a request draws and consumes, and what all of them do.

Main results:

- `Tree.Derives.unique`: tokens are one tree at most.
- `Request.run_within`: no request comes to its bound.
- `calls_of_session`: sessions are such calls.
- `session_is_consistent`: what is drawn and consumed in the sessions of a text.
-/

namespace LineBasic

open Grammar ReaderState

/-! ## Requests -/

/-- What a reader can be asked for. -/
inductive Request where
  | program | statement | expression | item | items
deriving DecidableEq, Repr

/-- What a reader gives. -/
inductive Tree where
  | program (p : Program)
  | statement (s : Stmt)
  | expression (e : Expr)
  | item (e : Expr)
  | items (es : List Expr)
deriving DecidableEq, Repr

/-- What was asked for to be given a tree. -/
def Tree.request : Tree → Request
  | program _ => .program
  | statement _ => .statement
  | expression _ => .expression
  | item _ => .item
  | items _ => .items

/-- The tokens of a tree by the rule that was asked for.  Those of a program have the end of the
text behind them. -/
def Tree.Derives (ts : List Token) : Tree → Prop
  | program p => Lines ts p.lines
  | statement s => Statement ts s
  | expression e => Sum ts e
  | item e => Item ts e
  | items es => CommaList Item ts es

/-- The reader that meets a request. -/
def Request.reader : Request → Reader Tree
  | program => return .program (← Reader.program)
  | statement => return .statement (← Reader.statement)
  | expression => return .expression (← Reader.expr)
  | item => return .item (← Reader.item)
  | items => return .items (← Reader.items)

/-- The same reader with a given bound. -/
def Request.within (bound : Nat) : Request → Reader Tree
  | program => return .program ⟨← Reader.linesWithin bound⟩
  | statement => return .statement (← Reader.statementWithin bound)
  | expression => return .expression (← Reader.exprWithin bound)
  | item => return .item (← Reader.itemWithin bound)
  | items => return .items (← Reader.itemsWithin bound)

/-- The bound of a reader is that of the tokens that can still come. -/
theorem Reader.run_bounded {α : Type} (action : Nat → Reader α) (s : ReaderState) :
    (bounded action).run s = (action (s.remaining + 1)).run s :=
  rfl

namespace Request

/-- A request is met with the bound of the tokens that can still come. -/
theorem run_reader (request : Request) (s : ReaderState) :
    request.reader.run s = (request.within (s.remaining + 1)).run s := by
  cases request with
  | program =>
    simp only [reader, within, Reader.program, EStateM.run_bind, Reader.run_bounded]
    cases (Reader.linesWithin (s.remaining + 1)).run s <;> rfl
  | statement => simp only [reader, within, Reader.statement, EStateM.run_bind, Reader.run_bounded]
  | expression => simp only [reader, within, Reader.expr, EStateM.run_bind, Reader.run_bounded]
  | item => simp only [reader, within, Reader.item, EStateM.run_bind, Reader.run_bounded]
  | items => simp only [reader, within, Reader.items, EStateM.run_bind, Reader.run_bounded]

/-- A larger bound makes no difference to any request. -/
theorem agree_within (request : Request) (extra bound : Nat) :
    Reader.Agree bound (request.within bound) (request.within (bound + extra)) := by
  intro s hs
  cases request with
  | program =>
    exact Reader.run_bind_congr (Reader.agree_linesWithin extra bound hs) fun _ _ _ => rfl
  | statement =>
    exact Reader.run_bind_congr (Reader.agree_statementWithin extra bound hs) fun _ _ _ => rfl
  | expression =>
    exact Reader.run_bind_congr (Reader.agree_exprWithin extra bound hs) fun _ _ _ => rfl
  | item => exact Reader.run_bind_congr (Reader.agree_itemWithin extra bound hs) fun _ _ _ => rfl
  | items => exact Reader.run_bind_congr (Reader.agree_itemsWithin extra bound hs) fun _ _ _ => rfl

/-- No request comes to its bound: with a larger one it does the same. -/
theorem run_within (request : Request) (s : ReaderState) (extra : Nat) :
    (request.within (s.remaining + 1 + extra)).run s = request.reader.run s := by
  rw [run_reader, request.agree_within extra _ s.left_le]

variable {request : Request} {s u : ReaderState} {tree : Tree} {e : ParseError}

/-- What is given for a request is the tree of the tokens that are moved over. -/
theorem derives_of_run (h : request.reader.run s = .ok tree u) :
    tree.request = request ∧ (request = .program → u.current.token = .endOfInput) ∧
      ∃ ts, tree.Derives ts ∧ Consumes s ts u := by
  rw [run_reader] at h
  cases request with
  | program =>
    rcases run_bind_eq_ok_iff.1 h with ⟨lines, v, hlines, hpure⟩
    cases hpure
    rcases Reader.reads_linesWithin _ s.left_le hlines with ⟨ts, hrule, hts, hend⟩
    exact ⟨rfl, fun _ => hend, ts, hrule, hts⟩
  | statement =>
    rcases run_bind_eq_ok_iff.1 h with ⟨stmt, v, hstmt, hpure⟩
    cases hpure
    exact ⟨rfl, nofun, Reader.reads_statementWithin _ hstmt⟩
  | expression =>
    rcases run_bind_eq_ok_iff.1 h with ⟨e, v, he, hpure⟩
    cases hpure
    exact ⟨rfl, nofun, Reader.reads_exprWithin _ he⟩
  | item =>
    rcases run_bind_eq_ok_iff.1 h with ⟨e, v, he, hpure⟩
    cases hpure
    exact ⟨rfl, nofun, Reader.reads_itemWithin _ he⟩
  | items =>
    rcases run_bind_eq_ok_iff.1 h with ⟨es, v, hes, hpure⟩
    cases hpure
    exact ⟨rfl, nofun, Reader.reads_itemsWithin _ hes⟩

/-- A request that is not met leads up to an error. -/
theorem meets_of_run (h : request.reader.run s = .error e u) : ∃ ts, Meets s ts e u := by
  have hmeets {α : Type} {r r' : Reader α} {f : α → Tree}
      (hlocal : Reader.Local (s.remaining + 1 + 1) r r')
      (hrun : (do return f (← r) : Reader Tree).run s = .error e u) : ∃ ts, Meets s ts e u := by
    rcases run_bind_eq_error_iff.1 hrun with herror | ⟨a, v, -, hpure⟩
    · exact ((hlocal (Nat.lt_succ_of_le s.left_le)).error herror).1
    · cases hpure
  -- with a larger bound the tokens that are left are fewer
  rw [← run_within request s 1] at h
  cases request with
  | program =>
    exact hmeets (f := fun lines => .program ⟨lines⟩)
      (fun _ hs => Reader.local_linesWithin 0 _ (Nat.lt_succ_of_lt hs)) h
  | statement => exact hmeets (Reader.local_statementWithin 0 _) h
  | expression => exact hmeets (Reader.local_exprWithin 0 _) h
  | item => exact hmeets (Reader.local_itemWithin 0 _) h
  | items =>
    exact hmeets (Reader.local_commaList (Reader.local_itemWithin 0 _) (Nat.le_succ _) 0) h

end Request

/-- Tokens are one tree at most for what was asked for. -/
theorem Tree.Derives.unique {ts : List Token} {tree tree' : Tree} (h : tree.Derives ts)
    (h' : tree'.Derives ts) (hrequest : tree'.request = tree.request)
    (hne : ∀ t ∈ ts, t ≠ .endOfInput) : tree' = tree := by
  -- a reader in front of these tokens gives either tree, and it gives only one
  have hall := consumes_ofTokens [] hne
  have hends : Token.EndsList (ReaderState.ofTokens []).current.token := ⟨⟨rfl, rfl⟩, nofun⟩
  have hsame {α : Type} {r : Reader α} {rule : List Token → α → Prop} {stops : Token → Prop}
      (haccepts : Reader.Accepts r rule stops ts.length)
      (hstops : stops (ReaderState.ofTokens []).current.token) {a a' : α} (ha : rule ts a)
      (ha' : rule ts a') : a' = a := by
    have hread := haccepts ha (Nat.le_refl _) hall hstops
    have hread' := haccepts ha' (Nat.le_refl _) hall hstops
    rw [hread] at hread'
    cases hread'
    rfl
  cases tree with
  | program p =>
    cases tree' with
    | program p' =>
      have hlines : p'.lines = p.lines := hsame (Reader.accepts_linesWithin _) rfl h h'
      exact congrArg (fun lines => Tree.program ⟨lines⟩) hlines
    | _ => cases hrequest
  | statement stmt =>
    cases tree' with
    | statement stmt' =>
      exact congrArg Tree.statement (hsame (Reader.accepts_statementWithin _) hends h h')
    | _ => cases hrequest
  | expression e =>
    cases tree' with
    | expression e' =>
      exact congrArg Tree.expression (hsame (Reader.accepts_exprWithin _) hends.1 h h')
    | _ => cases hrequest
  | item e =>
    cases tree' with
    | item e' => exact congrArg Tree.item (hsame (Reader.accepts_itemWithin _) hends.1 h h')
    | _ => cases hrequest
  | items es =>
    cases tree' with
    | items es' => exact congrArg Tree.items (hsame (Reader.accepts_itemsWithin _) hends h h')
    | _ => cases hrequest

/-! ## Sessions -/

/-- The answer to a request, and the state that it leaves, whether it is met or not. -/
def Request.answer (request : Request) (s : ReaderState) : Except ParseError Tree × ReaderState :=
  match request.reader.run s with
  | .ok tree u => (.ok tree, u)
  | .error e u => (.error e, u)

/-- The answers to requests, each of them made in the state that the one before has left. -/
def session : List Request → ReaderState → List (Except ParseError Tree) × ReaderState
  | [], s => ([], s)
  | request :: rest, s =>
    let (answer, t) := request.answer s
    let (later, u) := session rest t
    (answer :: later, u)

/-- What a request draws and consumes, and what it is answered.  A tree is the only one of exactly
the tokens that were consumed, and no fault was drawn for it.  A fault that is drawn is the answer,
and the last draw.  Any other error is about the current token. -/
inductive Call (request : Request) (s : ReaderState) :
    Except ParseError Tree → List Delivery → List Lexeme → ReaderState → Prop where
  | tree {tree : Tree} {lexemes ls : List Lexeme} {u : ReaderState}
      (hdraws : Draws s (lexemes.map .ok) ls u) (hrequest : tree.request = request)
      (hderives : tree.Derives (ls.map Lexeme.token))
      (hunique : ∀ other : Tree, other.request = request → other.Derives (ls.map Lexeme.token) →
        other = tree)
      (hend : request = .program → u.current.token = .endOfInput) :
    Call request s (.ok tree) (lexemes.map .ok) ls u
  | lexical {e : LexicalError} {lexemes ls : List Lexeme} {u : ReaderState}
      (hdraws : Draws s (lexemes.map .ok ++ [.error e]) ls u) :
    Call request s (.error (.lexical e)) (lexemes.map .ok ++ [.error e]) ls u
  | grammatical {fault : SyntaxFault} {lexemes ls : List Lexeme} {u : ReaderState}
      (hdraws : Draws s (lexemes.map .ok) ls u) (hfits : fault.Fits u.current.token) :
    Call request s (.error (.grammatical ⟨u.current.position, fault⟩)) (lexemes.map .ok) ls u

/-- Calls one after the other, with all that they draw and consume. -/
inductive Calls : ReaderState → List Request → List (Except ParseError Tree) → List Delivery →
    List Lexeme → ReaderState → Prop where
  | nil {s : ReaderState} : Calls s [] [] [] [] s
  | cons {s t u : ReaderState} {request : Request} {rest : List Request}
      {answer : Except ParseError Tree} {later : List (Except ParseError Tree)}
      {ds es : List Delivery} {ls ms : List Lexeme} (hfirst : Call request s answer ds ls t)
      (hrest : Calls t rest later es ms u) :
    Calls s (request :: rest) (answer :: later) (ds ++ es) (ls ++ ms) u

/-- What a call draws. -/
theorem Call.draws {request : Request} {s u : ReaderState} {answer : Except ParseError Tree}
    {ds : List Delivery} {ls : List Lexeme} (h : Call request s answer ds ls u) :
    Draws s ds ls u := by
  cases h with
  | tree hdraws | lexical hdraws | grammatical hdraws => exact hdraws

/-- What calls draw. -/
theorem Calls.draws {s u : ReaderState} {requests : List Request}
    {answers : List (Except ParseError Tree)} {ds : List Delivery} {ls : List Lexeme}
    (h : Calls s requests answers ds ls u) : Draws s ds ls u := by
  induction h with
  | nil => exact .nil _
  | cons hfirst _ ih => exact hfirst.draws.append ih

/-- Each answer is that to one of the calls, and what this call consumes is among what all of them
do. -/
theorem Calls.exists_call {s u : ReaderState} {requests : List Request}
    {answers : List (Except ParseError Tree)} {ds : List Delivery} {ls : List Lexeme}
    (h : Calls s requests answers ds ls u) {answer : Except ParseError Tree}
    (hanswer : answer ∈ answers) :
    ∃ request t es ms v, Call request t answer es ms v ∧ ms ⊆ ls := by
  induction h with
  | nil => cases hanswer
  | @cons s t u request rest first later ds es ls ms hfirst _ ih =>
    rcases List.mem_cons.1 hanswer with rfl | hlater
    · exact ⟨request, s, ds, ls, t, hfirst, List.subset_append_left ls ms⟩
    · rcases ih hlater with ⟨request', t', es', ms', v, hcall, hms⟩
      exact ⟨request', t', es', ms', v, hcall,
        List.Subset.trans hms (List.subset_append_right ls ms)⟩

/-- Every request is such a call. -/
theorem Request.exists_call (request : Request) (s : ReaderState) :
    ∃ ds ls, Call request s (request.answer s).1 ds ls (request.answer s).2 := by
  unfold answer
  cases hrun : request.reader.run s with
  | ok tree u =>
    rcases derives_of_run hrun with ⟨hrequest, hend, ts, hderives, hts⟩
    have hne := hts.ne_endOfInput
    rcases hts.exists_draws with ⟨lexemes, ls, hdraws, rfl⟩
    exact ⟨_, ls, .tree hdraws hrequest hderives
      (fun other hother hrule => hderives.unique hrule (hother.trans hrequest.symm) hne) hend⟩
  | error e u =>
    rcases meets_of_run hrun with ⟨ts, hmeets⟩
    rcases hmeets.exists_draws with
      ⟨lexemes, ls, ⟨fault, rfl, hfits, hdraws⟩ | ⟨err, rfl, hdraws⟩⟩
    · exact ⟨_, ls, .grammatical hdraws hfits⟩
    · exact ⟨_, ls, .lexical hdraws⟩

/-- Sessions are such calls. -/
theorem calls_of_session (requests : List Request) (s : ReaderState) :
    ∃ ds ls, Calls s requests (session requests s).1 ds ls (session requests s).2 := by
  induction requests generalizing s with
  | nil => exact ⟨[], [], .nil⟩
  | cons request rest ih =>
    rcases request.exists_call s with ⟨ds, ls, hfirst⟩
    rcases ih (request.answer s).2 with ⟨es, ms, hrest⟩
    exact ⟨ds ++ es, ls ++ ms, .cons hfirst hrest⟩

/-- A reader stays consistent across errors.  Let a reader of a text whose first token is no fault
meet requests, one after the other, going on behind those that fail.  There are draws and tokens
that are consumed by them, call by call, such that the draws are what the stream of the text
delivers behind the first token, and not more than there are tokens left; wherever the draws are
split, all tokens that have come up to there are those that have been consumed and, as the last one,
the current one; and each fault that is drawn leaves the current token, with nothing but blanks,
comments and the text that is no token passed over.  No request depends on its bound. -/
theorem session_is_consistent {text : String} {s : ReaderState}
    (h : ReaderState.ofText? text = .ok s) (requests : List Request) :
    (∃ ds ls u, u = (session requests s).2 ∧ Calls s requests (session requests s).1 ds ls u ∧
      (TokenStream.ofText text).take (ds.length + 1) = .ok s.current :: ds ∧
      ds.length ≤ s.left ∧
      (∀ front back, ds = front ++ back → ∃ t ls₁ ls₂, ls = ls₁ ++ ls₂ ∧ Draws s front ls₁ t ∧
        Draws t back ls₂ u ∧ s.current :: drawnLexemes front = ls₁ ++ [t.current]) ∧
      ∀ front e back, ds = front ++ .error e :: back → ∃ v w ls₁ ls₂, ls = ls₁ ++ ls₂ ∧
        Draws s front ls₁ v ∧ v.PassesFault text e w ∧ Draws w back ls₂ u) ∧
    ∀ (request : Request) (t : ReaderState) (extra : Nat),
      (request.within (t.remaining + 1 + extra)).run t = request.reader.run t := by
  refine ⟨?_, fun request t extra => request.run_within t extra⟩
  rcases isAt_of_ofText? h with ⟨hnext, front, rest, hat⟩
  rcases calls_of_session requests s with ⟨ds, ls, hcalls⟩
  have hdraws := hcalls.draws
  refine ⟨ds, ls, _, rfl, hcalls, ?_, ?_, fun front back hsplit => ?_,
    fun front e back hsplit => ?_⟩
  · rw [TokenStream.take, hnext, hdraws.take_eq]
  · exact Nat.le_trans (Nat.le_add_right _ _) hdraws.length_add_left_le
  · rw [hsplit] at hdraws
    rcases hdraws.exists_of_append with ⟨t, ls₁, ls₂, hls, hfront, hback⟩
    exact ⟨t, ls₁, ls₂, hls, hfront, hback, hfront.current_cons⟩
  · rw [hsplit] at hdraws
    exact hdraws.passesFault hat

/-- A statement with a fault behind its first token.  It is read all the same when it is asked for
again, and behind it there is nothing to read. -/
theorem statement_read_behind_fault :
    ∃ s ds ls u, ReaderState.ofText? "PRINT ! A, 5" = .ok s ∧
      Calls s [.statement, .statement, .expression]
        [.error (.lexical ⟨⟨1, 7⟩, .loneExclamation⟩),
          .ok (.statement (.print [.name "A", .number 5])),
          .error (.grammatical ⟨⟨1, 13⟩, .unexpected .operand .endOfInput⟩)] ds ls u ∧
      (TokenStream.ofText "PRINT ! A, 5").take (ds.length + 1) = .ok s.current :: ds ∧
      s.current :: drawnLexemes ds = ls ++ [u.current] := by
  have hstart : ReaderState.ofText? "PRINT ! A, 5" = .ok ⟨⟨.keyword .print, ⟨1, 1⟩⟩,
      ⟨[.error ⟨⟨1, 7⟩, .loneExclamation⟩, .ok ⟨.identifier "A", ⟨1, 9⟩⟩, .ok ⟨.comma, ⟨1, 10⟩⟩,
        .ok ⟨.number "5", ⟨1, 12⟩⟩], ⟨1, 13⟩⟩⟩ := by cbv
  obtain ⟨⟨ds, ls, u, -, hcalls, htake, -, hmoments, -⟩, -⟩ :=
    session_is_consistent hstart [.statement, .statement, .expression]
  obtain ⟨t, ls₁, ls₂, rfl, -, hback, hcurrent⟩ := hmoments ds [] (List.append_nil ds).symm
  cases hback with
  | nil => exact ⟨_, ds, _, _, hstart, hcalls, htake, by rw [List.append_nil]; exact hcurrent⟩

end LineBasic
