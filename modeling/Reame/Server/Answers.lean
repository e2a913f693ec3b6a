import Reame.Server.ApiHandler

/-!
# When the handler returns

`ApiHandler::handle` runs in a detached thread without an exception handler.  Most of what
can go wrong is answered with an error reply, but not everything is caught: the fields of a
request for a generation are read outside the `try` block, `handle_sessions` catches
`EngineError` only, and an error reply is itself printed, with bytes of the request or of an
exception in it.

`Answerable` collects, endpoint by endpoint, what must hold of the request, the configuration
and the engine.  A request is answered exactly if it does (`handle_returns_iff`); a target
that is not UTF-8 is one of the requests that are not (`unprintable_target_escapes`).
-/

namespace Reame.Server

open Reame.Core Throwing

variable {σ Num K : Type}

/-! ## Writing -/

/-- The writer has been begun, or not been called at all, since `before`. -/
def Opened (before calls : List (WriterCall Num)) : Prop :=
  calls = before ∨ ∃ status headers rest, calls = before ++ .begin status headers :: rest

/-- The writer has been begun and closed since `before`. -/
def Complete (before calls : List (WriterCall Num)) : Prop :=
  ∃ status headers rest, calls = before ++ .begin status headers :: (rest ++ [.close])

/-- The code returns after a response. -/
def Answers (m : Handler σ Num Unit) (before : List (WriterCall Num)) (s : HandlerState σ Num) :
    Prop :=
  m.wp s (fun _ after => Complete before after.calls) fun _ _ => False

theorem Opened.refl (calls : List (WriterCall Num)) : Opened calls calls := .inl rfl

theorem Opened.begin {before calls : List (WriterCall Num)} (hopened : Opened before calls)
    (status : ℕ) (headers : HeaderMap) : Opened before (calls ++ [.begin status headers]) := by
  rcases hopened with rfl | ⟨first, firstHeaders, rest, rfl⟩
  · exact .inr ⟨status, headers, [], rfl⟩
  · exact .inr ⟨first, firstHeaders, rest ++ [.begin status headers], by simp⟩

theorem Complete.opened {before calls : List (WriterCall Num)} (hcomplete : Complete before calls) :
    Opened before calls := by
  obtain ⟨status, headers, rest, rfl⟩ := hcomplete
  exact .inr ⟨status, headers, _, rfl⟩

/-- Once the writer has been begun, closing it completes the response. -/
theorem Opened.complete {before calls : List (WriterCall Num)} (hopened : Opened before calls)
    (status : ℕ) (headers : HeaderMap) (rest : List (WriterCall Num)) :
    Complete before (calls ++ .begin status headers :: (rest ++ [.close])) := by
  rcases hopened with rfl | ⟨first, firstHeaders, more, rfl⟩
  · exact ⟨status, headers, rest, rfl⟩
  · exact ⟨first, firstHeaders, more ++ .begin status headers :: rest, by simp⟩

/-- What a generation ends in, when the callback throws as given. -/
def Generation.error (callback : Bytes → Option Exception) : Generation σ → Option Exception
  | .returns _ => none
  | .throws e _ => some e
  | .piece text resume => (resume (callback text)).error callback

namespace ApiHandler

variable (h : ApiHandler σ Num K) {before : List (WriterCall Num)} {s : HandlerState σ Num}

/-- What `respond` does. -/
theorem respond_eq (status : ℕ) (body : Json Num) :
    let errors := if 400 ≤ status then s.errors + 1 else s.errors
    let head := WriterCall.begin status (h.baseHeaders (ascii "application/json"))
    h.respond status body s =
      match body.dumpError with
      | none => (.ok (), { s with errors, calls := s.calls ++ [head, .chunk (.dump body), .close] })
      | some e => (.error e, { s with errors, calls := s.calls ++ [head] }) := by
  by_cases hstatus : 400 ≤ status <;> cases hdump : body.dumpError <;>
    simp [respond, hstatus, hdump, Handler.write, Handler.dump, Bind.bind, Code.update, pure, throw,
      throwThe, MonadExceptOf.throw]

/-- `respond` completes a response, or throws what `dump` threw. -/
theorem respond_cases (hopened : Opened before s.calls) (status : ℕ) (body : Json Num) :
    (body.Printable ∧ ∃ after, h.respond status body s = (.ok (), after) ∧
      Complete before after.calls) ∨
    ∃ e after, body.dumpError = some e ∧ h.respond status body s = (.error e, after) ∧
      Opened before after.calls := by
  have heq := h.respond_eq (s := s) status body
  cases hdump : body.dumpError with
  | none =>
      rw [hdump] at heq
      exact .inl ⟨Json.dumpError_eq_none_iff.mp hdump, _, heq, hopened.complete status _ [_]⟩
  | some e =>
      rw [hdump] at heq
      exact .inr ⟨e, _, rfl, heq, hopened.begin status _⟩

theorem answers_respond_iff (hopened : Opened before s.calls) (status : ℕ) (body : Json Num) :
    Answers (h.respond status body) before s ↔ body.Printable := by
  rcases h.respond_cases hopened status body with ⟨hprint, after, heq, hcomplete⟩ |
    ⟨e, after, hdump, heq, -⟩
  · simp [Answers, Code.wp, heq, hcomplete, hprint]
  · simp [Answers, Code.wp, heq, ← Json.dumpError_eq_none_iff, hdump]

/-- An error reply is printed if its message is UTF-8. -/
theorem printable_errorJson_iff {message type code : Bytes} (htype : Utf8.Valid type)
    (hcode : Utf8.Valid code) :
    (errorJson message type code : Json Num).Printable ↔ Utf8.Valid message := by
  have hkeys : Utf8.Valid (ascii "error") ∧ Utf8.Valid (ascii "code") ∧
      Utf8.Valid (ascii "message") ∧ Utf8.Valid (ascii "type") := by
    and_intros <;> exact Json.valid_ofList (by decide)
  simp [errorJson, hkeys, htype, hcode]

theorem answers_respondError_iff (hopened : Opened before s.calls) (status : ℕ)
    {message type code : Bytes} (htype : Utf8.Valid type) (hcode : Utf8.Valid code) :
    Answers (h.respondError status message type code) before s ↔ Utf8.Valid message := by
  rw [respondError, answers_respond_iff h hopened, printable_errorJson_iff htype hcode]

/-- An error reply of fixed text is always printed. -/
theorem answers_fixedError (hopened : Opened before s.calls) (status : ℕ)
    {message type code : Bytes} (hmessage : Utf8.Valid message) (htype : Utf8.Valid type)
    (hcode : Utf8.Valid code) : Answers (h.respondError status message type code) before s :=
  (h.answers_respondError_iff hopened status htype hcode).mpr hmessage

theorem answers_convert_iff {α : Type} {x : Except Exception α} {f : α → Handler σ Num Unit} :
    Answers (Handler.convert x >>= f) before s ↔ ∃ a, x = .ok a ∧ Answers (f a) before s := by
  rw [Answers, Code.wp_bind, Handler.convert, Code.wp_ofExcept]
  cases x <;> simp [Answers]

theorem answers_ask_iff {α : Type} {f : σ → Except Exception α} {g : α → Handler σ Num Unit} :
    Answers (Handler.ask f >>= g) before s ↔
      ∃ a, f s.engine = .ok a ∧ Answers (g a) before s := by
  rw [Answers, Code.wp_bind, Handler.ask, Code.wp_ofExcept]
  cases f s.engine <;> simp [Answers]

theorem answers_busyGuard_iff {refused admitted : Handler σ Num Unit} :
    Answers (h.busyGuard refused admitted) before s ↔
      if h.cfg.maxConcurrentRequests ≤ s.activeGenerations then Answers refused before s
      else Answers admitted before { s with activeGenerations := s.activeGenerations + 1 } := by
  by_cases hfull : h.cfg.maxConcurrentRequests ≤ s.activeGenerations
  · simp [Answers, Code.wp, busyGuard, hfull]
  · have hguard : h.busyGuard refused admitted s =
        Code.cleanly (fun s => { s with activeGenerations := s.activeGenerations - 1 }) admitted
          { s with activeGenerations := s.activeGenerations + 1 } := if_neg hfull
    rw [if_neg hfull, Answers, Answers, Code.wp, hguard]
    exact Code.wp_cleanly _ _

/-! ## Generation -/

/-- What the callback of `run_generation` throws. -/
def pieceError (chat stream : Bool) (piece : Bytes) : Option Exception :=
  if stream then (h.chunkJson chat piece).dumpError else none

/-- What the engine throws at a generation. -/
def generationError (engine : σ) (prompt : Bytes) (gen : GenerationConfig K)
    (callback : Bytes → Option Exception) : Option Exception :=
  match h.engine.countTokens engine prompt with
  | .error e => some e
  | .ok _ => (h.engine.generateStream engine prompt gen).error callback

/-- The callback is called until the generation ends, with what it throws on the way. -/
theorem deliver_raised {onPiece : Bytes → Handler σ Num Unit} {callback : Bytes → Option Exception}
    {P : List (WriterCall Num) → Prop}
    (honPiece : ∀ text s, P s.calls →
      Code.raised (onPiece text s).1 = callback text ∧ P (onPiece text s).2.calls)
    (generation : Generation σ) (out : GenerationOutcome) (s : HandlerState σ Num)
    (hs : P s.calls) :
    Code.raised (deliver onPiece generation out s).1 = generation.error callback ∧
      P (deliver onPiece generation out s).2.calls := by
  induction generation generalizing out s with
  | returns engine => exact ⟨rfl, hs⟩
  | throws e engine => exact ⟨rfl, hs⟩
  | piece text resume ih =>
      obtain ⟨hraised, hcalls⟩ := honPiece text s hs
      rw [deliver, Generation.error, ← hraised]
      rcases hpiece : onPiece text s with ⟨result, after⟩
      rw [hpiece] at hcalls
      cases result with
      | ok _ =>
          simp only [hpiece]
          exact ih none _ after hcalls
      | error e =>
          simp only [hpiece]
          exact ih (some e) _ after hcalls

/-- The tokens of the prompt are counted, then the pieces are delivered. -/
theorem runGeneration_eq (onPiece : Bytes → Handler σ Num Unit) (prompt : Bytes)
    (gen : GenerationConfig K) (s : HandlerState σ Num) :
    h.runGeneration prompt gen onPiece s =
      match h.engine.countTokens s.engine prompt with
      | .error e => (.error e, s)
      | .ok promptTokens =>
          match deliver onPiece (h.engine.generateStream s.engine prompt gen)
              ⟨[], 0, promptTokens, false⟩ s with
          | (.ok out, after) =>
              (.ok { out with hitMaxTokens := gen.maxTokens ≤ out.completionTokens }, after)
          | (.error e, after) => (.error e, after) := by
  unfold runGeneration
  cases hcount : h.engine.countTokens s.engine prompt with
  | error e =>
      have hask : Handler.ask (fun engine => h.engine.countTokens engine prompt) s =
          (.error e, s) := by simp [Handler.ask, Code.ofExcept, hcount]
      rw [Code.bind_of_error hask]
  | ok promptTokens =>
      have hask : Handler.ask (fun engine => h.engine.countTokens engine prompt) s =
          (.ok promptTokens, s) := by simp [Handler.ask, Code.ofExcept, hcount]
      rw [Code.bind_of_ok hask]
      dsimp only
      rcases hrun : deliver onPiece (h.engine.generateStream s.engine prompt gen)
        ⟨[], 0, promptTokens, false⟩ s with ⟨result, after⟩
      have hcall : h.callGenerateStream prompt gen onPiece ⟨[], 0, promptTokens, false⟩ s =
          (result, after) := hrun
      cases result with
      | error e => rw [Code.bind_of_error hcall]
      | ok out =>
          rw [Code.bind_of_ok hcall]
          rfl

theorem runGeneration_raised {onPiece : Bytes → Handler σ Num Unit}
    {callback : Bytes → Option Exception} {P : List (WriterCall Num) → Prop}
    (honPiece : ∀ text s, P s.calls →
      Code.raised (onPiece text s).1 = callback text ∧ P (onPiece text s).2.calls)
    (prompt : Bytes) (gen : GenerationConfig K) (s : HandlerState σ Num) (hs : P s.calls) :
    Code.raised (h.runGeneration prompt gen onPiece s).1 =
        h.generationError s.engine prompt gen callback ∧
      P (h.runGeneration prompt gen onPiece s).2.calls := by
  rw [runGeneration_eq, generationError]
  cases h.engine.countTokens s.engine prompt with
  | error e => exact ⟨rfl, hs⟩
  | ok promptTokens =>
      have hdeliver := deliver_raised honPiece (h.engine.generateStream s.engine prompt gen)
        ⟨[], 0, promptTokens, false⟩ s hs
      dsimp only
      rcases hrun : deliver onPiece (h.engine.generateStream s.engine prompt gen)
        ⟨[], 0, promptTokens, false⟩ s with ⟨result, after⟩
      rw [hrun] at hdeliver
      cases result with
      | error e => exact hdeliver
      | ok out => exact hdeliver

/-- `emit` adds an event, or throws what `dump` threw. -/
theorem emit_eq (chat : Bool) (text : Bytes) (s : HandlerState σ Num) :
    h.emit chat text s =
      match (h.chunkJson chat text).dumpError with
      | none => (.ok (), { s with calls := s.calls ++ [.chunk (.event (h.chunkJson chat text))] })
      | some e => (.error e, s) := by
  unfold emit
  cases hdump : (h.chunkJson chat text).dumpError with
  | some e =>
      have hthrow : Handler.dump (h.chunkJson chat text) s = (.error e, s) := by
        rw [Handler.dump, hdump]
        rfl
      rw [Code.bind_of_error hthrow]
  | none =>
      have hprint : Handler.dump (h.chunkJson chat text) s = (.ok (), s) := by
        rw [Handler.dump, hdump]
        rfl
      rw [Code.bind_of_ok hprint]
      rfl

theorem emit_raised (chat : Bool) (text : Bytes) {first : List (WriterCall Num)}
    (hs : ∃ sent : List (Data Num), s.calls = first ++ sent.map .chunk) :
    Code.raised (h.emit chat text s).1 = h.pieceError chat true text ∧
      ∃ sent : List (Data Num), (h.emit chat text s).2.calls = first ++ sent.map .chunk := by
  obtain ⟨sent, hsent⟩ := hs
  rw [emit_eq, pieceError, if_pos rfl]
  cases (h.chunkJson chat text).dumpError with
  | some e => exact ⟨rfl, sent, hsent⟩
  | none =>
      refine ⟨rfl, sent ++ [.event (h.chunkJson chat text)], ?_⟩
      simp [hsent]

/-- The headers of a stream. -/
def streamHeaders : HeaderMap :=
  (ascii "Cache-Control", ascii "no-cache") :: h.baseHeaders (ascii "text/event-stream")

/-- A stream is begun before the generation is run, and closed behind it. -/
theorem streamReply_eq (chat : Bool) (prompt : Bytes) (gen : GenerationConfig K)
    (s : HandlerState σ Num) :
    h.streamReply chat prompt gen s =
      match h.runGeneration prompt gen (h.emit chat)
          { s with calls := s.calls ++ [.begin 200 h.streamHeaders] } with
      | (.ok _, after) => (.ok (), { after with
          calls := after.calls ++ [.chunk (.text (ascii "data: [DONE]\n\n")), .close] })
      | (.error e, after) => (.error e, after) := by
  let begun : HandlerState σ Num := { s with calls := s.calls ++ [.begin 200 h.streamHeaders] }
  have hbegin : Handler.write (.begin 200 h.streamHeaders) s = (.ok (), begun) := rfl
  show (Handler.write (.begin 200 h.streamHeaders) >>= fun _ => _) s = _
  rw [Code.bind_of_ok hbegin]
  rcases hrun : h.runGeneration prompt gen (h.emit chat) begun with ⟨result, after⟩
  cases result with
  | error e => rw [Code.bind_of_error hrun]
  | ok out =>
      rw [Code.bind_of_ok hrun]
      show (_, ({ after with calls := after.calls ++ [_] ++ [_] } : HandlerState σ Num)) = _
      rw [List.append_assoc]
      rfl

/-- A reply that is not streamed is written when the generation has ended. -/
theorem wholeReply_eq (chat : Bool) (prompt : Bytes) (gen : GenerationConfig K)
    (s : HandlerState σ Num) :
    h.wholeReply chat prompt gen s =
      match h.runGeneration prompt gen (fun _ => pure ()) s with
      | (.ok out, after) => h.respond 200 (h.completionJson chat out) after
      | (.error e, after) => (.error e, after) := by
  unfold wholeReply
  rcases hrun : h.runGeneration prompt gen (fun _ => pure ()) s with ⟨result, after⟩
  cases result with
  | error e => rw [Code.bind_of_error hrun]
  | ok out => rw [Code.bind_of_ok hrun]

/-- A stream is closed, or ends in the exception of the generation. -/
theorem streamReply_cases (chat : Bool) (prompt : Bytes) (gen : GenerationConfig K)
    (s : HandlerState σ Num) :
    ∃ after, ∃ sent : List (Data Num),
      match h.generationError s.engine prompt gen (h.pieceError chat true) with
      | none => h.streamReply chat prompt gen s = (.ok (), after) ∧
          after.calls = s.calls ++ .begin 200 h.streamHeaders :: (sent.map .chunk ++ [.close])
      | some e => h.streamReply chat prompt gen s = (.error e, after) ∧
          after.calls = s.calls ++ .begin 200 h.streamHeaders :: sent.map .chunk := by
  let begun : HandlerState σ Num := { s with calls := s.calls ++ [.begin 200 h.streamHeaders] }
  obtain ⟨hraised, sent, hsent⟩ := h.runGeneration_raised
    (P := fun calls => ∃ sent : List (Data Num), calls = begun.calls ++ sent.map .chunk)
    (fun text after => h.emit_raised chat text) prompt gen begun ⟨[], by simp⟩
  have heq := h.streamReply_eq chat prompt gen s
  rcases hrun : h.runGeneration prompt gen (h.emit chat) begun with ⟨result, after⟩
  rw [hrun] at hraised hsent heq
  have herror : h.generationError s.engine prompt gen (h.pieceError chat true) =
      Code.raised result := hraised.symm
  rw [herror]
  cases result with
  | error e => exact ⟨after, sent, heq, by simpa [begun] using hsent⟩
  | ok out =>
      refine ⟨_, sent ++ [.text (ascii "data: [DONE]\n\n")], heq, ?_⟩
      have hafter : after.calls = s.calls ++ [.begin 200 h.streamHeaders] ++ sent.map .chunk := hsent
      simp [hafter]

/-- What a generation that is not streamed ends in; nothing has been written by then. -/
theorem wholeReply_cases (chat : Bool) (prompt : Bytes) (gen : GenerationConfig K)
    (s : HandlerState σ Num) :
    ∃ after : HandlerState σ Num, after.calls = s.calls ∧
      match h.generationError s.engine prompt gen (h.pieceError chat false) with
      | none => ∃ out, h.runGeneration prompt gen (fun _ => pure ()) s = (.ok out, after) ∧
          h.wholeReply chat prompt gen s = h.respond 200 (h.completionJson chat out) after
      | some e => h.wholeReply chat prompt gen s = (.error e, after) := by
  have hquiet : ∀ text (after : HandlerState σ Num), after.calls = s.calls →
      Code.raised ((pure () : Handler σ Num Unit) after).1 = h.pieceError chat false text ∧
        ((pure () : Handler σ Num Unit) after).2.calls = s.calls :=
    fun text after hafter => ⟨rfl, hafter⟩
  obtain ⟨hraised, hcalls⟩ := h.runGeneration_raised (P := (· = s.calls)) hquiet prompt gen s rfl
  have heq := h.wholeReply_eq chat prompt gen s
  rcases hrun : h.runGeneration prompt gen (fun _ => pure ()) s with ⟨result, after⟩
  rw [hrun] at hraised hcalls heq
  rw [← hraised]
  cases result with
  | error e => exact ⟨after, hcalls, heq⟩
  | ok out => exact ⟨after, hcalls, out, rfl, heq⟩

/-- A reply is complete, or something was thrown: by the engine, or by `dump`. -/
structure Replied (error : Option Exception) (before : List (WriterCall Num))
    (result : Except Exception Unit × HandlerState σ Num) : Prop where
  opened : Opened before result.2.calls
  complete : Code.raised result.1 = none → Complete before result.2.calls
  readable : ∀ e ∈ Code.raised result.1, e ∈ error ∨ Utf8.Valid e.what
  thrown : ∀ e ∈ error, Code.raised result.1 = some e

theorem streamReply_replied (chat : Bool) (prompt : Bytes) (gen : GenerationConfig K)
    (s : HandlerState σ Num) :
    Replied (h.generationError s.engine prompt gen (h.pieceError chat true)) s.calls
      (h.streamReply chat prompt gen s) := by
  obtain ⟨after, sent, hcases⟩ := h.streamReply_cases chat prompt gen s
  cases herror : h.generationError s.engine prompt gen (h.pieceError chat true) with
  | none =>
      rw [herror] at hcases
      obtain ⟨heq, hcalls⟩ := hcases
      rw [heq]
      exact ⟨.inr ⟨_, _, _, hcalls⟩, fun _ => ⟨_, _, _, hcalls⟩, nofun, nofun⟩
  | some e =>
      rw [herror] at hcases
      obtain ⟨heq, hcalls⟩ := hcases
      rw [heq]
      exact ⟨.inr ⟨_, _, _, hcalls⟩, nofun, fun e' he' => .inl he', fun e' he' => he'⟩

theorem wholeReply_replied (chat : Bool) (prompt : Bytes) (gen : GenerationConfig K)
    (s : HandlerState σ Num) :
    Replied (h.generationError s.engine prompt gen (h.pieceError chat false)) s.calls
      (h.wholeReply chat prompt gen s) := by
  obtain ⟨after, hcalls, hcases⟩ := h.wholeReply_cases chat prompt gen s
  have hopened : Opened s.calls after.calls := .inl hcalls
  cases herror : h.generationError s.engine prompt gen (h.pieceError chat false) with
  | some e =>
      rw [herror] at hcases
      rw [show h.wholeReply chat prompt gen s = (.error e, after) from hcases]
      exact ⟨hopened, nofun, fun e' he' => .inl he', fun e' he' => he'⟩
  | none =>
      rw [herror] at hcases
      obtain ⟨out, -, heq⟩ := hcases
      rw [heq]
      rcases h.respond_cases hopened 200 (h.completionJson chat out) with
        ⟨-, last, hrespond, hcomplete⟩ | ⟨e, last, hdump, hrespond, hlast⟩
      · rw [hrespond]
        exact ⟨hcomplete.opened, fun _ => hcomplete, nofun, nofun⟩
      · rw [hrespond]
        refine ⟨hlast, nofun, fun e' he' => .inr ?_, nofun⟩
        cases he'
        exact Json.valid_what_of_dumpError hdump

/-- A caught exception is answered if its message is UTF-8. -/
theorem answers_generationFailed_iff (hopened : Opened before s.calls) (e : Exception) :
    Answers (h.generationFailed e) before s ↔ Utf8.Valid e.what := by
  cases e with
  | engineError message =>
      exact h.answers_respondError_iff hopened 500 (Json.valid_ofList (by decide))
        (Json.valid_ofList (by decide))
  | other message =>
      exact h.answers_respondError_iff hopened 500 (Json.valid_ofList (by decide))
        (Json.valid_ofList (by decide))

/-- The generation is answered unless the engine throws something that cannot be printed. -/
theorem answers_reply_iff (chat stream : Bool) (prompt : Bytes) (gen : GenerationConfig K)
    (s : HandlerState σ Num) :
    Answers (tryCatch (h.reply chat stream prompt gen) h.generationFailed) s.calls s ↔
      ∀ e ∈ h.generationError s.engine prompt gen (h.pieceError chat stream),
        Utf8.Valid e.what := by
  have hreplied : Replied (h.generationError s.engine prompt gen (h.pieceError chat stream)) s.calls
      (h.reply chat stream prompt gen s) := by
    cases stream with
    | false => exact h.wholeReply_replied chat prompt gen s
    | true => exact h.streamReply_replied chat prompt gen s
  rcases hrun : h.reply chat stream prompt gen s with ⟨result, after⟩
  rw [hrun] at hreplied
  rw [Answers, Code.wp_tryCatch]
  cases result with
  | ok _ =>
      rw [Code.wp_of_ok hrun]
      refine ⟨fun _ e he => ?_, fun _ => hreplied.complete rfl⟩
      cases hreplied.thrown e he
  | error e =>
      rw [Code.wp_of_error hrun]
      refine (h.answers_generationFailed_iff hreplied.opened e).trans ⟨fun hvalid e' he' => ?_,
        fun hvalid => ?_⟩
      · cases hreplied.thrown e' he'
        exact hvalid
      · rcases hreplied.readable e rfl with herror | hascii
        · exact hvalid e herror
        · exact hascii

/-! ## Requests for a generation -/

/-- The numbers and truth values of a request have a type they can be read at. -/
def FieldsTyped (body : Json Num) : Prop :=
  (∀ key ∈ [ascii "max_tokens", ascii "temperature", ascii "top_p", ascii "repeat_penalty",
      ascii "seed"], ∀ field ∈ body.get? key, field.IsArithmetic) ∧
    ∀ key ∈ [ascii "echo", ascii "stream"], ∀ field ∈ body.get? key, field.IsBoolean

/-- A message is an object, and its role and content are strings. -/
def MessageTyped (m : Json Num) : Prop :=
  m.IsObject ∧ ∀ key ∈ [ascii "role", ascii "content"], ∀ field ∈ m.get? key, field.IsString

theorem ok_bind_iff {α β : Type} {x : Except Exception α} {f : α → Except Exception β} {P : Prop}
    (hf : ∀ a, (∃ b, f a = .ok b) ↔ P) : (∃ b, x >>= f = .ok b) ↔ (∃ a, x = .ok a) ∧ P := by
  cases x with
  | error e => simp [Bind.bind, Except.bind]
  | ok a => simpa [Bind.bind, Except.bind] using hf a

theorem ok_chatMessages_iff {items : List (Json Num)} :
    (∃ messages, chatMessages items = .ok messages) ↔ ∀ m ∈ items, MessageTyped m := by
  induction items with
  | nil => simp [chatMessages, pure, Except.pure]
  | cons m rest ih =>
      have hfield : ∀ (key default : Bytes), (∃ a, m.value key Json.getString default = .ok a) ↔
          m.IsObject ∧ ∀ field ∈ m.get? key, field.IsString :=
        fun key default => Json.value_ok_iff fun field => Json.getString_ok_iff
      have hpure : ∀ (a b : Bytes) (messages : List ChatMessage),
          (∃ all, (pure (⟨a, b⟩ :: messages) : Except Exception _) = .ok all) ↔ True :=
        fun a b messages => ⟨fun _ => trivial, fun _ => ⟨_, rfl⟩⟩
      rw [chatMessages, ok_bind_iff fun a => ok_bind_iff fun b => ok_bind_iff fun messages =>
        hpure a b messages, hfield, hfield, ih, List.forall_mem_cons, MessageTyped]
      simp only [List.forall_mem_cons, List.not_mem_nil, false_imp_iff, implies_true, and_true]
      tauto

section Generating

variable [Field K]

theorem fieldsTyped_iff {body : Json Num} (hobject : body.IsObject) :
    FieldsTyped body ↔ (∃ gen, h.genConfigFrom body = .ok gen) ∧
      ∃ stream, body.value (ascii "stream") Json.getBool false = .ok stream := by
  have harith : ∀ {α : Type} (convert : Num → α) (ofBool : Bool → α) (key : Bytes) (default : α),
      (∃ a, body.value key (Json.getNumber convert ofBool) default = .ok a) ↔
        ∀ field ∈ body.get? key, field.IsArithmetic := fun convert ofBool key default => by
    rw [Json.value_ok_iff fun field => Json.getNumber_ok_iff, and_iff_right hobject]
  have hbool : ∀ (key : Bytes) (default : Bool),
      (∃ a, body.value key Json.getBool default = .ok a) ↔
        ∀ field ∈ body.get? key, field.IsBoolean := fun key default => by
    rw [Json.value_ok_iff fun field => Json.getBool_ok_iff, and_iff_right hobject]
  have hpure : ∀ gen : GenerationConfig K,
      (∃ a, (pure gen : Except Exception (GenerationConfig K)) = .ok a) ↔ True :=
    fun gen => ⟨fun _ => trivial, fun _ => ⟨_, rfl⟩⟩
  rw [genConfigFrom, ok_bind_iff fun _ => ok_bind_iff fun _ => ok_bind_iff fun _ =>
    ok_bind_iff fun _ => ok_bind_iff fun _ => ok_bind_iff fun _ => hpure _]
  simp only [Json.getInt, Json.getFloat, harith, hbool, FieldsTyped, List.forall_mem_cons,
    List.not_mem_nil, false_imp_iff, implies_true, and_true, and_assoc]

/-- A generation is refused for want of a slot, or its fields can be read and what the engine
throws can be printed. -/
def GenerateAnswers (s : HandlerState σ Num) (chat : Bool) (body : Json Num) (prompt : Bytes) :
    Prop :=
  h.cfg.maxConcurrentRequests ≤ s.activeGenerations ∨
    FieldsTyped body ∧ ∀ gen stream, h.genConfigFrom body = .ok gen →
      body.value (ascii "stream") Json.getBool false = .ok stream →
        ∀ e ∈ h.generationError s.engine prompt gen (h.pieceError chat stream), Utf8.Valid e.what

theorem answers_generate_iff (chat : Bool) {body : Json Num} (hobject : body.IsObject)
    (prompt : Bytes) (s : HandlerState σ Num) :
    Answers (h.generate chat body prompt) s.calls s ↔ h.GenerateAnswers s chat body prompt := by
  rw [generate, answers_busyGuard_iff, GenerateAnswers]
  by_cases hfull : h.cfg.maxConcurrentRequests ≤ s.activeGenerations
  · rw [if_pos hfull]
    refine ⟨fun _ => .inl hfull, fun _ => ?_⟩
    exact h.answers_fixedError (Opened.refl _) 503 (Json.valid_ofList (by decide))
      (Json.valid_ofList (by decide)) (Json.valid_ofList (by decide))
  rw [if_neg hfull, answers_convert_iff, h.fieldsTyped_iff hobject, or_iff_right hfull]
  constructor
  · rintro ⟨gen, hgen, hrest⟩
    obtain ⟨stream, hstream, hreply⟩ := answers_convert_iff.mp hrest
    refine ⟨⟨⟨gen, hgen⟩, stream, hstream⟩, fun gen' stream' hgen' hstream' => ?_⟩
    cases hgen.symm.trans hgen'
    cases hstream.symm.trans hstream'
    exact (h.answers_reply_iff chat stream prompt gen
      { s with activeGenerations := s.activeGenerations + 1 }).mp hreply
  · rintro ⟨⟨⟨gen, hgen⟩, stream, hstream⟩, hvalid⟩
    refine ⟨gen, hgen, answers_convert_iff.mpr ⟨stream, hstream, ?_⟩⟩
    exact (h.answers_reply_iff chat stream prompt gen _).mpr (hvalid gen stream hgen hstream)

/-- The condition for a request to one of the completion endpoints. -/
def GenerationAnswers (s : HandlerState σ Num) (r : HttpRequest) (chat : Bool) : Prop :=
  ∀ body ∈ h.json.parse r.body,
    if chat then
      ∀ item items, body.get? (ascii "messages") = some (.array (item :: items)) →
        (∀ m ∈ item :: items, MessageTyped m) ∧
          ∀ messages, chatMessages (item :: items) = .ok messages →
            ∃ prompt, h.engine.formatChat s.engine messages = .ok prompt ∧
              h.GenerateAnswers s chat body prompt
    else
      ∀ prompt, body.get? (ascii "prompt") = some (.string prompt) →
        h.GenerateAnswers s chat body prompt

theorem answers_handleGeneration_iff (r : HttpRequest) (chat : Bool) (s : HandlerState σ Num) :
    Answers (h.handleGeneration r chat) s.calls s ↔ h.GenerationAnswers s r chat := by
  rw [handleGeneration, GenerationAnswers]
  cases hparse : h.json.parse r.body with
  | none =>
      refine iff_of_true ?_ (by simp)
      exact h.answers_fixedError (Opened.refl _) 400 (Json.valid_ofList (by decide))
        (Json.valid_ofList (by decide)) (Json.valid_ofList (by decide))
  | some body =>
      simp only [Option.mem_def, Option.some.injEq, forall_eq']
      cases chat with
      | true =>
          simp only [if_true]
          split
          · rename_i item items hmessages
            have hobject := Json.isObject_of_get? hmessages
            rw [answers_convert_iff]
            constructor
            · rintro ⟨messages, hconvert, hrest⟩ item' items' hmessages'
              cases hmessages.symm.trans hmessages'
              obtain ⟨prompt, hformat, hgenerate⟩ := answers_ask_iff.mp hrest
              refine ⟨ok_chatMessages_iff.mp ⟨messages, hconvert⟩, fun messages' hconvert' => ?_⟩
              cases hconvert.symm.trans hconvert'
              exact ⟨prompt, hformat, (h.answers_generate_iff true hobject prompt s).mp hgenerate⟩
            · intro hanswers
              obtain ⟨htyped, hformats⟩ := hanswers item items hmessages
              obtain ⟨messages, hconvert⟩ := ok_chatMessages_iff.mpr htyped
              obtain ⟨prompt, hformat, hgenerate⟩ := hformats messages hconvert
              refine ⟨messages, hconvert, answers_ask_iff.mpr ⟨prompt, hformat, ?_⟩⟩
              exact (h.answers_generate_iff true hobject prompt s).mpr hgenerate
          · rename_i hother
            refine iff_of_true ?_ fun item items hmessages => absurd hmessages (hother item items)
            exact h.answers_fixedError (Opened.refl _) 400 (Json.valid_ofList (by decide))
              (Json.valid_ofList (by decide)) (Json.valid_ofList (by decide))
      | false =>
          simp only [Bool.false_eq_true, if_false]
          split
          · rename_i prompt hprompt
            rw [h.answers_generate_iff false (Json.isObject_of_get? hprompt)]
            refine ⟨fun hanswers prompt' hprompt' => ?_, fun hanswers => hanswers prompt hprompt⟩
            cases hprompt.symm.trans hprompt'
            exact hanswers
          · rename_i hother
            refine iff_of_true ?_ fun prompt hprompt => absurd hprompt (hother prompt)
            exact h.answers_fixedError (Opened.refl _) 400 (Json.valid_ofList (by decide))
              (Json.valid_ofList (by decide)) (Json.valid_ofList (by decide))

end Generating

/-! ## The other endpoints -/

theorem answers_caught_call_iff {α : Type} {f : σ → Except Exception α × σ}
    {g : α → Handler σ Num Unit} {handler : Exception → Handler σ Num Unit} :
    Answers (tryCatch (Handler.call f >>= g) handler) before s ↔
      match (f s.engine).1 with
      | .ok a => Answers (tryCatch (g a) handler) before { s with engine := (f s.engine).2 }
      | .error e => Answers (handler e) before { s with engine := (f s.engine).2 } := by
  simp only [Answers, Code.wp_tryCatch, Code.wp_bind]
  cases hcall : (f s.engine).1 with
  | ok a =>
      have heq : Handler.call f s = (.ok a, { s with engine := (f s.engine).2 }) := by
        rw [Handler.call, hcall]
      exact Code.wp_of_ok heq
  | error e =>
      have heq : Handler.call f s = (.error e, { s with engine := (f s.engine).2 }) := by
        rw [Handler.call, hcall]
      exact Code.wp_of_error heq

/-- A value that can be printed is written, whatever is caught. -/
theorem answers_caught_respond (hopened : Opened before s.calls) (status : ℕ) {body : Json Num}
    (hprint : body.Printable) (handler : Exception → Handler σ Num Unit) :
    Answers (tryCatch (h.respond status body) handler) before s := by
  rcases h.respond_cases hopened status body with ⟨-, after, heq, hcomplete⟩ | ⟨e, -, hdump, -, -⟩
  · rw [Answers, Code.wp_tryCatch, Code.wp_of_ok heq]
    exact hcomplete
  · rw [Json.dumpError_eq_none_iff.mpr hprint] at hdump
    cases hdump

theorem answers_warmFailed_iff (hopened : Opened before s.calls) (e : Exception) :
    Answers (h.warmFailed e) before s ↔ Utf8.Valid e.what := by
  cases e with
  | engineError message =>
      exact h.answers_respondError_iff hopened 400 (Json.valid_ofList (by decide))
        (Json.valid_ofList (by decide))
  | other message =>
      exact h.answers_respondError_iff hopened 500 (Json.valid_ofList (by decide))
        (Json.valid_ofList (by decide))

/-- The condition for a request to `/v1/warm`. -/
def WarmAnswers (s : HandlerState σ Num) (r : HttpRequest) : Prop :=
  ∀ body ∈ h.json.parse r.body, ∀ prompt, body.get? (ascii "prompt") = some (.string prompt) →
    ∀ e, (h.engine.warm s.engine prompt).1 = .error e → Utf8.Valid e.what

theorem answers_handleWarm_iff (r : HttpRequest) (s : HandlerState σ Num) :
    Answers (h.handleWarm r) s.calls s ↔ h.WarmAnswers s r := by
  rw [handleWarm, WarmAnswers]
  cases hparse : h.json.parse r.body with
  | none =>
      refine iff_of_true ?_ (by simp)
      exact h.answers_fixedError (Opened.refl _) 400 (Json.valid_ofList (by decide))
        (Json.valid_ofList (by decide)) (Json.valid_ofList (by decide))
  | some body =>
      simp only [Option.mem_def, Option.some.injEq, forall_eq']
      split
      · rename_i prompt hprompt
        have hkeys : Utf8.Valid (ascii "tokens") ∧ Utf8.Valid (ascii "warmed") :=
          ⟨Json.valid_ofList (by decide), Json.valid_ofList (by decide)⟩
        rw [answers_caught_call_iff]
        simp only [hprompt, Option.some.injEq, Json.string.injEq, forall_eq']
        cases hwarm : (h.engine.warm s.engine prompt).1 with
        | ok tokens =>
            refine iff_of_true ?_ nofun
            exact h.answers_caught_respond (Opened.refl _) 200 (by simp [hkeys]) _
        | error e =>
            simp only [Except.error.injEq, forall_eq']
            exact h.answers_warmFailed_iff (Opened.refl _) e
      · rename_i hother
        refine iff_of_true ?_ fun prompt hprompt => absurd hprompt (hother prompt)
        exact h.answers_fixedError (Opened.refl _) 400 (Json.valid_ofList (by decide))
          (Json.valid_ofList (by decide)) (Json.valid_ofList (by decide))

theorem answers_badMethod (hopened : Opened before s.calls) : Answers h.badMethod before s :=
  h.answers_fixedError hopened 405 (Json.valid_ofList (by decide))
    (Json.valid_ofList (by decide)) (Json.valid_ofList (by decide))

/-- What `handle_sessions` catches and can print. -/
def SessionError : Exception → Prop
  | .engineError message => Utf8.Valid (Exception.engineError message).what
  | .other _ => False

theorem answers_sessionFailed_iff (hopened : Opened before s.calls) (e : Exception) :
    Answers (h.sessionFailed e) before s ↔ SessionError e := by
  cases e with
  | engineError message =>
      exact h.answers_respondError_iff hopened 404 (Json.valid_ofList (by decide))
        (Json.valid_ofList (by decide))
  | other message => exact Iff.rfl

/-- What `dump` throws is not caught. -/
theorem answers_session_respond_iff (hopened : Opened before s.calls) (status : ℕ)
    (body : Json Num) :
    Answers (tryCatch (h.respond status body) h.sessionFailed) before s ↔ body.Printable := by
  rcases h.respond_cases hopened status body with ⟨hprint, -⟩ | ⟨e, after, hdump, heq, hafter⟩
  · exact iff_of_true (h.answers_caught_respond hopened status hprint _) hprint
  · rw [Answers, Code.wp_tryCatch, Code.wp_of_error heq]
    refine (h.answers_sessionFailed_iff hafter e).trans ?_
    rw [← Json.dumpError_eq_none_iff, hdump]
    obtain ⟨fault, -, rfl⟩ := Option.map_eq_some_iff.mp hdump
    exact iff_of_false id nofun

/-- The call that a request makes on a session. -/
def sessionCall (r : HttpRequest) : Option (σ → Except Exception Unit × σ) :=
  let (id, action) := sessionTarget r.target
  if r.target.length ≤ 13 then none
  else if r.method = ascii "DELETE" ∧ action = [] then some (h.engine.deleteSession · id)
  else if r.method = ascii "POST" ∧ action = ascii "save" then some (h.engine.saveSession · id)
  else if r.method = ascii "POST" ∧ action = ascii "load" then some (h.engine.loadSession · id)
  else none

/-- The condition for a request to `/v1/sessions`. -/
def SessionsAnswer (s : HandlerState σ Num) (r : HttpRequest) : Prop :=
  if r.target = ascii "/v1/sessions" ∧ r.method = ascii "POST" then
    match (h.engine.createSession s.engine).1 with
    | .ok id => Utf8.Valid id
    | .error e => SessionError e
  else ∀ f ∈ h.sessionCall r, ∀ e, (f s.engine).1 = .error e → SessionError e

theorem answers_onSession_iff (f : σ → Bytes → Except Exception Unit × σ) (id : Bytes)
    (s : HandlerState σ Num) :
    Answers (tryCatch (h.onSession f id) h.sessionFailed) s.calls s ↔
      ∀ e, (f s.engine id).1 = .error e → SessionError e := by
  have hkey : Utf8.Valid (ascii "ok") := Json.valid_ofList (by decide)
  rw [onSession, answers_caught_call_iff]
  cases hcall : (f s.engine id).1 with
  | ok _ =>
      refine iff_of_true ?_ nofun
      exact h.answers_caught_respond (Opened.refl _) 200 (by simp [hkey]) _
  | error e =>
      simp only [Except.error.injEq, forall_eq']
      exact h.answers_sessionFailed_iff (Opened.refl _) e

theorem answers_handleSessions_iff (r : HttpRequest) (s : HandlerState σ Num) :
    Answers (h.handleSessions r) s.calls s ↔ h.SessionsAnswer s r := by
  have hkey : Utf8.Valid (ascii "id") := Json.valid_ofList (by decide)
  have hbad : Answers (tryCatch h.badMethod h.sessionFailed) s.calls s :=
    h.answers_caught_respond (Opened.refl _) 405
      ((printable_errorJson_iff (Json.valid_ofList (by decide))
        (Json.valid_ofList (by decide))).mpr (Json.valid_ofList (by decide))) _
  rw [handleSessions, SessionsAnswer]
  by_cases hcreate : r.target = ascii "/v1/sessions" ∧ r.method = ascii "POST"
  · rw [if_pos hcreate, if_pos hcreate, answers_caught_call_iff]
    cases (h.engine.createSession s.engine).1 with
    | ok id =>
        refine (h.answers_session_respond_iff (Opened.refl _) 200 _).trans ?_
        simp [hkey]
    | error e => exact h.answers_sessionFailed_iff (Opened.refl _) e
  rw [if_neg hcreate, if_neg hcreate, sessionCall]
  dsimp only
  split_ifs
  · exact iff_of_true hbad nofun
  · simp only [Option.mem_def, Option.some.injEq, forall_eq']
    exact h.answers_onSession_iff _ _ s
  · simp only [Option.mem_def, Option.some.injEq, forall_eq']
    exact h.answers_onSession_iff _ _ s
  · simp only [Option.mem_def, Option.some.injEq, forall_eq']
    exact h.answers_onSession_iff _ _ s
  · exact iff_of_true hbad nofun

/-- The condition for `/metrics`. -/
def MetricsAnswer (s : HandlerState σ Num) : Prop :=
  (∃ n, h.engine.contextSize s.engine = .ok n) ∧ (∃ n, h.engine.vocabSize s.engine = .ok n) ∧
    (∃ report, h.engine.speculativeMetrics s.engine = .ok report) ∧ Utf8.Valid h.cfg.modelId

theorem printable_metricsJson_iff (s : HandlerState σ Num) (contextSize vocabSize : ℤ)
    (speculative : Option (SpeculativeReport K)) :
    (h.metricsJson s contextSize vocabSize speculative).Printable ↔ Utf8.Valid h.cfg.modelId := by
  have hkeys : ∀ key ∈ [ascii "model", ascii "context_size", ascii "id", ascii "vocab_size",
      ascii "server", ascii "active_generations", ascii "errors", ascii "total_requests",
      ascii "speculative", ascii "acceptance_rate", ascii "draft_speed_tps",
      ascii "overall_speed_tps", ascii "target_speed_tps", ascii "total_accepted_tokens",
      ascii "total_draft_tokens", ascii "total_rejected_tokens"], Utf8.Valid key := by
    simp only [List.forall_mem_cons, List.not_mem_nil, false_imp_iff, implies_true, and_true]
    and_intros <;> exact Json.valid_ofList (by decide)
  simp only [List.forall_mem_cons, List.not_mem_nil, false_imp_iff, implies_true, and_true] at hkeys
  cases speculative <;> simp [metricsJson, hkeys]

theorem answers_handleMetrics_iff (s : HandlerState σ Num) :
    Answers h.handleMetrics s.calls s ↔ h.MetricsAnswer s := by
  have hlast : ∀ contextSize vocabSize speculative,
      Answers (Code.reading fun s =>
        h.respond 200 (h.metricsJson s contextSize vocabSize speculative)) s.calls s ↔
      Utf8.Valid h.cfg.modelId := fun contextSize vocabSize speculative =>
    (h.answers_respond_iff (Opened.refl _) 200 _).trans (h.printable_metricsJson_iff s ..)
  rw [handleMetrics, answers_ask_iff, MetricsAnswer]
  simp only [answers_ask_iff, hlast]
  constructor
  · rintro ⟨c, hc, v, hv, m, hm, hvalid⟩
    exact ⟨⟨c, hc⟩, ⟨v, hv⟩, ⟨m, hm⟩, hvalid⟩
  · rintro ⟨⟨c, hc⟩, ⟨v, hv⟩, ⟨m, hm⟩, hvalid⟩
    exact ⟨c, hc, v, hv, m, hm, hvalid⟩

theorem printable_modelsJson_iff : h.modelsJson.Printable ↔ Utf8.Valid h.cfg.modelId := by
  have hkeys : ∀ key ∈ [ascii "data", ascii "id", ascii "object", ascii "model", ascii "owned_by",
      ascii "reame", ascii "list"], Utf8.Valid key := by
    simp only [List.forall_mem_cons, List.not_mem_nil, false_imp_iff, implies_true, and_true]
    and_intros <;> exact Json.valid_ofList (by decide)
  simp only [List.forall_mem_cons, List.not_mem_nil, false_imp_iff, implies_true, and_true] at hkeys
  simp [modelsJson, hkeys]

/-! ## The router -/

/-- Where a request is routed to; the last three are the replies that do not depend on the
engine or the configuration. -/
inductive Endpoint
  | metrics
  | models
  | generation (chat : Bool)
  | warm
  | sessions
  | unknown
  | preflight
  | health
  | refused
deriving DecidableEq, Repr

/-- The endpoint of a request. -/
def endpoint (r : HttpRequest) : Endpoint :=
  if h.cfg.enableCors ∧ r.method = ascii "OPTIONS" then .preflight
  else if r.target = ascii "/health" then .health
  else if ¬ h.authorized r then .refused
  else if r.target = ascii "/metrics" then if h.cfg.enableMetrics then .metrics else .refused
  else if r.target = ascii "/v1/models" then if r.method = ascii "GET" then .models else .refused
  else if r.target = ascii "/v1/completions" ∨ r.target = ascii "/v1/chat/completions" then
    if r.method = ascii "POST" then .generation (r.target = ascii "/v1/chat/completions")
    else .refused
  else if r.target = ascii "/v1/warm" then if r.method = ascii "POST" then .warm else .refused
  else if r.target = ascii "/v1/sessions" ∨ ascii "/v1/sessions/" <+: r.target then .sessions
  else .unknown

/-- What a request at an endpoint is handed to. -/
inductive Routed [Field K] (r : HttpRequest) : Endpoint → Handler σ Num Unit → Prop
  | preflight (headers : HeaderMap) :
      Routed r .preflight (Handler.write (.begin 204 headers) >>= fun _ => Handler.write .close)
  | health : Routed r .health (h.respond 200 (.object [(ascii "status", .string (ascii "ok"))]))
  | unauthorized : Routed r .refused (h.respondError 401 (ascii "missing or invalid API key")
      (ascii "invalid_request_error") (ascii "invalid_api_key"))
  | metricsDisabled : Routed r .refused (h.respondError 404 (ascii "metrics are disabled")
      (ascii "invalid_request_error") (ascii "not_found"))
  | badMethod : Routed r .refused h.badMethod
  | metrics : Routed r .metrics h.handleMetrics
  | models : Routed r .models (h.respond 200 h.modelsJson)
  | generation (chat : Bool) : Routed r (.generation chat) (h.handleGeneration r chat)
  | warm : Routed r .warm (h.handleWarm r)
  | sessions : Routed r .sessions (h.handleSessions r)
  | unknown : Routed r .unknown (h.respondError 404 (ascii "unknown endpoint: " ++ r.target)
      (ascii "invalid_request_error") (ascii "not_found"))

variable {h} in
/-- A choice between two endpoints is a choice between what they are handed to. -/
theorem Routed.ite [Field K] {r : HttpRequest} {c : Prop} [Decidable c] {target other : Endpoint}
    {m n : Handler σ Num Unit} (htrue : h.Routed r target m) (hfalse : h.Routed r other n) :
    h.Routed r (if c then target else other) (if c then m else n) := by
  by_cases hc : c
  · rw [if_pos hc, if_pos hc]
    exact htrue
  · rw [if_neg hc, if_neg hc]
    exact hfalse

variable {h} in
theorem Routed.unless [Field K] {r : HttpRequest} {c : Prop} [Decidable c]
    {target other : Endpoint} {m n : Handler σ Num Unit} (htrue : h.Routed r target m)
    (hfalse : h.Routed r other n) :
    h.Routed r (if c then target else other) (if ¬ c then n else m) := by
  rw [ite_not]
  exact htrue.ite hfalse

/-- `route` counts the request and hands it on. -/
theorem route_eq [Field K] (r : HttpRequest) : ∃ m, h.Routed r (h.endpoint r) m ∧
    h.route r = (Code.update (fun s => { s with totalRequests := s.totalRequests + 1 }) >>=
      fun _ => m) := by
  refine ⟨_, ?_, rfl⟩
  unfold endpoint
  refine .ite (.preflight _) (.ite .health (.ite .unauthorized (.ite ?_ (.ite ?_ (.ite ?_
    (.ite ?_ (.ite .sessions .unknown)))))))
  · exact .unless .metrics .metricsDisabled
  · exact .unless .models .badMethod
  · exact .unless (.generation _) .badMethod
  · exact .unless .warm .badMethod

/-- The condition under which a request is answered. -/
def Answerable [Field K] (s : HandlerState σ Num) (r : HttpRequest) : Prop :=
  match h.endpoint r with
  | .metrics => h.MetricsAnswer s
  | .models => Utf8.Valid h.cfg.modelId
  | .generation chat => h.GenerationAnswers s r chat
  | .warm => h.WarmAnswers s r
  | .sessions => h.SessionsAnswer s r
  | .unknown => Utf8.Valid r.target
  | _ => True

theorem answers_iff {m : Handler σ Num Unit} :
    Answers m before s ↔ (m s).1 = .ok () ∧ Complete before (m s).2.calls := by
  rcases hm : m s with ⟨result, after⟩
  cases result with
  | ok _ => simp [Answers, Code.wp_of_ok hm]
  | error e => simp [Answers, Code.wp_of_error hm]

theorem answers_preflight (hopened : Opened before s.calls) (headers : HeaderMap) :
    Answers (Handler.write (.begin 204 headers) >>= fun _ => Handler.write .close) before s := by
  have hcomplete := hopened.complete 204 headers []
  simpa [Answers, Handler.write] using hcomplete

/-- `ApiHandler::handle` returns after a response exactly if the request is answerable. -/
theorem handle_returns_iff [Field K] (r : HttpRequest) (s : HandlerState σ Num) :
    ((h.handle r s).1 = .ok () ∧ Complete s.calls (h.handle r s).2.calls) ↔ h.Answerable s r := by
  let counted : HandlerState σ Num := { s with totalRequests := s.totalRequests + 1 }
  have hopened : Opened s.calls counted.calls := Opened.refl _
  have hroute : Answers (h.route r) s.calls s ↔ h.Answerable s r := by
    obtain ⟨m, hrouted, heq⟩ := h.route_eq r
    rw [heq, Answers, Code.wp_bind, Code.wp_update]
    show Answers m s.calls counted ↔ _
    unfold Answerable
    generalize h.endpoint r = target at hrouted ⊢
    cases hrouted with
    | preflight headers => exact iff_of_true (answers_preflight hopened headers) trivial
    | health =>
        have hkeys : Utf8.Valid (ascii "status") ∧ Utf8.Valid (ascii "ok") :=
          ⟨Json.valid_ofList (by decide), Json.valid_ofList (by decide)⟩
        exact iff_of_true ((h.answers_respond_iff hopened 200 _).mpr (by simp [hkeys])) trivial
    | unauthorized =>
        refine iff_of_true (h.answers_fixedError hopened 401 ?_ ?_ ?_) trivial <;>
          exact Json.valid_ofList (by decide)
    | metricsDisabled =>
        refine iff_of_true (h.answers_fixedError hopened 404 ?_ ?_ ?_) trivial <;>
          exact Json.valid_ofList (by decide)
    | badMethod => exact iff_of_true (h.answers_badMethod hopened) trivial
    | metrics => exact h.answers_handleMetrics_iff counted
    | models => exact (h.answers_respond_iff hopened 200 _).trans h.printable_modelsJson_iff
    | generation chat => exact h.answers_handleGeneration_iff r chat counted
    | warm => exact h.answers_handleWarm_iff r counted
    | sessions => exact h.answers_handleSessions_iff r counted
    | unknown =>
        have hunknown : Utf8.Valid (ascii "unknown endpoint: ") := Json.valid_ofList (by decide)
        exact (h.answers_respondError_iff hopened 404 (Json.valid_ofList (by decide))
          (Json.valid_ofList (by decide))).trans (Utf8.valid_append_iff hunknown r.target)
  exact answers_iff.symm.trans hroute

/-- An engine that does nothing, and a parser that accepts nothing. -/
def idle : ApiHandler Unit ℤ ℚ where
  cfg := ⟨[], true, true, 10, ascii "reame"⟩
  json := ⟨fun _ => none, id, fun n => n, id, fun x => x.num⟩
  engine :=
    { formatChat := fun _ _ => .ok []
      countTokens := fun _ _ => .ok 0
      generateStream := fun _ _ _ => .returns ()
      warm := fun _ _ => (.ok 0, ())
      createSession := fun _ => (.ok [], ())
      saveSession := fun _ _ => (.ok (), ())
      loadSession := fun _ _ => (.ok (), ())
      deleteSession := fun _ _ => (.ok (), ())
      contextSize := fun _ => .ok 0
      vocabSize := fun _ => .ok 0
      speculativeMetrics := fun _ => .ok none }

/-- `GET /\xff`: the reply that names the unknown endpoint cannot be printed. -/
theorem unprintable_target_escapes :
    (idle.handle ⟨ascii "GET", [47, 255], [], []⟩ ⟨(), 0, 0, 0, []⟩).1 =
      .error (.other (ascii
        "[json.exception.type_error.316] invalid UTF-8 byte at index 19: 0xFF")) := by
  decide +kernel

end ApiHandler

end Reame.Server
