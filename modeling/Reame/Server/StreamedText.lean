import Reame.Server.WriterProtocol

/-!
# A text in pieces and as a whole

The same request can be answered with a stream of pieces (`stream` is true) or with the whole
text.  Either is printed by `dump`, which takes UTF-8 only, and the two ask for different
things:

* the whole text is put together first, so that a character may be spread over several pieces;
* a stream prints each piece alone, and a piece that ends within a character is refused.  The
  exception ends the generation, and the stream with it.

A piece of text is what a token stands for, and a token need not end between two characters.
The two replies agree exactly if every piece is UTF-8 by itself (`stream_agrees_iff`).
-/

namespace Reame.Server

open Reame.Core Throwing

variable {σ Num K : Type}

/-! ## What a client reads -/

/-- `choices[0]`. -/
def Json.choice (body : Json Num) : Option (Json Num) :=
  match body.get? (ascii "choices") with
  | some (.array (choice :: _)) => some choice
  | _ => none

/-- A string. -/
def Json.string? : Json Num → Option Bytes
  | .string text => some text
  | _ => none

/-- The text of a choice; in a chat it is the content of the given field. -/
def Json.carried (chat : Bool) (field : Bytes) (body : Json Num) : Option Bytes :=
  if chat then do
    let choice ← body.choice
    let message ← choice.get? field
    let content ← message.get? (ascii "content")
    content.string?
  else do
    let choice ← body.choice
    let text ← choice.get? (ascii "text")
    text.string?

/-- What an event adds to the text. -/
def WriterCall.delta (chat : Bool) : WriterCall Num → Option Bytes
  | .chunk (.event body) => body.carried chat (ascii "delta")
  | _ => none

/-- The text of a stream. -/
def streamedText (chat : Bool) (calls : List (WriterCall Num)) : Bytes :=
  (calls.filterMap (WriterCall.delta chat)).flatten

/-- The last event of a stream is `[DONE]`. -/
def EndsWithDone (calls : List (WriterCall Num)) : Prop :=
  ∃ first, calls = first ++ [.chunk (.text (ascii "data: [DONE]\n\n")), .close]

/-- The text of a reply that is not a stream. -/
def repliedText (chat : Bool) : List (WriterCall Num) → Option Bytes
  | [.begin 200 _, .chunk (.dump body), .close] => body.carried chat (ascii "message")
  | _ => none

/-- The stream is complete, and its text is that of the other reply. -/
def TextsAgree (chat : Bool) (whole streamed : List (WriterCall Num)) : Prop :=
  EndsWithDone streamed ∧ repliedText chat whole = some (streamedText chat streamed)

/-- A call that sends a text which is not JSON. -/
def WriterCall.isText : WriterCall Num → Bool
  | .chunk (.text _) => true
  | _ => false

theorem EndsWithDone.isText {calls : List (WriterCall Num)} (hdone : EndsWithDone calls) :
    calls.dropLast.getLast?.map WriterCall.isText = some true := by
  obtain ⟨first, rfl⟩ := hdone
  rw [List.dropLast_append_of_ne_nil (by simp)]
  simp [WriterCall.isText]

theorem streamedText_append (chat : Bool) (calls later : List (WriterCall Num)) :
    streamedText chat (calls ++ later) = streamedText chat calls ++ streamedText chat later := by
  rw [streamedText, List.filterMap_append, List.flatten_append]
  rfl

namespace ApiHandler

variable (h : ApiHandler σ Num K) {s : HandlerState σ Num} {r other : HttpRequest}
  {chat stream : Bool} {body : Json Num} {prompt : Bytes} {gen : GenerationConfig K}
  {pieces : List Bytes}

@[simp] theorem carried_chunkJson (chat : Bool) (piece : Bytes) :
    (h.chunkJson chat piece).carried chat (ascii "delta") = some piece := by
  cases chat <;> rfl

@[simp] theorem carried_completionJson (chat : Bool) (out : GenerationOutcome) :
    (h.completionJson chat out).carried chat (ascii "message") = some out.text := by
  cases chat <;> rfl

/-- The calls that send pieces as events. -/
def events (chat : Bool) (pieces : List Bytes) : List (WriterCall Num) :=
  pieces.map fun piece => .chunk (.event (h.chunkJson chat piece))

theorem streamedText_events (chat : Bool) (pieces : List Bytes) :
    streamedText chat (h.events chat pieces) = pieces.flatten := by
  induction pieces with
  | nil => rfl
  | cons piece rest ih =>
      have hdelta : WriterCall.delta chat (.chunk (.event (h.chunkJson chat piece))) =
          some piece := h.carried_chunkJson chat piece
      rw [streamedText] at ih
      rw [streamedText, events, List.map_cons, List.filterMap_cons_some hdelta, List.flatten_cons]
      exact congrArg (piece ++ ·) ih

/-- An event is printed if its piece and the name of the model are UTF-8. -/
theorem printable_chunkJson_iff (chat : Bool) (piece : Bytes) :
    (h.chunkJson chat piece).Printable ↔ Utf8.Valid piece ∧ Utf8.Valid h.cfg.modelId := by
  have hkeys : ∀ key ∈ [ascii "choices", ascii "delta", ascii "content", ascii "index",
      ascii "text", ascii "model", ascii "object", ascii "chat.completion.chunk",
      ascii "text_completion.chunk"], Utf8.Valid key := by
    simp only [List.forall_mem_cons, List.not_mem_nil, false_imp_iff, implies_true, and_true]
    and_intros <;> exact Json.valid_ofList (by decide)
  simp only [List.forall_mem_cons, List.not_mem_nil, false_imp_iff, implies_true, and_true] at hkeys
  unfold chunkJson
  cases chat <;> simp [hkeys]

end ApiHandler

/-! ## The pieces that the engine delivers -/

/-- A generation that does not call back again. -/
def Generation.Ended : Generation σ → Prop
  | .piece _ _ => False
  | _ => True

/-- The generation delivers the pieces and returns; a callback that throws ends it. -/
inductive Generation.Delivers : Generation σ → List Bytes → Prop
  | returns (engine : σ) : Delivers (.returns engine) []
  | piece {text : Bytes} {resume : Option Exception → Generation σ} {pieces : List Bytes}
      (hfault : ∀ e, (resume (some e)).Ended) (hrest : Delivers (resume none) pieces) :
      Delivers (.piece text resume) (text :: pieces)

theorem Generation.delivers_rethrowing (engine : σ) (pieces : List Bytes) :
    (rethrowing engine pieces).Delivers pieces := by
  induction pieces with
  | nil => exact .returns engine
  | cons text rest ih => exact .piece (fun e => trivial) ih

theorem Generation.Delivers.pieces_eq {generation : Generation σ} {pieces : List Bytes}
    (hdelivers : generation.Delivers pieces) : generation.pieces = pieces := by
  induction hdelivers with
  | returns engine => rfl
  | piece hfault hrest ih => exact congrArg (_ :: ·) ih

theorem Generation.Delivers.error_eq {generation : Generation σ} {pieces : List Bytes}
    (hdelivers : generation.Delivers pieces) : generation.error (fun _ => none) = none := by
  induction hdelivers with
  | returns engine => rfl
  | piece hfault hrest ih => exact ih

namespace ApiHandler

variable (h : ApiHandler σ Num K) {s : HandlerState σ Num} {r other : HttpRequest}
  {chat stream : Bool} {body : Json Num} {prompt : Bytes} {gen : GenerationConfig K}
  {pieces : List Bytes}

/-- Behind the end of a generation nothing is written. -/
theorem calls_of_ended {onPiece : Bytes → Handler σ Num Unit} {generation : Generation σ}
    (hended : generation.Ended) (out : GenerationOutcome) :
    (deliver onPiece generation out s).2.calls = s.calls := by
  cases generation with
  | returns engine => rfl
  | throws e engine => rfl
  | piece text resume => exact hended.elim

/-- Pieces that can be printed are all sent. -/
theorem deliver_printable {generation : Generation σ} (hdelivers : generation.Delivers pieces)
    (hprint : ∀ piece ∈ pieces, (h.chunkJson chat piece).Printable) (out : GenerationOutcome) :
    ∃ last after, deliver (h.emit chat) generation out s = (.ok last, after) ∧
      after.calls = s.calls ++ h.events chat pieces := by
  induction hdelivers generalizing out s with
  | returns engine => exact ⟨out, { s with engine }, rfl, (List.append_nil _).symm⟩
  | @piece text resume rest hfault hrest ih =>
      have hemit := h.emit_eq chat text s
      rw [Json.dumpError_eq_none_iff.mpr (hprint text (List.mem_cons_self ..))] at hemit
      obtain ⟨last, after, hrun, hcalls⟩ :=
        ih (s := { s with calls := s.calls ++ [.chunk (.event (h.chunkJson chat text))] })
          (fun piece hpiece => hprint piece (List.mem_cons_of_mem _ hpiece))
          { out with text := out.text ++ text, completionTokens := out.completionTokens + 1 }
      refine ⟨last, after, ?_, ?_⟩
      · unfold deliver
        simp only [hemit]
        exact hrun
      · rw [hcalls]
        exact List.append_assoc ..

/-- The first piece that cannot be printed is the end of a stream. -/
theorem deliver_unprintable {generation : Generation σ} (hdelivers : generation.Delivers pieces)
    (hbad : ∃ piece ∈ pieces, ¬ (h.chunkJson chat piece).Printable) (out : GenerationOutcome) :
    ∃ sent bad rest, pieces = sent ++ bad :: rest ∧ ¬ (h.chunkJson chat bad).Printable ∧
      (deliver (h.emit chat) generation out s).2.calls = s.calls ++ h.events chat sent := by
  induction hdelivers generalizing out s with
  | returns engine =>
      obtain ⟨piece, hpiece, -⟩ := hbad
      cases hpiece
  | @piece text resume rest hfault hrest ih =>
      have hemit := h.emit_eq chat text s
      by_cases htext : (h.chunkJson chat text).Printable
      · -- The piece is sent, and the one that cannot be printed is further on.
        rw [Json.dumpError_eq_none_iff.mpr htext] at hemit
        have hlater : ∃ piece ∈ rest, ¬ (h.chunkJson chat piece).Printable := by
          obtain ⟨piece, hpiece, hunprintable⟩ := hbad
          rcases List.mem_cons.mp hpiece with rfl | hrest
          · exact absurd htext hunprintable
          · exact ⟨piece, hrest, hunprintable⟩
        obtain ⟨sent, bad, behind, rfl, hunprintable, hcalls⟩ :=
          ih (s := { s with calls := s.calls ++ [.chunk (.event (h.chunkJson chat text))] }) hlater
            { out with text := out.text ++ text, completionTokens := out.completionTokens + 1 }
        refine ⟨text :: sent, bad, behind, rfl, hunprintable, ?_⟩
        unfold deliver
        simp only [hemit]
        rw [hcalls]
        exact List.append_assoc ..
      · obtain ⟨e, hdump⟩ := Option.ne_none_iff_exists'.mp
          (mt Json.dumpError_eq_none_iff.mp htext)
        rw [hdump] at hemit
        refine ⟨[], text, rest, rfl, htext, ?_⟩
        unfold deliver
        simp only [hemit]
        rw [calls_of_ended (hfault e)]
        exact (List.append_nil _).symm

/-- The engine counts the tokens of the prompt and delivers the pieces. -/
def DeliversPieces (engine : σ) (prompt : Bytes) (gen : GenerationConfig K)
    (pieces : List Bytes) : Prop :=
  (∃ promptTokens, h.engine.countTokens engine prompt = .ok promptTokens) ∧
    (h.engine.generateStream engine prompt gen).Delivers pieces

/-! ## The two replies -/

/-- The calls of a reply, and of what answers its exception. -/
def replyCalls (chat stream : Bool) (prompt : Bytes) (gen : GenerationConfig K)
    (s : HandlerState σ Num) : List (WriterCall Num) :=
  (tryCatch (h.reply chat stream prompt gen) h.generationFailed s).2.calls

theorem tryCatch_of_ok {m : Handler σ Num Unit} {handler : Exception → Handler σ Num Unit}
    {after : HandlerState σ Num} (heq : m s = (.ok (), after)) :
    tryCatch m handler s = (.ok (), after) := by
  simp only [MonadExcept.tryCatch, tryCatchThe, MonadExceptOf.tryCatch, heq]

theorem tryCatch_of_error {m : Handler σ Num Unit} {handler : Exception → Handler σ Num Unit}
    {e : Exception} {after : HandlerState σ Num} (heq : m s = (.error e, after)) :
    tryCatch m handler s = handler e after := by
  simp only [MonadExcept.tryCatch, tryCatchThe, MonadExceptOf.tryCatch, heq]

/-- What answers an exception begins the writer and sends a body, or cannot print it. -/
theorem calls_generationFailed (e : Exception) :
    ∃ errorBody, (h.generationFailed e s).2.calls =
        s.calls ++ [.begin 500 (h.baseHeaders (ascii "application/json"))] ∨
      (h.generationFailed e s).2.calls =
        s.calls ++ [.begin 500 (h.baseHeaders (ascii "application/json")),
          .chunk (.dump errorBody), .close] := by
  obtain ⟨errorBody, hbody⟩ := h.exists_generationFailed_eq e
  have heq := h.respond_eq (s := s) 500 errorBody
  refine ⟨errorBody, ?_⟩
  rw [hbody]
  cases hdump : errorBody.dumpError with
  | none =>
      rw [hdump] at heq
      right
      rw [heq]
  | some e =>
      rw [hdump] at heq
      left
      rw [heq]

/-- A reply that is not streamed carries the pieces put together, if the name of the model
can be printed next to them. -/
theorem repliedText_replyCalls (chat : Bool) (hfresh : s.calls = [])
    (hdelivers : h.DeliversPieces s.engine prompt gen pieces)
    (hvalid : Utf8.Valid pieces.flatten) :
    repliedText chat (h.replyCalls chat false prompt gen s) =
      if Utf8.Valid h.cfg.modelId then some pieces.flatten else none := by
  obtain ⟨⟨promptTokens, hcount⟩, hgeneration⟩ := hdelivers
  have hnone : h.generationError s.engine prompt gen (h.pieceError chat false) = none := by
    rw [generationError, hcount]
    exact hgeneration.error_eq
  obtain ⟨after, hcalls, hcases⟩ := h.wholeReply_cases chat prompt gen s
  rw [hnone] at hcases
  obtain ⟨out, hrun, hreply⟩ := hcases
  have htext : out.text = pieces.flatten := by
    rw [h.text_of_runGeneration hrun, generationText, hgeneration.pieces_eq]
  have hprint : (h.completionJson chat out).Printable ↔ Utf8.Valid h.cfg.modelId := by
    rw [printable_completionJson_iff, htext]
    exact and_iff_right hvalid
  have heq := h.respond_eq (s := after) 200 (h.completionJson chat out)
  rw [← hreply, hcalls, hfresh] at heq
  show repliedText chat (tryCatch (h.wholeReply chat prompt gen) h.generationFailed s).2.calls = _
  split_ifs with hmodel
  · rw [Json.dumpError_eq_none_iff.mpr (hprint.mpr hmodel)] at heq
    rw [tryCatch_of_ok heq, ← htext]
    exact h.carried_completionJson chat out
  · obtain ⟨e, hdump⟩ := Option.ne_none_iff_exists'.mp
      (mt Json.dumpError_eq_none_iff.mp (mt hprint.mp hmodel))
    rw [hdump] at heq
    rw [tryCatch_of_error heq]
    -- The writer had been begun, and what follows begins it again.
    obtain ⟨errorBody, hafter | hafter⟩ := h.calls_generationFailed e
    · rw [hafter]
      rfl
    · rw [hafter]
      rfl

/-- A stream is the generation, with a frame around it. -/
theorem streamReply_of_count (chat : Bool) (gen : GenerationConfig K) {promptTokens : ℤ}
    (hcount : h.engine.countTokens s.engine prompt = .ok promptTokens) :
    h.streamReply chat prompt gen s =
      match deliver (h.emit chat) (h.engine.generateStream s.engine prompt gen)
          ⟨[], 0, promptTokens, false⟩
          { s with calls := s.calls ++ [.begin 200 h.streamHeaders] } with
      | (.ok _, after) => (.ok (), { after with
          calls := after.calls ++ [.chunk (.text (ascii "data: [DONE]\n\n")), .close] })
      | (.error e, after) => (.error e, after) := by
  rw [streamReply_eq, runGeneration_eq]
  simp only [hcount]
  rcases deliver (h.emit chat) (h.engine.generateStream s.engine prompt gen)
    ⟨[], 0, promptTokens, false⟩ { s with calls := s.calls ++ [.begin 200 h.streamHeaders] } with
    ⟨result, after⟩
  cases result with
  | ok out => rfl
  | error e => rfl

/-- A stream of pieces that can be printed carries them all. -/
theorem replyCalls_of_printable (hdelivers : h.DeliversPieces s.engine prompt gen pieces)
    (hprint : ∀ piece ∈ pieces, (h.chunkJson chat piece).Printable) :
    h.replyCalls chat true prompt gen s = s.calls ++ .begin 200 h.streamHeaders ::
      (h.events chat pieces ++ [.chunk (.text (ascii "data: [DONE]\n\n")), .close]) := by
  obtain ⟨⟨promptTokens, hcount⟩, hgeneration⟩ := hdelivers
  obtain ⟨last, after, hrun, hcalls⟩ := h.deliver_printable
    (s := { s with calls := s.calls ++ [.begin 200 h.streamHeaders] }) hgeneration hprint
    ⟨[], 0, promptTokens, false⟩
  have heq := h.streamReply_of_count chat gen hcount
  rw [hrun] at heq
  show (tryCatch (h.streamReply chat prompt gen) h.generationFailed s).2.calls = _
  rw [tryCatch_of_ok heq]
  show after.calls ++ _ = _
  rw [hcalls]
  simp

/-- A stream with a piece that cannot be printed is not closed, or lacks that piece. -/
theorem replyCalls_of_unprintable (hdelivers : h.DeliversPieces s.engine prompt gen pieces)
    (hbad : ∃ piece ∈ pieces, ¬ (h.chunkJson chat piece).Printable) :
    ∃ sent bad rest, pieces = sent ++ bad :: rest ∧ ¬ (h.chunkJson chat bad).Printable ∧
      (¬ EndsWithDone (h.replyCalls chat true prompt gen s) ∨
        h.replyCalls chat true prompt gen s = s.calls ++ .begin 200 h.streamHeaders ::
          (h.events chat sent ++ [.chunk (.text (ascii "data: [DONE]\n\n")), .close])) := by
  obtain ⟨⟨promptTokens, hcount⟩, hgeneration⟩ := hdelivers
  let begun : HandlerState σ Num := { s with calls := s.calls ++ [.begin 200 h.streamHeaders] }
  obtain ⟨sent, bad, rest, hpieces, hunprintable, hcalls⟩ :=
    h.deliver_unprintable (s := begun) hgeneration hbad ⟨[], 0, promptTokens, false⟩
  refine ⟨sent, bad, rest, hpieces, hunprintable, ?_⟩
  have heq := h.streamReply_of_count chat gen hcount
  rcases hrun : deliver (h.emit chat) (h.engine.generateStream s.engine prompt gen)
    ⟨[], 0, promptTokens, false⟩ begun with ⟨result, after⟩
  rw [hrun] at hcalls heq
  unfold replyCalls reply
  rw [if_pos rfl]
  cases result with
  | ok out =>
      right
      rw [tryCatch_of_ok heq]
      show after.calls ++ _ = _
      rw [show after.calls = begun.calls ++ h.events chat sent from hcalls]
      simp [begun]
  | error e =>
      left
      rw [tryCatch_of_error heq]
      intro hdone
      obtain ⟨errorBody, hafter | hafter⟩ := h.calls_generationFailed (s := after) e
      · obtain ⟨first, hfirst⟩ := hdone
        have hlast := congrArg List.getLast? (hafter.symm.trans hfirst)
        simp at hlast
      · have htext := hdone.isText
        rw [hafter, List.dropLast_append_of_ne_nil (by simp)] at htext
        simp [WriterCall.isText] at htext

/-- The text of a closed stream is what its events carry. -/
theorem streamedText_of_closed (pieces : List Bytes) :
    streamedText chat (.begin 200 h.streamHeaders ::
      (h.events chat pieces ++ [.chunk (.text (ascii "data: [DONE]\n\n")), .close])) =
        pieces.flatten := by
  rw [← List.singleton_append, streamedText_append, streamedText_append, streamedText_events]
  show [] ++ (pieces.flatten ++ []) = _
  rw [List.nil_append, List.append_nil]

/-- The two replies agree exactly if every piece can be printed by itself. -/
theorem textsAgree_iff (hfresh : s.calls = [])
    (hdelivers : h.DeliversPieces s.engine prompt gen pieces)
    (hvalid : Utf8.Valid pieces.flatten) :
    TextsAgree chat (h.replyCalls chat false prompt gen s) (h.replyCalls chat true prompt gen s) ↔
      Utf8.Valid h.cfg.modelId ∧ ∀ piece ∈ pieces, Utf8.Valid piece := by
  have hwhole := h.repliedText_replyCalls chat hfresh hdelivers hvalid
  by_cases hmodel : Utf8.Valid h.cfg.modelId
  · rw [if_pos hmodel] at hwhole
    have hprint : ∀ piece, (h.chunkJson chat piece).Printable ↔ Utf8.Valid piece := fun piece =>
      (h.printable_chunkJson_iff chat piece).trans (and_iff_left hmodel)
    by_cases hpieces : ∀ piece ∈ pieces, Utf8.Valid piece
    · refine iff_of_true ⟨?_, ?_⟩ ⟨hmodel, hpieces⟩
      all_goals rw [h.replyCalls_of_printable hdelivers
        fun piece hpiece => (hprint piece).mpr (hpieces piece hpiece), hfresh]
      · exact ⟨.begin 200 h.streamHeaders :: h.events chat pieces, rfl⟩
      · rw [hwhole, List.nil_append, h.streamedText_of_closed]
    · refine iff_of_false (fun hagree => ?_) fun hboth => hpieces hboth.2
      obtain ⟨hdone, htext⟩ := hagree
      push Not at hpieces
      obtain ⟨piece, hpiece, hinvalid⟩ := hpieces
      obtain ⟨sent, bad, rest, rfl, hunprintable, hopen | hclosed⟩ :=
        h.replyCalls_of_unprintable hdelivers
          ⟨piece, hpiece, mt (hprint piece).mp hinvalid⟩
      · exact hopen hdone
      · -- The piece that is left out is not empty, so the text is too short.
        rw [hwhole, hclosed, hfresh, List.nil_append, h.streamedText_of_closed,
          Option.some.injEq] at htext
        have hempty : bad = [] := by
          have hlength := congrArg List.length htext
          simp only [List.flatten_append, List.flatten_cons, List.length_append] at hlength
          exact List.length_eq_zero_iff.mp (by omega)
        rw [hempty] at hunprintable
        exact hunprintable ((hprint []).mpr rfl)
  · rw [if_neg hmodel] at hwhole
    refine iff_of_false (fun hagree => ?_) fun hboth => hmodel hboth.1
    obtain ⟨-, htext⟩ := hagree
    cases hwhole.symm.trans htext

/-! ## Requests that differ in `stream` -/

section Requests

variable [Field K]

/-- The request gets as far as a generation, and these are its values. -/
structure Asks (s : HandlerState σ Num) (r : HttpRequest) (chat stream : Bool) (body : Json Num)
    (prompt : Bytes) (gen : GenerationConfig K) : Prop where
  endpoint : h.endpoint r = .generation chat
  parsed : h.json.parse r.body = some body
  prompted :
    if chat then
      ∃ item items messages, body.get? (ascii "messages") = some (.array (item :: items)) ∧
        chatMessages (item :: items) = .ok messages ∧
          h.engine.formatChat s.engine messages = .ok prompt
    else body.get? (ascii "prompt") = some (.string prompt)
  admitted : s.activeGenerations < h.cfg.maxConcurrentRequests
  configured : h.genConfigFrom body = .ok gen
  streams : body.value (ascii "stream") Json.getBool false = .ok stream

/-- The other request is the same, with `stream` set. -/
structure SetsStream (r : HttpRequest) (body : Json Num) (other : HttpRequest)
    (otherBody : Json Num) : Prop where
  method : other.method = r.method
  target : other.target = r.target
  headers : other.headers = r.headers
  parsed : h.json.parse other.body = some otherBody
  set : otherBody.get? (ascii "stream") = some (.boolean true)
  same : ∀ key, key ≠ ascii "stream" → otherBody.get? key = body.get? key

/-- A field is read alike from objects that agree on it. -/
theorem value_congr {α : Type} {first second : Json Num} {key : Bytes}
    {read : Json Num → Except Exception α} {default : α} (hfirst : first.IsObject)
    (hsecond : second.IsObject) (hsame : first.get? key = second.get? key) :
    first.value key read default = second.value key read default := by
  cases first with
  | object fields =>
      cases second with
      | object others => simp only [Json.value, hsame]
      | _ => exact hsecond.elim
  | _ => exact hfirst.elim

variable {otherBody : Json Num}

/-- The other request asks for the same generation. -/
theorem Asks.streamed (hasks : h.Asks s r chat false body prompt gen)
    (hsets : h.SetsStream r body other otherBody) :
    h.Asks s other chat true otherBody prompt gen := by
  have hobject : otherBody.IsObject := Json.isObject_of_get? hsets.set
  have hbody : body.IsObject := by
    have hprompted := hasks.prompted
    cases chat with
    | true =>
        obtain ⟨item, items, messages, hmessages, -⟩ := hprompted
        exact Json.isObject_of_get? hmessages
    | false => exact Json.isObject_of_get? hprompted
  have hvalue : ∀ {α : Type} (key : Bytes) (read : Json Num → Except Exception α) (default : α),
      key ≠ ascii "stream" → otherBody.value key read default = body.value key read default :=
    fun key read default hkey => value_congr hobject hbody (hsets.same key hkey)
  refine
    { endpoint := ?_, parsed := hsets.parsed, prompted := ?_, admitted := hasks.admitted
      configured := ?_, streams := ?_ }
  · have hendpoint := hasks.endpoint
    unfold ApiHandler.endpoint authorized HttpRequest.header at hendpoint ⊢
    rw [hsets.method, hsets.target, hsets.headers]
    exact hendpoint
  · have hprompted := hasks.prompted
    rw [hsets.same (ascii "messages") (by decide), hsets.same (ascii "prompt") (by decide)]
    exact hprompted
  · have hconfigured := hasks.configured
    unfold genConfigFrom at hconfigured ⊢
    rw [hvalue (ascii "max_tokens") _ _ (by decide), hvalue (ascii "temperature") _ _ (by decide),
      hvalue (ascii "top_p") _ _ (by decide), hvalue (ascii "repeat_penalty") _ _ (by decide),
      hvalue (ascii "seed") _ _ (by decide), hvalue (ascii "echo") _ _ (by decide)]
    exact hconfigured
  · cases otherBody with
    | object fields =>
        rw [Json.value, hsets.set]
        rfl
    | _ => exact hobject.elim

/-- A request that is admitted takes a slot. -/
def takeSlot (s : HandlerState σ Num) : HandlerState σ Num :=
  { s with totalRequests := s.totalRequests + 1, activeGenerations := s.activeGenerations + 1 }

theorem route_of_generation (hendpoint : h.endpoint r = .generation chat) :
    h.route r s =
      h.handleGeneration r chat { s with totalRequests := s.totalRequests + 1 } := by
  obtain ⟨m, hrouted, heq⟩ := h.route_eq r
  rw [hendpoint] at hrouted
  cases hrouted with
  | generation => rw [heq]; rfl

theorem generate_of_asks (hasks : h.Asks s r chat stream body prompt gen) :
    (h.generate chat body prompt { s with totalRequests := s.totalRequests + 1 }).2.calls =
      h.replyCalls chat stream prompt gen (takeSlot s) := by
  have hfree : ¬ h.cfg.maxConcurrentRequests ≤ s.activeGenerations := not_le.mpr hasks.admitted
  have hconfigured : (Handler.convert (h.genConfigFrom body) :
      Handler σ Num (GenerationConfig K)) (takeSlot s) = (.ok gen, takeSlot s) := by
    rw [hasks.configured]
    rfl
  have hstreams : (Handler.convert (body.value (ascii "stream") Json.getBool false) :
      Handler σ Num Bool) (takeSlot s) = (.ok stream, takeSlot s) := by
    rw [hasks.streams]
    rfl
  unfold generate busyGuard
  rw [if_neg hfree]
  show (Code.cleanly _ _ (takeSlot s)).2.calls = _
  rw [Code.cleanly, Code.bind_of_ok hconfigured, Code.bind_of_ok hstreams]
  rfl

/-- The request is answered with the reply to the generation it asks for. -/
theorem handle_of_asks (hasks : h.Asks s r chat stream body prompt gen) :
    (h.handle r s).2.calls = h.replyCalls chat stream prompt gen (takeSlot s) := by
  rw [← h.generate_of_asks hasks]
  show (h.route r s).2.calls = _
  rw [h.route_of_generation hasks.endpoint]
  unfold handleGeneration
  simp only [hasks.parsed]
  have hprompted := hasks.prompted
  cases chat with
  | true =>
      obtain ⟨item, items, messages, hmessages, hconvert, hformat⟩ := hprompted
      let counted : HandlerState σ Num := { s with totalRequests := s.totalRequests + 1 }
      have hconvert : (Handler.convert (chatMessages (item :: items)) :
          Handler σ Num (List ChatMessage)) counted = (.ok messages, counted) := by
        rw [hconvert]
        rfl
      have hformat : Handler.ask (fun engine => h.engine.formatChat engine messages) counted =
          (.ok prompt, counted) := by
        rw [Handler.ask, Code.ofExcept, show counted.engine = s.engine from rfl, hformat]
      simp only [if_true, hmessages]
      rw [Code.bind_of_ok hconvert, Code.bind_of_ok hformat]
  | false =>
      have hprompt : body.get? (ascii "prompt") = some (.string prompt) := hprompted
      simp only [Bool.false_eq_true, if_false, hprompt]

/-- Of a request and the same with `stream` set, on a generation whose text is UTF-8: the
stream ends with `[DONE]` and carries the text of the other reply exactly if the name of the
model is UTF-8 and so is each piece by itself. -/
theorem stream_agrees_iff (hfresh : s.calls = [])
    (hasks : h.Asks s r chat false body prompt gen)
    (hsets : h.SetsStream r body other otherBody)
    (hdelivers : h.DeliversPieces s.engine prompt gen pieces)
    (hvalid : Utf8.Valid pieces.flatten) :
    TextsAgree chat (h.handle r s).2.calls (h.handle other s).2.calls ↔
      Utf8.Valid h.cfg.modelId ∧ ∀ piece ∈ pieces, Utf8.Valid piece := by
  rw [h.handle_of_asks hasks, h.handle_of_asks (hasks.streamed h hsets)]
  exact h.textsAgree_iff (s := takeSlot s) hfresh hdelivers hvalid

end Requests

/-- Two pieces that end between two characters. -/
theorem stream_agrees_two_pieces :
    let h := serving (.rethrowing () [ascii "hel", ascii "lo"])
    TextsAgree false (h.handle (completionRequest false) started).2.calls
      (h.handle (completionRequest true) started).2.calls := by
  intro h
  have hasks : h.Asks started (completionRequest false) false false
      (.object (completionFields false)) (ascii "hi") _ :=
    ⟨by decide +kernel, rfl, rfl, by decide, rfl, rfl⟩
  have hsets : h.SetsStream (completionRequest false) (.object (completionFields false))
      (completionRequest true) (.object (completionFields true)) := by
    refine ⟨rfl, rfl, rfl, rfl, rfl, fun key hkey => ?_⟩
    have hstream : decide (ascii "stream" = key) = false := decide_eq_false (Ne.symm hkey)
    simp only [completionFields, Json.get?, List.find?_cons, hstream, List.find?_nil]
  refine (h.stream_agrees_iff rfl hasks hsets
    ⟨⟨0, rfl⟩, Generation.delivers_rethrowing () [ascii "hel", ascii "lo"]⟩ ?_).mpr ?_
  · decide +kernel
  · decide +kernel

/-- A character of two bytes in two pieces: the whole text is sent, and the stream ends in an
error reply. -/
theorem character_in_two_pieces :
    let h := serving (.rethrowing () [[0xC3], [0xA9]])
    Utf8.Valid [0xC3, 0xA9] ∧
      repliedText false (h.handle (completionRequest false) started).2.calls =
        some [0xC3, 0xA9] ∧
      ¬ TextsAgree false (h.handle (completionRequest false) started).2.calls
        (h.handle (completionRequest true) started).2.calls := by
  intro h
  refine ⟨by decide +kernel, by decide +kernel, fun hagree => ?_⟩
  have htext := hagree.1.isText
  have hdump : (h.handle (completionRequest true) started).2.calls.dropLast.getLast?.map
      WriterCall.isText = some false := by decide +kernel
  cases hdump.symm.trans htext

end ApiHandler

end Reame.Server
