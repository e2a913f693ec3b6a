import Reame.Foundation.Throwing
import Reame.Server.Json

/-!
# The API handler

`ApiHandler` maps HTTP requests onto the engine.  A request is handled by code that changes
the counters of the handler, the engine and what the `ResponseWriter` has been called with,
and that may throw.  The engine is a parameter: every call of it may throw, and a generation
calls the handler back with one piece of text after the other.

What is printed is recorded as the JSON value that `dump` is called on, not as its text.
-/

namespace Reame.Server

open Reame.Core Throwing Wire

/-! ## Requests and responses -/

/-- `HeaderMap`. -/
abbrev HeaderMap := List (Bytes × Bytes)

/-- `HttpRequest`. -/
structure HttpRequest where
  method : Bytes
  target : Bytes
  headers : HeaderMap
  body : Bytes
deriving DecidableEq, Repr

/-- `HttpRequest::header`: names differing in case are the same. -/
def HttpRequest.header (r : HttpRequest) (name : Bytes) : Bytes :=
  match r.headers.find? fun entry => entry.1.map toLower = name.map toLower with
  | some entry => entry.2
  | none => []

/-- What the handler writes: a printed value, a printed value as an event, or a text. -/
inductive Data (Num : Type)
  | dump (body : Json Num)
  | event (body : Json Num)
  | text (bytes : Bytes)

/-- A call of the `ResponseWriter`. -/
inductive WriterCall (Num : Type)
  | begin (status : ℕ) (headers : HeaderMap)
  | chunk (data : Data Num)
  | close

/-! ## The engine -/

/-- `ChatMessage`. -/
structure ChatMessage where
  role : Bytes
  content : Bytes
deriving DecidableEq, Repr

/-- A run of `generate_stream` as its callback sees it: it returns or throws and leaves the
engine in some state, or it calls back with a piece and goes on with what the callback
threw, if anything. -/
inductive Generation (σ : Type)
  | returns (engine : σ)
  | throws (e : Exception) (engine : σ)
  | piece (text : Bytes) (resume : Option Exception → Generation σ)

/-- What `handle_metrics` reports of a `SpeculativeMetrics`. -/
structure SpeculativeReport (K : Type) where
  acceptanceRate : K
  totalDraftTokens : ℤ
  totalAcceptedTokens : ℤ
  totalRejectedTokens : ℤ
  draftSpeed : K
  targetSpeed : K
  overallSpeed : K

/-- The calls of a `ReameEngine` with states `σ`. -/
structure Engine (σ K : Type) where
  formatChat : σ → List ChatMessage → Except Exception Bytes
  countTokens : σ → Bytes → Except Exception ℤ
  generateStream : σ → Bytes → GenerationConfig K → Generation σ
  warm : σ → Bytes → Except Exception ℤ × σ
  createSession : σ → Except Exception Bytes × σ
  saveSession : σ → Bytes → Except Exception Unit × σ
  loadSession : σ → Bytes → Except Exception Unit × σ
  deleteSession : σ → Bytes → Except Exception Unit × σ
  contextSize : σ → Except Exception ℤ
  vocabSize : σ → Except Exception ℤ
  speculativeMetrics : σ → Except Exception (Option (SpeculativeReport K))

/-! ## The handler -/

/-- `ApiHandler::Config`. -/
structure Config where
  apiKey : Bytes
  enableCors : Bool
  enableMetrics : Bool
  maxConcurrentRequests : ℤ
  modelId : Bytes
deriving DecidableEq, Repr

/-- `ApiHandler::Impl`, the engine, and the calls the writer has received. -/
structure HandlerState (σ Num : Type) where
  engine : σ
  activeGenerations : ℤ
  totalRequests : ℕ
  errors : ℕ
  calls : List (WriterCall Num)

/-- `GenerationOutcome`. -/
structure GenerationOutcome where
  text : Bytes
  completionTokens : ℤ
  promptTokens : ℤ
  hitMaxTokens : Bool
deriving DecidableEq, Repr

/-- `ApiHandler`: its configuration, and what it is linked with. -/
structure ApiHandler (σ Num K : Type) where
  cfg : Config
  json : JsonLibrary Num K
  engine : Engine σ K

variable {σ Num K : Type}

/-- Code of the handler. -/
abbrev Handler (σ Num α : Type) := Code Exception (HandlerState σ Num) α

namespace Handler

/-- Call the writer. -/
def write (call : WriterCall Num) : Handler σ Num Unit :=
  Code.update fun s => { s with calls := s.calls ++ [call] }

/-- Call a member function of the engine that does not change it. -/
def ask {α : Type} (f : σ → Except Exception α) : Handler σ Num α :=
  Code.ofExcept fun s => f s.engine

/-- Call a member function of the engine. -/
def call {α : Type} (f : σ → Except Exception α × σ) : Handler σ Num α := fun s =>
  ((f s.engine).1, { s with engine := (f s.engine).2 })

/-- `dump`, for its exception. -/
def dump (body : Json Num) : Handler σ Num Unit :=
  match body.dumpError with
  | none => pure ()
  | some e => throw e

/-- Pass on the exception of a conversion. -/
def convert {α : Type} (result : Except Exception α) : Handler σ Num α :=
  Code.ofExcept fun _ => result

end Handler

namespace ApiHandler

open Handler

/-- `error_json`. -/
def errorJson (message type code : Bytes) : Json Num :=
  .object [(ascii "error", .object [(ascii "code", .string code),
    (ascii "message", .string message), (ascii "type", .string type)])]

variable (h : ApiHandler σ Num K)

/-- `base_headers`. -/
def baseHeaders (contentType : Bytes) : HeaderMap :=
  (if h.cfg.enableCors then
    [(ascii "Access-Control-Allow-Headers", ascii "Content-Type, Authorization"),
     (ascii "Access-Control-Allow-Methods", ascii "GET, POST, DELETE, OPTIONS"),
     (ascii "Access-Control-Allow-Origin", ascii "*")]
  else []) ++ [(ascii "Content-Type", contentType)]

/-- `respond`. -/
def respond (status : ℕ) (body : Json Num) : Handler σ Num Unit := do
  if 400 ≤ status then
    Code.update fun s => { s with errors := s.errors + 1 }
  write (.begin status (h.baseHeaders (ascii "application/json")))
  dump body
  write (.chunk (.dump body))
  write .close

/-- `respond` with an `error_json`. -/
def respondError (status : ℕ) (message type code : Bytes) : Handler σ Num Unit :=
  h.respond status (errorJson message type code)

/-- `authorized`. -/
def authorized (r : HttpRequest) : Bool :=
  if h.cfg.apiKey = [] then true
  else
    let expected := ascii "Bearer " ++ h.cfg.apiKey
    let got := r.header (ascii "Authorization")
    let diff : UInt8 := if got.length ≠ expected.length then 1 else 0
    (List.range got.length).foldl (fun diff i => diff |||
      (got.getD i 0 ^^^ expected.getD (if i < expected.length then i else 0) 0)) diff = 0

/-- `gen_config_from`. -/
def genConfigFrom [Field K] (body : Json Num) : Except Exception (GenerationConfig K) := do
  let maxTokens ← body.value (ascii "max_tokens") (Json.getInt h.json) 512
  let temperature ← body.value (ascii "temperature") (Json.getFloat h.json) (7 / 10)
  let topP ← body.value (ascii "top_p") (Json.getFloat h.json) (95 / 100)
  let repeatPenalty ← body.value (ascii "repeat_penalty") (Json.getFloat h.json) (11 / 10)
  let seed ← body.value (ascii "seed") (Json.getInt h.json) 42
  let echoPrompt ← body.value (ascii "echo") Json.getBool false
  pure { (GenerationConfig.initial : GenerationConfig K) with
    maxTokens, temperature, topP, repeatPenalty, seed, echoPrompt }

/-! ### Generation -/

/-- The callback of `run_generation`, for every piece of a generation. -/
def deliver (onPiece : Bytes → Handler σ Num Unit) :
    Generation σ → GenerationOutcome → Handler σ Num GenerationOutcome
  | .returns engine, out => fun s => (.ok out, { s with engine })
  | .throws e engine, _ => fun s => (.error e, { s with engine })
  | .piece text resume, out => fun s =>
      let out := { out with
        text := out.text ++ text
        completionTokens := out.completionTokens + 1 }
      match onPiece text s with
      | (.ok (), s) => deliver onPiece (resume none) out s
      | (.error e, s) => deliver onPiece (resume (some e)) out s

/-- The call of `generate_stream`. -/
def callGenerateStream (prompt : Bytes) (gen : GenerationConfig K)
    (onPiece : Bytes → Handler σ Num Unit) (out : GenerationOutcome) :
    Handler σ Num GenerationOutcome :=
  Code.reading fun s => deliver onPiece (h.engine.generateStream s.engine prompt gen) out

/-- `run_generation`. -/
def runGeneration (prompt : Bytes) (gen : GenerationConfig K)
    (onPiece : Bytes → Handler σ Num Unit) : Handler σ Num GenerationOutcome := do
  let promptTokens ← ask fun engine => h.engine.countTokens engine prompt
  let out ← h.callGenerateStream prompt gen onPiece ⟨[], 0, promptTokens, false⟩
  pure { out with hitMaxTokens := gen.maxTokens ≤ out.completionTokens }

/-- The chunk of a stream that carries a piece. -/
def chunkJson (chat : Bool) (piece : Bytes) : Json Num :=
  .object [
    (ascii "choices", .array [
      if chat then
        .object [(ascii "delta", .object [(ascii "content", .string piece)]),
          (ascii "index", .number (h.json.ofInt 0))]
      else
        .object [(ascii "index", .number (h.json.ofInt 0)), (ascii "text", .string piece)]]),
    (ascii "model", .string h.cfg.modelId),
    (ascii "object",
      .string (if chat then ascii "chat.completion.chunk" else ascii "text_completion.chunk"))]

/-- The body of a reply that is not streamed. -/
def completionJson (chat : Bool) (out : GenerationOutcome) : Json Num :=
  let finish := Json.string (if out.hitMaxTokens then ascii "length" else ascii "stop")
  .object [
    (ascii "choices", .array [
      if chat then
        .object [(ascii "finish_reason", finish), (ascii "index", .number (h.json.ofInt 0)),
          (ascii "message", .object [(ascii "content", .string out.text),
            (ascii "role", .string (ascii "assistant"))])]
      else
        .object [(ascii "finish_reason", finish), (ascii "index", .number (h.json.ofInt 0)),
          (ascii "text", .string out.text)]]),
    (ascii "model", .string h.cfg.modelId),
    (ascii "object", .string (if chat then ascii "chat.completion" else ascii "text_completion")),
    (ascii "usage", .object [
      (ascii "completion_tokens", .number (h.json.ofInt out.completionTokens)),
      (ascii "prompt_tokens", .number (h.json.ofInt out.promptTokens)),
      (ascii "total_tokens", .number (h.json.ofInt (out.promptTokens + out.completionTokens)))])]

/-- The `on_piece` of a stream. -/
def emit (chat : Bool) (piece : Bytes) : Handler σ Num Unit := do
  dump (h.chunkJson chat piece)
  write (.chunk (.event (h.chunkJson chat piece)))

/-- A generation whose pieces are sent as they come. -/
def streamReply (chat : Bool) (prompt : Bytes) (gen : GenerationConfig K) :
    Handler σ Num Unit := do
  write (.begin 200 ((ascii "Cache-Control", ascii "no-cache") ::
    h.baseHeaders (ascii "text/event-stream")))
  let _ ← h.runGeneration prompt gen (h.emit chat)
  write (.chunk (.text (ascii "data: [DONE]\n\n")))
  write .close

/-- A generation that is sent as a whole. -/
def wholeReply (chat : Bool) (prompt : Bytes) (gen : GenerationConfig K) :
    Handler σ Num Unit := do
  let out ← h.runGeneration prompt gen fun _ => pure ()
  h.respond 200 (h.completionJson chat out)

/-- The `try` block of `handle_generation`. -/
def reply (chat stream : Bool) (prompt : Bytes) (gen : GenerationConfig K) : Handler σ Num Unit :=
  if stream then h.streamReply chat prompt gen else h.wholeReply chat prompt gen

/-- The `catch` clauses of `handle_generation`. -/
def generationFailed : Exception → Handler σ Num Unit
  | .engineError message => h.respondError 500 (Exception.engineError message).what
      (ascii "server_error") (ascii "generation_failed")
  | .other message => h.respondError 500 (Exception.other message).what
      (ascii "server_error") (ascii "internal")

/-- `BusyGuard`: the slot is given back when the scope is left.  A refused guard takes back
its increment at once. -/
def busyGuard (refused admitted : Handler σ Num Unit) : Handler σ Num Unit := fun s =>
  if h.cfg.maxConcurrentRequests ≤ s.activeGenerations then refused s
  else
    Code.cleanly (fun s => { s with activeGenerations := s.activeGenerations - 1 }) admitted
      { s with activeGenerations := s.activeGenerations + 1 }

/-- The messages of a chat request. -/
def chatMessages : List (Json Num) → Except Exception (List ChatMessage)
  | [] => pure []
  | m :: rest => do
      let role ← m.value (ascii "role") Json.getString (ascii "user")
      let content ← m.value (ascii "content") Json.getString []
      let messages ← chatMessages rest
      pure (⟨role, content⟩ :: messages)

/-- `handle_generation` from the gate on. -/
def generate [Field K] (chat : Bool) (body : Json Num) (prompt : Bytes) : Handler σ Num Unit :=
  h.busyGuard
    (h.respondError 503 (ascii "server is at capacity, retry later") (ascii "server_error")
      (ascii "overloaded"))
    (do
      let gen ← convert (h.genConfigFrom body)
      let stream ← convert (body.value (ascii "stream") Json.getBool false)
      tryCatch (h.reply chat stream prompt gen) h.generationFailed)

/-- `handle_generation`. -/
def handleGeneration [Field K] (r : HttpRequest) (chat : Bool) : Handler σ Num Unit :=
  match h.json.parse r.body with
  | none => h.respondError 400 (ascii "request body is not valid JSON")
      (ascii "invalid_request_error") (ascii "invalid_json")
  | some body =>
      if chat then
        match body.get? (ascii "messages") with
        | some (.array (item :: items)) => do
            let messages ← convert (chatMessages (item :: items))
            let prompt ← ask fun engine => h.engine.formatChat engine messages
            h.generate chat body prompt
        | _ => h.respondError 400 (ascii "'messages' must be a non-empty array")
            (ascii "invalid_request_error") (ascii "invalid_messages")
      else
        match body.get? (ascii "prompt") with
        | some (.string prompt) => h.generate chat body prompt
        | _ => h.respondError 400 (ascii "'prompt' (string) is required")
            (ascii "invalid_request_error") (ascii "missing_prompt")

/-! ### The other endpoints -/

/-- The `catch` clauses of `handle_warm`. -/
def warmFailed : Exception → Handler σ Num Unit
  | .engineError message => h.respondError 400 (Exception.engineError message).what
      (ascii "invalid_request_error") (ascii "warm_failed")
  | .other message => h.respondError 500 (Exception.other message).what
      (ascii "server_error") (ascii "internal")

/-- `handle_warm`. -/
def handleWarm (r : HttpRequest) : Handler σ Num Unit :=
  match h.json.parse r.body with
  | none => h.respondError 400 (ascii "request body is not valid JSON")
      (ascii "invalid_request_error") (ascii "invalid_json")
  | some body =>
      match body.get? (ascii "prompt") with
      | some (.string prompt) =>
          tryCatch
            (do
              let tokens ← call fun engine => h.engine.warm engine prompt
              h.respond 200 (.object [(ascii "tokens", .number (h.json.ofInt tokens)),
                (ascii "warmed", .boolean true)]))
            h.warmFailed
      | _ => h.respondError 400 (ascii "'prompt' (string) is required")
          (ascii "invalid_request_error") (ascii "missing_prompt")

/-- The reply to a method that an endpoint does not have. -/
def badMethod : Handler σ Num Unit :=
  h.respondError 405 (ascii "method not allowed") (ascii "invalid_request_error")
    (ascii "bad_method")

/-- The `catch` clause of `handle_sessions`; what is not an `EngineError` passes through. -/
def sessionFailed : Exception → Handler σ Num Unit
  | .engineError message => h.respondError 404 (Exception.engineError message).what
      (ascii "invalid_request_error") (ascii "session_not_found")
  | .other message => throw (.other message)

/-- The session and what to do with it, from a target. -/
def sessionTarget (target : Bytes) : Bytes × Bytes :=
  let rest := target.drop 13
  (rest.takeWhile (· ≠ 47), (rest.dropWhile (· ≠ 47)).drop 1)

/-- A member function of the engine on a session, and the reply to it. -/
def onSession (f : σ → Bytes → Except Exception Unit × σ) (id : Bytes) : Handler σ Num Unit := do
  call fun engine => f engine id
  h.respond 200 (.object [(ascii "ok", .boolean true)])

/-- `handle_sessions`. -/
def handleSessions (r : HttpRequest) : Handler σ Num Unit :=
  tryCatch
    (if r.target = ascii "/v1/sessions" ∧ r.method = ascii "POST" then do
      let id ← call h.engine.createSession
      h.respond 200 (.object [(ascii "id", .string id)])
    else if r.target.length ≤ 13 then h.badMethod
    else
      let (id, action) := sessionTarget r.target
      if r.method = ascii "DELETE" ∧ action = [] then h.onSession h.engine.deleteSession id
      else if r.method = ascii "POST" ∧ action = ascii "save" then
        h.onSession h.engine.saveSession id
      else if r.method = ascii "POST" ∧ action = ascii "load" then
        h.onSession h.engine.loadSession id
      else h.badMethod)
    h.sessionFailed

/-- The body of the reply to `/metrics`. -/
def metricsJson (s : HandlerState σ Num) (contextSize vocabSize : ℤ)
    (speculative : Option (SpeculativeReport K)) : Json Num :=
  .object ([
    (ascii "model", .object [(ascii "context_size", .number (h.json.ofInt contextSize)),
      (ascii "id", .string h.cfg.modelId),
      (ascii "vocab_size", .number (h.json.ofInt vocabSize))]),
    (ascii "server", .object [
      (ascii "active_generations", .number (h.json.ofInt s.activeGenerations)),
      (ascii "errors", .number (h.json.ofInt s.errors)),
      (ascii "total_requests", .number (h.json.ofInt s.totalRequests))])] ++
    match speculative with
    | none => []
    | some m => [(ascii "speculative", .object [
        (ascii "acceptance_rate", .number (h.json.ofFloat m.acceptanceRate)),
        (ascii "draft_speed_tps", .number (h.json.ofFloat m.draftSpeed)),
        (ascii "overall_speed_tps", .number (h.json.ofFloat m.overallSpeed)),
        (ascii "target_speed_tps", .number (h.json.ofFloat m.targetSpeed)),
        (ascii "total_accepted_tokens", .number (h.json.ofInt m.totalAcceptedTokens)),
        (ascii "total_draft_tokens", .number (h.json.ofInt m.totalDraftTokens)),
        (ascii "total_rejected_tokens", .number (h.json.ofInt m.totalRejectedTokens))])])

/-- `handle_metrics`. -/
def handleMetrics : Handler σ Num Unit := do
  let contextSize ← ask h.engine.contextSize
  let vocabSize ← ask h.engine.vocabSize
  let speculative ← ask h.engine.speculativeMetrics
  Code.reading fun s => h.respond 200 (h.metricsJson s contextSize vocabSize speculative)

/-- The body of the reply to `/v1/models`. -/
def modelsJson : Json Num :=
  .object [
    (ascii "data", .array [.object [(ascii "id", .string h.cfg.modelId),
      (ascii "object", .string (ascii "model")), (ascii "owned_by", .string (ascii "reame"))]]),
    (ascii "object", .string (ascii "list"))]

/-- `route`. -/
def route [Field K] (r : HttpRequest) : Handler σ Num Unit := do
  Code.update fun s => { s with totalRequests := s.totalRequests + 1 }
  if h.cfg.enableCors ∧ r.method = ascii "OPTIONS" then
    write (.begin 204 (h.baseHeaders (ascii "text/plain")))
    write .close
  else if r.target = ascii "/health" then
    h.respond 200 (.object [(ascii "status", .string (ascii "ok"))])
  else if ¬ h.authorized r then
    h.respondError 401 (ascii "missing or invalid API key") (ascii "invalid_request_error")
      (ascii "invalid_api_key")
  else if r.target = ascii "/metrics" then
    if ¬ h.cfg.enableMetrics then
      h.respondError 404 (ascii "metrics are disabled") (ascii "invalid_request_error")
        (ascii "not_found")
    else h.handleMetrics
  else if r.target = ascii "/v1/models" then
    if r.method ≠ ascii "GET" then h.badMethod else h.respond 200 h.modelsJson
  else if r.target = ascii "/v1/completions" ∨ r.target = ascii "/v1/chat/completions" then
    if r.method ≠ ascii "POST" then h.badMethod
    else h.handleGeneration r (r.target = ascii "/v1/chat/completions")
  else if r.target = ascii "/v1/warm" then
    if r.method ≠ ascii "POST" then h.badMethod else h.handleWarm r
  else if r.target = ascii "/v1/sessions" ∨ ascii "/v1/sessions/" <+: r.target then
    h.handleSessions r
  else
    h.respondError 404 (ascii "unknown endpoint: " ++ r.target) (ascii "invalid_request_error")
      (ascii "not_found")

/-- `ApiHandler::handle`. -/
def handle [Field K] (r : HttpRequest) (s : HandlerState σ Num) :
    Except Exception Unit × HandlerState σ Num :=
  h.route r s

end ApiHandler

end Reame.Server
