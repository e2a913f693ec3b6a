import Reame.Foundation.Runs
import Reame.Server.Answers
import Reame.Server.HttpParser

/-!
# The calls of the response writer

A `ResponseWriter` is called with `begin` once, with `chunk` for everything there is to send,
and with `end` once.  `respond` does this on its own, and it is the only way in which most
endpoints write.  A generation is different: `handle_generation` answers an exception with
`respond`, and the writer may have been begun by then,

* by a stream, whose header is written before the generation is run, or
* by `respond`, which begins the writer before `dump` refuses to print the body.

`KeepsProtocol` says which requests do not come to this.  `SocketWriter` shows what a client
makes of it: a reply that is not streamed is held back until `end`, so that the second
`begin` goes unnoticed, but behind a stream it is a second status line.
-/

namespace Reame.Server

open Reame.Core Throwing Wire

variable {σ Num K : Type}

/-! ## The protocol -/

/-- The calls since `before` are one `begin`, then `chunk`s, then one `end`. -/
def Proper (before calls : List (WriterCall Num)) : Prop :=
  ∃ status headers, ∃ sent : List (Data Num),
    calls = before ++ .begin status headers :: (sent.map .chunk ++ [.close])

/-- A call of `begin`. -/
def WriterCall.isBegin : WriterCall Num → Bool
  | .begin .. => true
  | _ => false

theorem countP_chunks (sent : List (Data Num)) :
    (sent.map WriterCall.chunk).countP WriterCall.isBegin = 0 := by
  rw [List.countP_eq_zero]
  intro call hcall
  obtain ⟨data, -, rfl⟩ := List.mem_map.mp hcall
  exact Bool.false_ne_true

/-- The writer is begun once. -/
theorem Proper.countP_isBegin {before calls : List (WriterCall Num)}
    (hproper : Proper before (before ++ calls)) : calls.countP WriterCall.isBegin = 1 := by
  obtain ⟨status, headers, sent, heq⟩ := hproper
  have hchunks := countP_chunks sent
  have hclose : List.countP WriterCall.isBegin [(.close : WriterCall Num)] = 0 := rfl
  rw [List.append_cancel_left heq, List.countP_cons_of_pos rfl, List.countP_append, hchunks,
    hclose]

/-! ## The socket -/

/-- `HttpResponse`; its body as the list of what was appended to it. -/
structure HttpResponse (Num : Type) where
  status : ℕ
  headers : HeaderMap
  body : List (Data Num)

/-- `HttpResponse::header`. -/
def HttpResponse.header (response : HttpResponse Num) (name : Bytes) : Bytes :=
  match response.headers.find? fun entry => entry.1.map toLower = name.map toLower with
  | some entry => entry.2
  | none => []

/-- The headers of a stream. -/
def IsStream (headers : HeaderMap) : Prop :=
  (⟨200, headers, []⟩ : HttpResponse Empty).header (ascii "Content-Type") =
    ascii "text/event-stream"

instance (headers : HeaderMap) : Decidable (IsStream headers) :=
  inferInstanceAs (Decidable (_ = _))

/-- What is written to the socket: a text of `serialize_http_response`, the same without the
length of its body, or a chunk as it is.  The first two start with a status line. -/
inductive Sent (Num : Type)
  | response (response : HttpResponse Num)
  | head (response : HttpResponse Num)
  | chunk (data : Data Num)

/-- `SocketWriter`, and what it has written. -/
structure SocketWriter (Num : Type) where
  response : HttpResponse Num
  streaming : Bool
  sent : List (Sent Num)

namespace SocketWriter

/-- A `SocketWriter` as it is constructed. -/
def fresh : SocketWriter Num := ⟨⟨200, [], []⟩, false, []⟩

/-- `SocketWriter::begin`. -/
def begin (w : SocketWriter Num) (status : ℕ) (headers : HeaderMap) : SocketWriter Num :=
  let response := { w.response with status, headers }
  if response.header (ascii "Content-Type") = ascii "text/event-stream" then
    let head := { response with headers := headers.assign (ascii "Connection") (ascii "close") }
    { response, streaming := true, sent := w.sent ++ [.head head] }
  else { response, streaming := false, sent := w.sent }

/-- `SocketWriter::chunk`. -/
def chunk (w : SocketWriter Num) (data : Data Num) : SocketWriter Num :=
  if w.streaming then { w with sent := w.sent ++ [.chunk data] }
  else { w with response := { w.response with body := w.response.body ++ [data] } }

/-- `SocketWriter::end`. -/
def close (w : SocketWriter Num) : SocketWriter Num :=
  if w.streaming then w else { w with sent := w.sent ++ [.response w.response] }

/-- A call of the writer. -/
def call (w : SocketWriter Num) : WriterCall Num → SocketWriter Num
  | .begin status headers => w.begin status headers
  | .chunk data => w.chunk data
  | .close => w.close

/-- What a new writer has written after the calls. -/
def written (calls : List (WriterCall Num)) : List (Sent Num) := (Runs.run call fresh calls).sent

theorem run_chunks_of_streaming (sent : List (Data Num)) {w : SocketWriter Num}
    (hw : w.streaming = true) :
    Runs.run call w (sent.map .chunk) = { w with sent := w.sent ++ sent.map .chunk } := by
  induction sent generalizing w with
  | nil => simp
  | cons data rest ih =>
      have hchunk : w.chunk data = { w with sent := w.sent ++ [.chunk data] } := if_pos hw
      rw [List.map_cons, Runs.run_cons]
      show Runs.run call (w.chunk data) (rest.map .chunk) = _
      rw [hchunk, ih (w := { w with sent := w.sent ++ [.chunk data] }) hw]
      simp

theorem run_chunks_of_not_streaming (sent : List (Data Num)) {w : SocketWriter Num}
    (hw : w.streaming = false) :
    Runs.run call w (sent.map .chunk) =
      { w with response := { w.response with body := w.response.body ++ sent } } := by
  induction sent generalizing w with
  | nil => simp
  | cons data rest ih =>
      have hchunk : w.chunk data =
          { w with response := { w.response with body := w.response.body ++ [data] } } :=
        if_neg (by simp [hw])
      rw [List.map_cons, Runs.run_cons]
      show Runs.run call (w.chunk data) (rest.map .chunk) = _
      rw [hchunk]
      refine Eq.trans (ih ?_) ?_
      · exact hw
      · simp

/-- What a client receives when the protocol is kept: the head of a stream and its chunks, or
one response with all of them in its body. -/
theorem written_of_proper (status : ℕ) (headers : HeaderMap) (sent : List (Data Num)) :
    written (.begin status headers :: (sent.map .chunk ++ [.close])) =
      if (⟨status, headers, []⟩ : HttpResponse Num).header (ascii "Content-Type") =
          ascii "text/event-stream" then
        .head ⟨status, headers.assign (ascii "Connection") (ascii "close"), []⟩ :: sent.map .chunk
      else [.response ⟨status, headers, sent⟩] := by
  rw [written, Runs.run_cons, Runs.run_append]
  show (close (Runs.run call (fresh.begin status headers) (sent.map .chunk))).sent = _
  split_ifs with hstream
  · have hbegin : (fresh : SocketWriter Num).begin status headers =
        ⟨⟨status, headers, []⟩, true,
          [.head ⟨status, headers.assign (ascii "Connection") (ascii "close"), []⟩]⟩ := by
      simp [begin, fresh, hstream]
    rw [hbegin, run_chunks_of_streaming sent rfl]
    rfl
  · have hbegin : (fresh : SocketWriter Num).begin status headers =
        ⟨⟨status, headers, []⟩, false, []⟩ := by
      simp [begin, fresh, hstream]
    rw [hbegin, run_chunks_of_not_streaming sent rfl]
    rfl

end SocketWriter

/-- A text that starts with a status line. -/
def Sent.hasStatusLine : Sent Num → Bool
  | .response _ => true
  | .head _ => true
  | .chunk _ => false

/-- The status lines that a client receives. -/
def statusLines (calls : List (WriterCall Num)) : ℕ :=
  (SocketWriter.written calls).countP Sent.hasStatusLine

theorem statusLines_of_proper {calls : List (WriterCall Num)} (hproper : Proper [] calls) :
    statusLines calls = 1 := by
  obtain ⟨status, headers, sent, rfl⟩ := hproper
  have hchunks : (sent.map Sent.chunk).countP Sent.hasStatusLine = 0 := by
    rw [List.countP_eq_zero]
    intro part hpart
    obtain ⟨data, -, rfl⟩ := List.mem_map.mp hpart
    exact Bool.false_ne_true
  rw [statusLines, List.nil_append, SocketWriter.written_of_proper]
  split_ifs
  · rw [List.countP_cons_of_pos rfl, hchunks]
  · rfl

/-! ## The text of a generation -/

/-- The pieces of a generation whose callback never throws. -/
def Generation.pieces : Generation σ → List Bytes
  | .returns _ => []
  | .throws _ _ => []
  | .piece text resume => text :: (resume none).pieces

/-- A generation that delivers the pieces, and ends in what its callback throws.  So does the
classic loop, which the exception leaves on its way up, and so does the scheduler, which
ends the request with it and has the caller throw it again. -/
def Generation.rethrowing (engine : σ) : List Bytes → Generation σ
  | [] => .returns engine
  | text :: rest => .piece text fun
    | none => rethrowing engine rest
    | some e => .throws e engine

namespace ApiHandler

variable (h : ApiHandler σ Num K) {s : HandlerState σ Num}

/-- The text of a generation that is not streamed. -/
def generationText (engine : σ) (prompt : Bytes) (gen : GenerationConfig K) : Bytes :=
  (h.engine.generateStream engine prompt gen).pieces.flatten

/-- Without a callback that throws, the pieces are put together. -/
theorem text_of_deliver {generation : Generation σ} {out last : GenerationOutcome}
    {after : HandlerState σ Num}
    (hrun : deliver (fun _ => pure ()) generation out s = (.ok last, after)) :
    last.text = out.text ++ generation.pieces.flatten := by
  induction generation generalizing out s with
  | returns engine =>
      cases hrun
      exact (List.append_nil _).symm
  | throws e engine => cases hrun
  | piece text resume ih =>
      have hlast := ih none hrun
      rw [hlast, Generation.pieces, List.flatten_cons]
      exact List.append_assoc ..

theorem text_of_runGeneration {prompt : Bytes} {gen : GenerationConfig K}
    {last : GenerationOutcome} {after : HandlerState σ Num}
    (hrun : h.runGeneration prompt gen (fun _ => pure ()) s = (.ok last, after)) :
    last.text = h.generationText s.engine prompt gen := by
  rw [runGeneration_eq] at hrun
  cases hcount : h.engine.countTokens s.engine prompt with
  | error e =>
      rw [hcount] at hrun
      cases hrun
  | ok promptTokens =>
      simp only [hcount] at hrun
      rcases hdeliver : deliver (fun _ => pure ()) (h.engine.generateStream s.engine prompt gen)
        ⟨[], 0, promptTokens, false⟩ s with ⟨result, ended⟩
      rw [hdeliver] at hrun
      cases result with
      | error e => cases hrun
      | ok out =>
          cases hrun
          exact text_of_deliver hdeliver

/-- A whole reply is printed if its text and the name of the model are UTF-8. -/
theorem printable_completionJson_iff (chat : Bool) (out : GenerationOutcome) :
    (h.completionJson chat out).Printable ↔ Utf8.Valid out.text ∧ Utf8.Valid h.cfg.modelId := by
  have hkeys : ∀ key ∈ [ascii "choices", ascii "finish_reason", ascii "length", ascii "stop",
      ascii "index", ascii "message", ascii "content", ascii "role", ascii "assistant",
      ascii "text", ascii "model", ascii "object", ascii "chat.completion",
      ascii "text_completion", ascii "usage", ascii "completion_tokens", ascii "prompt_tokens",
      ascii "total_tokens"], Utf8.Valid key := by
    simp only [List.forall_mem_cons, List.not_mem_nil, false_imp_iff, implies_true, and_true]
    and_intros <;> exact Json.valid_ofList (by decide)
  simp only [List.forall_mem_cons, List.not_mem_nil, false_imp_iff, implies_true, and_true] at hkeys
  unfold completionJson
  cases chat <;> cases out.hitMaxTokens <;> simp [hkeys]

/-! ## Replies -/

/-- The code throws, or the calls after it meet the condition. -/
def Ends (m : Handler σ Num Unit) (s : HandlerState σ Num)
    (post : List (WriterCall Num) → Prop) : Prop :=
  m.wp s (fun _ after => post after.calls) fun _ _ => True

variable {post : List (WriterCall Num) → Prop}

theorem ends_of_ok {m : Handler σ Num Unit} {after : HandlerState σ Num}
    (heq : m s = (.ok (), after)) : Ends m s post ↔ post after.calls := Code.wp_of_ok heq

theorem ends_of_error {m : Handler σ Num Unit} {e : Exception} {after : HandlerState σ Num}
    (heq : m s = (.error e, after)) : Ends m s post := (Code.wp_of_error heq).mpr trivial

theorem Ends.mono {m : Handler σ Num Unit} {weaker : List (WriterCall Num) → Prop}
    (hends : Ends m s post) (hpost : ∀ calls, post calls → weaker calls) : Ends m s weaker := by
  rcases hm : m s with ⟨result, after⟩
  cases result with
  | ok _ => exact (ends_of_ok hm).mpr (hpost _ ((ends_of_ok hm).mp hends))
  | error e => exact ends_of_error hm

theorem ends_tryCatch_of_ok {m : Handler σ Num Unit} {handler : Exception → Handler σ Num Unit}
    {after : HandlerState σ Num} (heq : m s = (.ok (), after)) :
    Ends (tryCatch m handler) s post ↔ post after.calls := by
  rw [Ends, Code.wp_tryCatch]
  exact Code.wp_of_ok heq

theorem ends_tryCatch_of_error {m : Handler σ Num Unit} {handler : Exception → Handler σ Num Unit}
    {e : Exception} {after : HandlerState σ Num} (heq : m s = (.error e, after)) :
    Ends (tryCatch m handler) s post ↔ Ends (handler e) after post := by
  rw [Ends, Code.wp_tryCatch]
  exact Code.wp_of_error heq

/-- `respond` calls the writer as it is meant to be called. -/
theorem ends_respond (status : ℕ) (body : Json Num) :
    Ends (h.respond status body) s (Proper s.calls) := by
  have heq := h.respond_eq (s := s) status body
  cases hdump : body.dumpError with
  | none =>
      rw [hdump] at heq
      exact (ends_of_ok heq).mpr ⟨status, _, [.dump body], rfl⟩
  | some e =>
      rw [hdump] at heq
      exact ends_of_error heq

/-- Behind a writer that has been begun, it does not. -/
theorem ends_respond_of_begun {before : List (WriterCall Num)} {first : ℕ} {headers : HeaderMap}
    {rest : List (WriterCall Num)} (hs : s.calls = before ++ .begin first headers :: rest)
    (status : ℕ) (body : Json Num) :
    Ends (h.respond status body) s fun calls => ¬ Proper before calls := by
  have heq := h.respond_eq (s := s) status body
  cases hdump : body.dumpError with
  | none =>
      rw [hdump] at heq
      refine (ends_of_ok heq).mpr fun hproper => ?_
      simp only [hs, List.append_assoc, List.cons_append] at hproper
      have hcount := hproper.countP_isBegin
      rw [List.countP_cons_of_pos rfl, List.countP_append, List.countP_cons_of_pos rfl] at hcount
      omega
  | some e =>
      rw [hdump] at heq
      exact ends_of_error heq

/-- What answers an exception is `respond`. -/
theorem exists_generationFailed_eq (e : Exception) :
    ∃ body, h.generationFailed e = h.respond 500 body := by
  cases e with
  | engineError message => exact ⟨_, rfl⟩
  | other message => exact ⟨_, rfl⟩

/-! ## Generation -/

/-- The stream ends without an exception; or the reply that is not streamed, if the
generation ends without one, can be printed. -/
def RunsThrough (engine : σ) (chat stream : Bool) (prompt : Bytes) (gen : GenerationConfig K) :
    Prop :=
  let error := h.generationError engine prompt gen (h.pieceError chat stream)
  if stream then error = none
  else error = none →
    Utf8.Valid (h.generationText engine prompt gen) ∧ Utf8.Valid h.cfg.modelId

/-- A stream is begun before the generation is run, and an exception begins it again. -/
theorem ends_streamReply (chat : Bool) (prompt : Bytes) (gen : GenerationConfig K) :
    Ends (tryCatch (h.streamReply chat prompt gen) h.generationFailed) s fun calls =>
      Proper s.calls calls ↔ h.RunsThrough s.engine chat true prompt gen := by
  obtain ⟨after, sent, hcases⟩ := h.streamReply_cases chat prompt gen s
  show Ends _ s fun calls => Proper s.calls calls ↔ h.generationError _ _ _ _ = none
  cases herror : h.generationError s.engine prompt gen (h.pieceError chat true) with
  | none =>
      rw [herror] at hcases
      obtain ⟨heq, hcalls⟩ := hcases
      exact (ends_tryCatch_of_ok heq).mpr (iff_of_true ⟨200, _, sent, hcalls⟩ rfl)
  | some e =>
      rw [herror] at hcases
      obtain ⟨heq, hcalls⟩ := hcases
      obtain ⟨body, hbody⟩ := h.exists_generationFailed_eq e
      rw [ends_tryCatch_of_error heq, hbody]
      refine (h.ends_respond_of_begun hcalls 500 body).mono fun calls hagain => ?_
      exact iff_of_false hagain nofun

/-- A reply that is not streamed is begun when the generation has ended. -/
theorem ends_wholeReply (chat : Bool) (prompt : Bytes) (gen : GenerationConfig K) :
    Ends (tryCatch (h.wholeReply chat prompt gen) h.generationFailed) s fun calls =>
      Proper s.calls calls ↔ h.RunsThrough s.engine chat false prompt gen := by
  obtain ⟨after, hcalls, hcases⟩ := h.wholeReply_cases chat prompt gen s
  show Ends _ s fun calls => Proper s.calls calls ↔ (h.generationError _ _ _ _ = none → _)
  cases herror : h.generationError s.engine prompt gen (h.pieceError chat false) with
  | some e =>
      -- Nothing has been written: the exception is answered with the only reply.
      rw [herror] at hcases
      obtain ⟨body, hbody⟩ := h.exists_generationFailed_eq e
      rw [ends_tryCatch_of_error hcases, hbody, ← hcalls]
      exact (h.ends_respond 500 body).mono fun calls hproper => iff_of_true hproper nofun
  | none =>
      rw [herror] at hcases
      obtain ⟨out, hrun, hreply⟩ := hcases
      have heq := h.respond_eq (s := after) 200 (h.completionJson chat out)
      rw [← hreply, hcalls] at heq
      rw [← h.text_of_runGeneration hrun, ← printable_completionJson_iff h chat,
        ← Json.dumpError_eq_none_iff]
      cases hdump : (h.completionJson chat out).dumpError with
      | none =>
          rw [hdump] at heq
          refine (ends_tryCatch_of_ok heq).mpr (iff_of_true ?_ fun _ => rfl)
          exact ⟨200, _, [.dump (h.completionJson chat out)], rfl⟩
      | some e =>
          -- `respond` had begun the writer when `dump` threw.
          rw [hdump] at heq
          obtain ⟨body, hbody⟩ := h.exists_generationFailed_eq e
          rw [ends_tryCatch_of_error heq, hbody]
          have hbegun : s.calls ++ [.begin 200 (h.baseHeaders (ascii "application/json"))] =
              s.calls ++ .begin 200 (h.baseHeaders (ascii "application/json")) :: [] := rfl
          refine (h.ends_respond_of_begun hbegun 500 body).mono fun calls hagain => ?_
          exact iff_of_false hagain fun hprinted => nomatch hprinted rfl

theorem ends_reply (chat stream : Bool) (prompt : Bytes) (gen : GenerationConfig K) :
    Ends (tryCatch (h.reply chat stream prompt gen) h.generationFailed) s fun calls =>
      Proper s.calls calls ↔ h.RunsThrough s.engine chat stream prompt gen := by
  cases stream with
  | true => exact h.ends_streamReply chat prompt gen
  | false => exact h.ends_wholeReply chat prompt gen

/-! ## Requests for a generation -/

theorem ends_convert {α : Type} {x : Except Exception α} {f : α → Handler σ Num Unit}
    (hf : ∀ a, x = .ok a → Ends (f a) s post) : Ends (Handler.convert x >>= f) s post := by
  cases x with
  | error e =>
      have hconvert : (Handler.convert (.error e) : Handler σ Num α) s = (.error e, s) := rfl
      exact ends_of_error (Code.bind_of_error hconvert f)
  | ok a => exact hf a rfl

theorem ends_ask {α : Type} {f : σ → Except Exception α} {g : α → Handler σ Num Unit}
    (hg : ∀ a, f s.engine = .ok a → Ends (g a) s post) :
    Ends (Handler.ask f >>= g) s post := by
  cases hask : f s.engine with
  | error e =>
      have hthrow : Handler.ask f s = (.error e, s) := by
        rw [Handler.ask, Code.ofExcept, hask]
      exact ends_of_error (Code.bind_of_error hthrow g)
  | ok a =>
      have hreturn : Handler.ask f s = (.ok a, s) := by
        rw [Handler.ask, Code.ofExcept, hask]
      rw [Ends, Code.wp, Code.bind_of_ok hreturn]
      exact hg a hask

/-- The slot is neither read nor written by what runs in it. -/
theorem ends_busyGuard {refused admitted : Handler σ Num Unit}
    (hrefused : h.cfg.maxConcurrentRequests ≤ s.activeGenerations → Ends refused s post)
    (hadmitted : ¬ h.cfg.maxConcurrentRequests ≤ s.activeGenerations →
      Ends admitted { s with activeGenerations := s.activeGenerations + 1 } post) :
    Ends (h.busyGuard refused admitted) s post := by
  unfold Ends Code.wp busyGuard
  by_cases hfull : h.cfg.maxConcurrentRequests ≤ s.activeGenerations
  · rw [if_pos hfull]
    exact hrefused hfull
  · rw [if_neg hfull]
    exact (Code.wp_cleanly _ _).mpr (hadmitted hfull)

section Generating

variable [Field K]

/-- There is no slot for the generation, or it runs through. -/
def GenerateKeeps (s : HandlerState σ Num) (chat : Bool) (body : Json Num) (prompt : Bytes) :
    Prop :=
  h.cfg.maxConcurrentRequests ≤ s.activeGenerations ∨
    ∀ gen stream, h.genConfigFrom body = .ok gen →
      body.value (ascii "stream") Json.getBool false = .ok stream →
        h.RunsThrough s.engine chat stream prompt gen

theorem ends_generate (chat : Bool) (body : Json Num) (prompt : Bytes) :
    Ends (h.generate chat body prompt) s fun calls =>
      Proper s.calls calls ↔ h.GenerateKeeps s chat body prompt := by
  unfold generate GenerateKeeps
  refine h.ends_busyGuard (fun hfull => ?_) fun hfree => ?_
  · exact (h.ends_respond 503 _).mono fun calls hproper => iff_of_true hproper (Or.inl hfull)
  · refine ends_convert fun gen hgen => ends_convert fun stream hstream => ?_
    refine (h.ends_reply chat stream prompt gen).mono fun calls hcalls => ?_
    refine hcalls.trans ⟨fun hthrough => Or.inr fun gen' stream' hgen' hstream' => ?_,
      fun hkeeps => ?_⟩
    · cases hgen.symm.trans hgen'
      cases hstream.symm.trans hstream'
      exact hthrough
    · exact (hkeeps.resolve_left hfree) gen stream hgen hstream

/-- The condition for a request to one of the completion endpoints. -/
def GenerationKeeps (s : HandlerState σ Num) (r : HttpRequest) (chat : Bool) : Prop :=
  ∀ body ∈ h.json.parse r.body,
    if chat then
      ∀ item items messages prompt, body.get? (ascii "messages") = some (.array (item :: items)) →
        chatMessages (item :: items) = .ok messages →
          h.engine.formatChat s.engine messages = .ok prompt → h.GenerateKeeps s chat body prompt
    else
      ∀ prompt, body.get? (ascii "prompt") = some (.string prompt) →
        h.GenerateKeeps s chat body prompt

theorem ends_handleGeneration (r : HttpRequest) (chat : Bool) :
    Ends (h.handleGeneration r chat) s fun calls =>
      Proper s.calls calls ↔ h.GenerationKeeps s r chat := by
  have hrefused : ∀ (status : ℕ) (body : Json Num), h.GenerationKeeps s r chat →
      Ends (h.respond status body) s fun calls =>
        Proper s.calls calls ↔ h.GenerationKeeps s r chat := by
    intro status body hkeeps
    exact (h.ends_respond status body).mono fun calls hproper => iff_of_true hproper hkeeps
  unfold handleGeneration
  split
  · rename_i hparse
    refine hrefused _ _ fun body hbody => ?_
    cases hparse.symm.trans hbody
  · rename_i body hparse
    have hkeeps_iff : h.GenerationKeeps s r chat ↔ if chat then
        ∀ item items messages prompt,
          body.get? (ascii "messages") = some (.array (item :: items)) →
            chatMessages (item :: items) = .ok messages →
              h.engine.formatChat s.engine messages = .ok prompt →
                h.GenerateKeeps s chat body prompt
        else ∀ prompt, body.get? (ascii "prompt") = some (.string prompt) →
          h.GenerateKeeps s chat body prompt := by
      simp only [GenerationKeeps, hparse, Option.mem_def, Option.some.injEq, forall_eq']
    cases chat with
    | true =>
        rw [if_pos rfl]
        split
        · rename_i item items hmessages
          refine ends_convert fun messages hconvert => ends_ask fun prompt hprompt => ?_
          refine (h.ends_generate true body prompt).mono fun calls hcalls => ?_
          refine hcalls.trans (Iff.trans ?_ hkeeps_iff.symm)
          refine ⟨fun hkeeps => ?_, fun hkeeps => ?_⟩
          · intro item' items' messages' prompt' hmessages' hconvert' hprompt'
            cases hmessages.symm.trans hmessages'
            cases hconvert.symm.trans hconvert'
            cases hprompt.symm.trans hprompt'
            exact hkeeps
          · exact hkeeps item items messages prompt hmessages hconvert hprompt
        · rename_i hother
          refine hrefused _ _ (hkeeps_iff.mpr ?_)
          intro item items messages prompt hmessages
          exact absurd hmessages (hother item items)
    | false =>
        rw [if_neg Bool.false_ne_true]
        split
        · rename_i prompt hprompt
          refine (h.ends_generate false body prompt).mono fun calls hcalls => ?_
          refine hcalls.trans (Iff.trans ?_ hkeeps_iff.symm)
          refine ⟨fun hkeeps prompt' hprompt' => ?_, fun hkeeps => hkeeps prompt hprompt⟩
          cases hprompt.symm.trans hprompt'
          exact hkeeps
        · rename_i hother
          refine hrefused _ _ (hkeeps_iff.mpr ?_)
          intro prompt hprompt
          exact absurd hprompt (hother prompt)

end Generating

/-! ## The other endpoints -/

/-- A call of the engine leaves the writer alone, and what follows it replies; what the call
throws is answered by the handler. -/
theorem ends_caught_call {α : Type} {f : σ → Except Exception α × σ}
    {g : α → Handler σ Num Unit} {handler : Exception → Handler σ Num Unit}
    (hg : ∀ a after, after.calls = s.calls → Ends (tryCatch (g a) handler) after post)
    (hhandler : ∀ e after, after.calls = s.calls → Ends (handler e) after post) :
    Ends (tryCatch (Handler.call f >>= g) handler) s post := by
  let called : HandlerState σ Num := { s with engine := (f s.engine).2 }
  cases hcall : (f s.engine).1 with
  | ok a =>
      have heq : Handler.call f s = (.ok a, called) := by rw [Handler.call, hcall]
      have hg := hg a called rfl
      rw [Ends, Code.wp_tryCatch] at hg ⊢
      rw [Code.wp_bind]
      exact (Code.wp_of_ok heq).mpr hg
  | error e =>
      have heq : Handler.call f s = (.error e, called) := by rw [Handler.call, hcall]
      exact (ends_tryCatch_of_error (Code.bind_of_error heq g)).mpr (hhandler e called rfl)

/-- What `dump` throws is none of the engine's exceptions. -/
theorem ends_sessionFailed_of_dump {body : Json Num} {e : Exception}
    (hdump : body.dumpError = some e) : Ends (h.sessionFailed e) s post := by
  obtain ⟨fault, -, rfl⟩ := Option.map_eq_some_iff.mp hdump
  exact ends_of_error rfl

theorem ends_session_respond (status : ℕ) (body : Json Num) :
    Ends (tryCatch (h.respond status body) h.sessionFailed) s (Proper s.calls) := by
  have heq := h.respond_eq (s := s) status body
  have hends := h.ends_respond (s := s) status body
  cases hdump : body.dumpError with
  | none =>
      rw [hdump] at heq
      exact (ends_tryCatch_of_ok heq).mpr ((ends_of_ok heq).mp hends)
  | some e =>
      rw [hdump] at heq
      exact (ends_tryCatch_of_error heq).mpr (h.ends_sessionFailed_of_dump hdump)

theorem ends_sessionFailed (e : Exception) : Ends (h.sessionFailed e) s (Proper s.calls) := by
  cases e with
  | engineError message => exact h.ends_respond 404 _
  | other message => exact ends_of_error rfl

theorem ends_session_call {α : Type} (f : σ → Except Exception α × σ) (body : α → Json Num) :
    Ends (tryCatch (Handler.call f >>= fun a => h.respond 200 (body a)) h.sessionFailed) s
      (Proper s.calls) := by
  refine ends_caught_call (fun a after hafter => ?_) fun e after hafter => ?_
  · rw [← hafter]
    exact h.ends_session_respond 200 (body a)
  · rw [← hafter]
    exact h.ends_sessionFailed e

theorem ends_handleSessions (r : HttpRequest) :
    Ends (h.handleSessions r) s (Proper s.calls) := by
  have hbad : Ends (tryCatch h.badMethod h.sessionFailed) s (Proper s.calls) :=
    h.ends_session_respond 405 _
  unfold handleSessions
  dsimp only
  split_ifs
  · exact h.ends_session_call h.engine.createSession fun id => .object [(ascii "id", .string id)]
  · exact hbad
  · exact h.ends_session_call _ _
  · exact h.ends_session_call _ _
  · exact h.ends_session_call _ _
  · exact hbad

theorem ends_handleWarm (r : HttpRequest) : Ends (h.handleWarm r) s (Proper s.calls) := by
  unfold handleWarm
  split
  · exact h.ends_respond 400 _
  · split
    · refine ends_caught_call (fun tokens after hafter => ?_) fun e after hafter => ?_
      · -- The reply is a number and a truth value, so nothing is thrown behind its `begin`.
        have hkeys : Utf8.Valid (ascii "tokens") ∧ Utf8.Valid (ascii "warmed") :=
          ⟨Json.valid_ofList (by decide), Json.valid_ofList (by decide)⟩
        have hprint : (Json.object [(ascii "tokens", .number (h.json.ofInt tokens)),
            (ascii "warmed", .boolean true)]).Printable := by simp [hkeys]
        have heq := h.respond_eq (s := after) 200 (.object
          [(ascii "tokens", .number (h.json.ofInt tokens)), (ascii "warmed", .boolean true)])
        rw [Json.dumpError_eq_none_iff.mpr hprint] at heq
        have hends := (ends_of_ok heq).mp (h.ends_respond 200 _)
        rw [← hafter]
        exact (ends_tryCatch_of_ok heq).mpr hends
      · rw [← hafter]
        cases e with
        | engineError message => exact h.ends_respond 400 _
        | other message => exact h.ends_respond 500 _
    · exact h.ends_respond 400 _

theorem ends_handleMetrics : Ends h.handleMetrics s (Proper s.calls) := by
  unfold handleMetrics
  refine ends_ask fun contextSize _ => ends_ask fun vocabSize _ => ends_ask fun speculative _ => ?_
  exact h.ends_respond 200 (h.metricsJson s contextSize vocabSize speculative)

theorem ends_preflight (headers : HeaderMap) :
    Ends (Handler.write (.begin 204 headers) >>= fun _ => Handler.write .close) s
      (Proper s.calls) := by
  refine (ends_of_ok rfl).mpr ⟨204, headers, [], ?_⟩
  show s.calls ++ [.begin 204 headers] ++ [.close] = _
  rw [List.append_assoc]
  rfl

/-! ## Every request -/

/-- The condition under which a request is handled with one `begin` and one `end`. -/
def KeepsProtocol [Field K] (s : HandlerState σ Num) (r : HttpRequest) : Prop :=
  match h.endpoint r with
  | .generation chat => h.GenerationKeeps s r chat
  | _ => True

theorem ends_route [Field K] (r : HttpRequest) :
    Ends (h.route r) s fun calls => Proper s.calls calls ↔ h.KeepsProtocol s r := by
  let counted : HandlerState σ Num := { s with totalRequests := s.totalRequests + 1 }
  have hreplies : ∀ {m : Handler σ Num Unit}, Ends m counted (Proper counted.calls) →
      Ends m counted fun calls => Proper s.calls calls ↔ True :=
    fun hends => hends.mono fun calls hproper => iff_of_true hproper trivial
  obtain ⟨m, hrouted, heq⟩ := h.route_eq r
  rw [heq, Ends, Code.wp_bind, Code.wp_update]
  show Ends m counted fun calls => Proper s.calls calls ↔ h.KeepsProtocol s r
  unfold KeepsProtocol
  generalize h.endpoint r = target at hrouted ⊢
  cases hrouted with
  | preflight headers => exact hreplies (ends_preflight headers)
  | health => exact hreplies (h.ends_respond 200 _)
  | unauthorized => exact hreplies (h.ends_respond 401 _)
  | metricsDisabled => exact hreplies (h.ends_respond 404 _)
  | badMethod => exact hreplies (h.ends_respond 405 _)
  | metrics => exact hreplies h.ends_handleMetrics
  | models => exact hreplies (h.ends_respond 200 _)
  | generation chat => exact h.ends_handleGeneration (s := counted) r chat
  | warm => exact hreplies (h.ends_handleWarm r)
  | sessions => exact hreplies (h.ends_handleSessions r)
  | unknown => exact hreplies (h.ends_respond 404 _)

/-- The fields of a request for a completion. -/
def completionFields (stream : Bool) : List (Bytes × Json ℤ) :=
  [(ascii "prompt", .string (ascii "hi")), (ascii "stream", .boolean stream)]

/-- A handler whose engine generates as given; of the bodies it is sent, `stream` asks for a
stream and every other does not. -/
def serving (generation : Generation Unit) : ApiHandler Unit ℤ ℚ :=
  { idle with
    json := { idle.json with
      parse := fun text => some (.object (completionFields (text = ascii "stream"))) }
    engine := { idle.engine with generateStream := fun _ _ _ => generation } }

/-- `POST /v1/completions`. -/
def completionRequest (stream : Bool) : HttpRequest :=
  ⟨ascii "POST", ascii "/v1/completions", [], if stream then ascii "stream" else []⟩

/-- A server that has handled nothing, and a new writer. -/
def started : HandlerState Unit ℤ := ⟨(), 0, 0, 0, []⟩

/-- A generation whose backend fails after one piece. -/
def failing : Generation Unit :=
  .piece (ascii "hel") fun _ => .throws (.engineError (ascii "decode failed")) ()

/-- Of the requests that are handled without an exception, exactly those that keep to the
protocol call a new writer as it is meant to be called, and show a client one status line. -/
theorem writer_protocol_iff [Field K] (r : HttpRequest) (s : HandlerState σ Num)
    (hfresh : s.calls = []) (hreturns : (h.handle r s).1 = .ok ()) :
    (Proper [] (h.handle r s).2.calls ∧ statusLines (h.handle r s).2.calls = 1) ↔
      h.KeepsProtocol s r := by
  have hends : Ends (h.route r) s fun calls => Proper s.calls calls ↔ h.KeepsProtocol s r :=
    h.ends_route r
  rcases hroute : h.route r s with ⟨result, after⟩
  have hhandle : h.handle r s = (result, after) := hroute
  rw [hhandle] at hreturns ⊢
  obtain rfl : result = .ok () := hreturns
  have hproper_iff := (ends_of_ok hroute).mp hends
  rw [hfresh] at hproper_iff
  refine Iff.trans ⟨fun hboth => hboth.1, fun hproper => ⟨hproper, ?_⟩⟩ hproper_iff
  exact statusLines_of_proper hproper

/-- A stream of two pieces keeps to it. -/
theorem writer_protocol_two_pieces :
    let h := serving (.rethrowing () [ascii "hel", ascii "lo"])
    (Proper [] (h.handle (completionRequest true) started).2.calls ∧
      statusLines (h.handle (completionRequest true) started).2.calls = 1) ∧
    (h.handle (completionRequest true) started).1 = .ok () := by
  intro h
  have hreturns : (h.handle (completionRequest true) started).1 = .ok () := by decide +kernel
  refine ⟨(h.writer_protocol_iff (completionRequest true) started rfl hreturns).mpr ?_, hreturns⟩
  have hendpoint : h.endpoint (completionRequest true) = .generation false := by decide +kernel
  rw [KeepsProtocol, hendpoint]
  intro body hbody
  cases hbody
  intro prompt hprompt
  refine Or.inr fun gen stream hgen hstream => ?_
  cases hstream
  show (Generation.rethrowing () [ascii "hel", ascii "lo"]).error (h.pieceError false true) = none
  decide +kernel

/-- The backend fails behind the first piece of a stream: the error reply begins the writer
again, and the client receives a second status line. -/
theorem fault_behind_a_piece :
    let h := serving failing
    (h.handle (completionRequest true) started).1 = .ok () ∧
      ¬ Proper [] (h.handle (completionRequest true) started).2.calls ∧
      statusLines (h.handle (completionRequest true) started).2.calls = 2 := by
  intro h
  refine ⟨by decide +kernel, fun hproper => ?_, by decide +kernel⟩
  have htwo : (h.handle (completionRequest true) started).2.calls.countP WriterCall.isBegin = 2 := by
    decide +kernel
  have hone : (h.handle (completionRequest true) started).2.calls.countP WriterCall.isBegin = 1 :=
    hproper.countP_isBegin
  rw [htwo] at hone
  exact absurd hone (by decide)

end ApiHandler

end Reame.Server
