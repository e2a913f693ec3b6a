import Reame.Server.ResponseText

/-!
# What a client reads of a reply

The handler begins the writer with three sets of headers only, and all of them can be told
apart in a text (`allows_plain`).  So for every request that is handled to its end, and that
keeps to the protocol of the writer, a client that reads to the end of the connection has the
status, the headers and the whole body that the handler has given to the writer, streamed or
not (`client_reads_reply`).

That the handler makes no other calls is one pass over its code (`writes_route`), for any
property of calls that those calls have (`Allows`).
-/

namespace Reame.Server

open Reame.Core Throwing

variable {σ Num K : Type}

namespace ApiHandler

variable (h : ApiHandler σ Num K)

/-- A property that all calls of the writer have which the handler makes. -/
structure Allows (P : WriterCall Num → Prop) : Prop where
  json : ∀ status, P (.begin status (h.baseHeaders (ascii "application/json")))
  preflight : P (.begin 204 (h.baseHeaders (ascii "text/plain")))
  stream : P (.begin 200 ((ascii "Cache-Control", ascii "no-cache") ::
    h.baseHeaders (ascii "text/event-stream")))
  chunk : ∀ data, P (.chunk data)
  close : P .close

/-- The code only makes calls of the writer that have the property. -/
abbrev Writes {α : Type} (P : WriterCall Num → Prop) (m : Handler σ Num α) : Prop :=
  Code.Keeps (fun s => ∀ call ∈ s.calls, P call) m

variable {h} {P : WriterCall Num → Prop}

theorem writes_write {call : WriterCall Num} (hcall : P call) :
    Writes (σ := σ) P (Handler.write call) :=
  Code.keeps_update fun s hs other hother => by
    rcases List.mem_append.mp hother with hbefore | hnew
    · exact hs other hbefore
    · rw [List.mem_singleton.mp hnew]
      exact hcall

theorem writes_call {α : Type} (f : σ → Except Exception α × σ) :
    Writes P (Handler.call f : Handler σ Num α) := fun _ hs => hs

theorem writes_dump (body : Json Num) : Writes (σ := σ) P (Handler.dump body) := by
  unfold Handler.dump
  split
  · exact Code.keeps_pure ()
  · exact Code.keeps_throw _

variable (hP : h.Allows P)

include hP

theorem writes_respond (status : ℕ) (body : Json Num) : Writes P (h.respond status body) := by
  have hsend : Writes P (do
      Handler.write (.begin status (h.baseHeaders (ascii "application/json")))
      Handler.dump body
      Handler.write (.chunk (.dump body))
      Handler.write .close : Handler σ Num Unit) :=
    (writes_write (hP.json status)).bind fun _ => (writes_dump body).bind fun _ =>
      (writes_write (hP.chunk _)).bind fun _ => writes_write hP.close
  have hcount : Writes P
      (Code.update fun s : HandlerState σ Num => { s with errors := s.errors + 1 }) :=
    Code.keeps_update fun _ hs => hs
  unfold respond
  split
  · exact hcount.bind fun _ => hsend
  · exact hsend

theorem writes_respondError (status : ℕ) (message type code : Bytes) :
    Writes P (h.respondError status message type code) := writes_respond hP status _

omit hP

/-- A callback that is called for every piece. -/
theorem writes_deliver {onPiece : Bytes → Handler σ Num Unit}
    (honPiece : ∀ text, Writes P (onPiece text)) (generation : Generation σ)
    (out : GenerationOutcome) : Writes P (deliver onPiece generation out) := by
  induction generation generalizing out with
  | returns engine => exact fun _ hs => hs
  | throws e engine => exact fun _ hs => hs
  | piece text resume ih =>
      intro s hs
      have hafter := honPiece text s hs
      rw [deliver]
      rcases hpiece : onPiece text s with ⟨result, after⟩
      rw [hpiece] at hafter
      cases result with
      | ok _ =>
          simp only [hpiece]
          exact ih none _ after hafter
      | error e =>
          simp only [hpiece]
          exact ih (some e) _ after hafter

theorem writes_runGeneration {onPiece : Bytes → Handler σ Num Unit}
    (honPiece : ∀ text, Writes P (onPiece text)) (prompt : Bytes) (gen : GenerationConfig K) :
    Writes P (h.runGeneration prompt gen onPiece) := by
  refine (Code.keeps_ofExcept _).bind fun promptTokens => .bind (.reading fun s => ?_) fun out =>
    Code.keeps_pure _
  exact writes_deliver honPiece _ _

include hP

theorem writes_reply (chat stream : Bool) (prompt : Bytes) (gen : GenerationConfig K) :
    Writes P (h.reply chat stream prompt gen) := by
  have hemit : ∀ text, Writes P (h.emit chat text) := fun text =>
    (writes_dump _).bind fun _ => writes_write (hP.chunk _)
  unfold reply
  split
  · exact (writes_write hP.stream).bind fun _ =>
      (writes_runGeneration hemit prompt gen).bind fun _ =>
        (writes_write (hP.chunk _)).bind fun _ => writes_write hP.close
  · exact (writes_runGeneration (fun _ => Code.keeps_pure ()) prompt gen).bind fun out =>
      writes_respond hP 200 _

theorem writes_generationFailed (e : Exception) : Writes P (h.generationFailed e) := by
  cases e with
  | engineError message => exact writes_respondError hP 500 _ _ _
  | other message => exact writes_respondError hP 500 _ _ _

theorem writes_handleWarm (r : HttpRequest) : Writes P (h.handleWarm r) := by
  unfold handleWarm
  split
  · exact writes_respondError hP 400 _ _ _
  split
  · refine .tryCatch ((writes_call _).bind fun tokens => writes_respond hP 200 _) fun e => ?_
    cases e with
    | engineError message => exact writes_respondError hP 400 _ _ _
    | other message => exact writes_respondError hP 500 _ _ _
  · exact writes_respondError hP 400 _ _ _

theorem writes_onSession (f : σ → Bytes → Except Exception Unit × σ) (id : Bytes) :
    Writes P (h.onSession f id) := (writes_call _).bind fun _ => writes_respond hP 200 _

theorem writes_handleSessions (r : HttpRequest) : Writes P (h.handleSessions r) := by
  have hbadMethod : Writes P h.badMethod := writes_respondError hP 405 _ _ _
  refine .tryCatch ?_ fun e => ?_
  · refine .ite (fun _ => (writes_call _).bind fun _ => writes_respond hP 200 _) fun _ => ?_
    refine .ite (fun _ => hbadMethod) fun _ => ?_
    refine .ite (fun _ => writes_onSession hP _ _) fun _ => ?_
    refine .ite (fun _ => writes_onSession hP _ _) fun _ => ?_
    exact .ite (fun _ => writes_onSession hP _ _) fun _ => hbadMethod
  · cases e with
    | engineError message => exact writes_respondError hP 404 _ _ _
    | other message => exact Code.keeps_throw _

theorem writes_handleMetrics : Writes P h.handleMetrics :=
  (Code.keeps_ofExcept _).bind fun _ => .bind (Code.keeps_ofExcept _) fun _ =>
    .bind (Code.keeps_ofExcept _) fun _ => .reading fun _ => writes_respond hP 200 _

variable [Field K]

theorem writes_generate (chat : Bool) (body : Json Num) (prompt : Bytes) :
    Writes P (h.generate chat body prompt) := by
  have hadmitted : Writes P (do
      let gen ← Handler.convert (h.genConfigFrom body)
      let stream ← Handler.convert (body.value (ascii "stream") Json.getBool false)
      tryCatch (h.reply chat stream prompt gen) h.generationFailed) :=
    (Code.keeps_ofExcept _).bind fun gen => .bind (Code.keeps_ofExcept _) fun stream =>
      (writes_reply hP chat stream prompt gen).tryCatch (writes_generationFailed hP)
  intro s hs
  unfold generate busyGuard
  split
  · exact writes_respondError hP 503 _ _ _ s hs
  · exact hadmitted.cleanly (fun _ hafter => hafter) _ hs

theorem writes_handleGeneration (r : HttpRequest) (chat : Bool) :
    Writes P (h.handleGeneration r chat) := by
  unfold handleGeneration
  split
  · exact writes_respondError hP 400 _ _ _
  split
  · split
    · exact (Code.keeps_ofExcept _).bind fun messages => .bind (Code.keeps_ofExcept _) fun prompt =>
        writes_generate hP _ _ _
    · exact writes_respondError hP 400 _ _ _
  · split
    · exact writes_generate hP _ _ _
    · exact writes_respondError hP 400 _ _ _

/-- The handler makes no other calls of the writer. -/
theorem writes_route (r : HttpRequest) : Writes P (h.route r) := by
  have hbadMethod : Writes P h.badMethod := writes_respondError hP 405 _ _ _
  unfold route
  refine .bind (Code.keeps_update ?_) fun _ => ?_
  · exact fun _ hs => hs
  refine .ite (fun _ => (writes_write hP.preflight).bind fun _ => writes_write hP.close) fun _ => ?_
  refine .ite (fun _ => writes_respond hP 200 _) fun _ => ?_
  refine .ite (fun _ => writes_respondError hP 401 _ _ _) fun _ => ?_
  refine .ite (fun _ => .ite (fun _ => writes_respondError hP 404 _ _ _)
    fun _ => writes_handleMetrics hP) fun _ => ?_
  refine .ite (fun _ => .ite (fun _ => hbadMethod) fun _ => writes_respond hP 200 _) fun _ => ?_
  refine .ite (fun _ => .ite (fun _ => hbadMethod) fun _ => writes_handleGeneration hP r _)
    fun _ => ?_
  refine .ite (fun _ => .ite (fun _ => hbadMethod) fun _ => writes_handleWarm hP r) fun _ => ?_
  exact .ite (fun _ => writes_handleSessions hP r) fun _ => writes_respondError hP 404 _ _ _

omit hP

/-- The headers of a `begin` can be told apart in a text. -/
def PlainCall : WriterCall Num → Prop
  | .begin _ headers => Plain headers
  | _ => True

omit [Field K] in
theorem allows_plain (h : ApiHandler σ Num K) : h.Allows PlainCall where
  json _ := by
    show Plain (h.baseHeaders _)
    unfold baseHeaders
    cases h.cfg.enableCors <;> decide
  preflight := by
    show Plain (h.baseHeaders _)
    unfold baseHeaders
    cases h.cfg.enableCors <;> decide
  stream := by
    show Plain (_ :: h.baseHeaders _)
    unfold baseHeaders
    cases h.cfg.enableCors <;> decide
  chunk _ := trivial
  close := trivial

/-- A request that is handled to its end, and that keeps to the protocol: what a client reads
is the status, the headers and the body that the writer has been given.  The length of a body
that is not streamed has to fit into 64 bits. -/
theorem client_reads_reply (h : ApiHandler σ Num K) (dump : Json Num → Bytes) (r : HttpRequest)
    (s : HandlerState σ Num) (hfresh : s.calls = []) (hreturns : (h.handle r s).1 = .ok ())
    (hkeeps : h.KeepsProtocol s r) :
    ∃ status headers, ∃ sent : List (Data Num),
      (h.handle r s).2.calls = .begin status headers :: (sent.map .chunk ++ [.close]) ∧
      (IsStream headers ∨ (bodyText dump sent).length < 2 ^ 64 →
        readResponse (wireText dump (SocketWriter.written (h.handle r s).2.calls)) =
          some (clientView dump status headers sent)) := by
  have hends : Ends (h.route r) s fun calls => Proper s.calls calls ↔ h.KeepsProtocol s r :=
    h.ends_route r
  have hplain : ∀ call ∈ (h.route r s).2.calls, PlainCall call := by
    refine writes_route (allows_plain h) r s fun call hcall => ?_
    rw [hfresh] at hcall
    exact absurd hcall List.not_mem_nil
  rcases hroute : h.route r s with ⟨result, after⟩
  rw [hroute] at hplain
  have hhandle : h.handle r s = (result, after) := hroute
  rw [hhandle] at hreturns ⊢
  obtain rfl : result = .ok () := hreturns
  obtain ⟨status, headers, sent, hcalls⟩ := ((ends_of_ok hroute).mp hends).mpr hkeeps
  rw [hfresh, List.nil_append] at hcalls
  refine ⟨status, headers, sent, hcalls, fun hlength => ?_⟩
  have hheaders : Plain headers :=
    hplain (.begin status headers) (by rw [hcalls]; exact List.mem_cons_self ..)
  show readResponse (wireText dump (SocketWriter.written after.calls)) = _
  rw [hcalls]
  exact client_reads dump status hheaders hlength

/-- A stream of two pieces, as a client reads it; a printed value is its own text here. -/
theorem client_reads_reply_two_pieces :
    let h := serving (.rethrowing () [ascii "hel", ascii "lo"])
    ∃ status headers, ∃ sent : List (Data ℤ),
      (h.handle (completionRequest true) started).2.calls =
        .begin status headers :: (sent.map .chunk ++ [.close]) ∧
      readResponse (wireText (fun _ => ascii "{}")
        (SocketWriter.written (h.handle (completionRequest true) started).2.calls)) =
          some (clientView (fun _ => ascii "{}") status headers sent) := by
  intro h
  have hreturns : (h.handle (completionRequest true) started).1 = .ok () := by decide +kernel
  have hkeeps : h.KeepsProtocol started (completionRequest true) := by
    have hendpoint : h.endpoint (completionRequest true) = .generation false := by decide +kernel
    rw [KeepsProtocol, hendpoint]
    intro body hbody
    cases hbody
    intro prompt hprompt
    refine Or.inr fun gen stream hgen hstream => ?_
    cases hstream
    show (Generation.rethrowing () [ascii "hel", ascii "lo"]).error (h.pieceError false true) = none
    decide +kernel
  obtain ⟨status, headers, sent, hcalls, hreads⟩ :=
    client_reads_reply h (fun _ => ascii "{}") (completionRequest true) started rfl hreturns hkeeps
  have hstream : IsStream headers := by
    -- one response would be written at once
    have hlength : (SocketWriter.written
        (h.handle (completionRequest true) started).2.calls).length ≠ 1 := by decide +kernel
    rw [hcalls, SocketWriter.written_of_proper] at hlength
    split_ifs at hlength with hstream
    · exact hstream
    · exact absurd rfl hlength
  exact ⟨status, headers, sent, hcalls, hreads (.inl hstream)⟩

end ApiHandler

end Reame.Server
