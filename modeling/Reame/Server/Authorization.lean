import Reame.Server.Answers

/-!
# Authorization

With an API key a request must carry it as a bearer token.  The comparison folds every difference
into one byte, and the length into the same byte, so it is an equality (`authorized_iff`).

`route` looks at the token before it looks at anything but the health check and `OPTIONS`: a
request without it is answered from the configuration alone.  A request with it goes on to the
endpoints, and none of them answers 401: that is a property of the code of each, kept by all
constructs it is made of (`Spares`).
-/

namespace Reame.Server

open Reame.Core Throwing

variable {σ Num K : Type}

namespace ApiHandler

variable (h : ApiHandler σ Num K)

/-! ## The comparison -/

/-- A fold that only sets bits is zero if nothing sets one. -/
theorem foldl_or_eq_zero_iff (f : ℕ → UInt8) (indices : List ℕ) (diff : UInt8) :
    indices.foldl (fun diff i => diff ||| f i) diff = 0 ↔ diff = 0 ∧ ∀ i ∈ indices, f i = 0 := by
  induction indices generalizing diff with
  | nil => simp
  | cons i rest ih =>
      rw [List.foldl_cons, ih, UInt8.or_eq_zero_iff, List.forall_mem_cons, and_assoc]

/-- The comparison of `authorized` is an equality. -/
theorem authorized_iff (hkey : h.cfg.apiKey ≠ []) (r : HttpRequest) :
    h.authorized r = true ↔
      r.header (ascii "Authorization") = ascii "Bearer " ++ h.cfg.apiKey := by
  unfold authorized
  rw [if_neg hkey]
  dsimp only
  generalize r.header (ascii "Authorization") = got
  generalize ascii "Bearer " ++ h.cfg.apiKey = expected
  rw [decide_eq_true_iff, foldl_or_eq_zero_iff]
  by_cases hlength : got.length = expected.length
  · rw [if_neg (not_not.mpr hlength), and_iff_right rfl]
    constructor
    · intro hsame
      refine List.ext_getElem hlength fun i hi hi' => ?_
      have hi'' := hsame i (List.mem_range.mpr hi)
      rw [if_pos hi', List.getD_eq_getElem?_getD, List.getD_eq_getElem?_getD,
        List.getElem?_eq_getElem hi, List.getElem?_eq_getElem hi'] at hi''
      exact UInt8.xor_eq_zero_iff.mp hi''
    · rintro rfl i hi
      rw [if_pos (List.mem_range.mp hi)]
      exact UInt8.xor_self
  · rw [if_pos hlength]
    refine iff_of_false (fun hdiff => absurd hdiff.1 (by decide)) fun heq => hlength ?_
    rw [heq]

/-! ## Without the token -/

/-- What is answered without a look at the token. -/
def OpenToAll (r : HttpRequest) : Prop :=
  r.target = ascii "/health" ∨ (h.cfg.enableCors ∧ r.method = ascii "OPTIONS")

/-- The reply to a request without the token. -/
def guestReply (r : HttpRequest) : List (WriterCall Num) :=
  if h.cfg.enableCors ∧ r.method = ascii "OPTIONS" then
    [.begin 204 (h.baseHeaders (ascii "text/plain")), .close]
  else if r.target = ascii "/health" then
    [.begin 200 (h.baseHeaders (ascii "application/json")),
      .chunk (.dump (.object [(ascii "status", .string (ascii "ok"))])), .close]
  else
    [.begin 401 (h.baseHeaders (ascii "application/json")),
      .chunk (.dump (errorJson (ascii "missing or invalid API key")
        (ascii "invalid_request_error") (ascii "invalid_api_key"))), .close]

/-- Without the token a request is answered from the configuration. -/
theorem handle_unauthorized [Field K] {r : HttpRequest} (hrefused : h.authorized r = false)
    (s : HandlerState σ Num) :
    (h.handle r s).1 = .ok () ∧ (h.handle r s).2.engine = s.engine ∧
      (h.handle r s).2.calls = s.calls ++ h.guestReply r := by
  let counted : HandlerState σ Num := { s with totalRequests := s.totalRequests + 1 }
  have hcount : (Code.update fun s : HandlerState σ Num =>
      { s with totalRequests := s.totalRequests + 1 } : Handler σ Num Unit) s =
        (.ok (), counted) := rfl
  have hprinted : ∀ status (body : Json Num), body.Printable →
      (h.respond status body counted).1 = .ok () ∧
        (h.respond status body counted).2.engine = s.engine ∧
        (h.respond status body counted).2.calls = s.calls ++
          [.begin status (h.baseHeaders (ascii "application/json")), .chunk (.dump body), .close] := by
    intro status body hprint
    have heq := h.respond_eq (s := counted) status body
    rw [Json.dumpError_eq_none_iff.mpr hprint] at heq
    rw [heq]
    exact ⟨rfl, rfl, rfl⟩
  show (h.route r s).1 = .ok () ∧ (h.route r s).2.engine = s.engine ∧
    (h.route r s).2.calls = s.calls ++ h.guestReply r
  rw [route, Code.bind_of_ok hcount, guestReply]
  by_cases hpreflight : h.cfg.enableCors ∧ r.method = ascii "OPTIONS"
  · rw [if_pos hpreflight, if_pos hpreflight]
    exact ⟨rfl, rfl, List.append_assoc ..⟩
  rw [if_neg hpreflight, if_neg hpreflight]
  by_cases hhealth : r.target = ascii "/health"
  · rw [if_pos hhealth, if_pos hhealth]
    have hkeys : Utf8.Valid (ascii "status") ∧ Utf8.Valid (ascii "ok") :=
      ⟨Json.valid_ofList (by decide), Json.valid_ofList (by decide)⟩
    exact hprinted 200 _ (by simp [hkeys])
  · rw [if_neg hhealth, if_neg hhealth, if_pos (by simp [hrefused])]
    refine hprinted 401 _ ?_
    rw [printable_errorJson_iff] <;> exact Json.valid_ofList (by decide)

/-! ## With the token -/

/-- The calls since `before` do not answer 401. -/
def Spared (before calls : List (WriterCall Num)) : Prop :=
  ∃ reply, calls = before ++ reply ∧ ∀ headers, .begin 401 headers ∉ reply

/-- The code does not answer 401. -/
abbrev Spares {α : Type} (before : List (WriterCall Num)) (m : Handler σ Num α) : Prop :=
  Code.Keeps (fun s => Spared before s.calls) m

theorem Spared.append {before calls more : List (WriterCall Num)} (hcalls : Spared before calls)
    (hmore : ∀ headers, .begin 401 headers ∉ more) : Spared before (calls ++ more) := by
  obtain ⟨reply, rfl, hreply⟩ := hcalls
  refine ⟨reply ++ more, List.append_assoc .., fun headers hmem => ?_⟩
  exact (List.mem_append.mp hmem).elim (hreply headers) (hmore headers)

variable {before : List (WriterCall Num)}

theorem spares_write {call : WriterCall Num} (hcall : ∀ headers, .begin 401 headers ≠ call) :
    Spares (σ := σ) before (Handler.write call) :=
  Code.keeps_update fun _ hs => hs.append fun headers hmem =>
    hcall headers (List.mem_singleton.mp hmem)

theorem spares_call {α : Type} (f : σ → Except Exception α × σ) :
    Spares before (Handler.call f : Handler σ Num α) := fun _ hs => hs

theorem spares_dump (body : Json Num) : Spares (σ := σ) before (Handler.dump body) := by
  unfold Handler.dump
  split
  · exact Code.keeps_pure ()
  · exact Code.keeps_throw _

theorem spares_respond {status : ℕ} (hstatus : status ≠ 401) (body : Json Num) :
    Spares before (h.respond status body) := by
  intro s hs
  have heq := h.respond_eq (s := s) status body
  have hhead : ∀ headers (rest : List (WriterCall Num)),
      (∀ headers, .begin 401 headers ∉ rest) →
        ∀ other, (.begin 401 other : WriterCall Num) ∉ .begin status headers :: rest := by
    intro headers rest hrest other hmem
    rcases List.mem_cons.mp hmem with heq | hmem
    · cases heq
      exact hstatus rfl
    · exact hrest other hmem
  rcases hdump : body.dumpError with _ | e
  · rw [hdump] at heq
    rw [heq]
    exact hs.append (hhead _ _ (by simp))
  · rw [hdump] at heq
    rw [heq]
    exact hs.append (hhead _ _ (by simp))

theorem spares_respondError {status : ℕ} (hstatus : status ≠ 401) {message type code : Bytes} :
    Spares before (h.respondError status message type code) :=
  h.spares_respond hstatus _

/-- A callback that does not answer 401 does not either when it is called for every piece. -/
theorem spares_deliver {onPiece : Bytes → Handler σ Num Unit}
    (honPiece : ∀ text, Spares before (onPiece text)) (generation : Generation σ)
    (out : GenerationOutcome) : Spares before (deliver onPiece generation out) := by
  induction generation generalizing out with
  | returns engine => exact fun _ hs => hs
  | throws e engine => exact fun _ hs => hs
  | piece text resume ih =>
      intro s hs
      have hafter := honPiece text s hs
      rw [deliver]
      rcases hpiece : onPiece text s with ⟨result, after⟩
      rw [hpiece] at hafter
      cases result with
      | ok _ =>
          simp only [hpiece]
          exact ih none _ after hafter
      | error e =>
          simp only [hpiece]
          exact ih (some e) _ after hafter

theorem spares_runGeneration {onPiece : Bytes → Handler σ Num Unit}
    (honPiece : ∀ text, Spares before (onPiece text)) (prompt : Bytes) (gen : GenerationConfig K) :
    Spares before (h.runGeneration prompt gen onPiece) := by
  refine (Code.keeps_ofExcept _).bind fun promptTokens => .bind (.reading fun s => ?_) fun out =>
    Code.keeps_pure _
  exact spares_deliver honPiece _ _

theorem spares_reply (chat stream : Bool) (prompt : Bytes) (gen : GenerationConfig K) :
    Spares before (h.reply chat stream prompt gen) := by
  unfold reply
  split
  · refine (spares_write (by simp)).bind fun _ => .bind
      (h.spares_runGeneration (fun text => ?_) prompt gen) fun _ =>
        .bind (spares_write (by simp)) fun _ => spares_write (by simp)
    exact (spares_dump _).bind fun _ => spares_write (by simp)
  · exact (h.spares_runGeneration (fun _ => Code.keeps_pure ()) prompt gen).bind fun out =>
      h.spares_respond (by decide) _

theorem spares_generationFailed (e : Exception) : Spares before (h.generationFailed e) := by
  cases e with
  | engineError message => exact h.spares_respondError (by decide)
  | other message => exact h.spares_respondError (by decide)

theorem spares_busyGuard {refused admitted : Handler σ Num Unit} (hrefused : Spares before refused)
    (hadmitted : Spares before admitted) : Spares before (h.busyGuard refused admitted) := by
  intro s hs
  unfold busyGuard
  split
  · exact hrefused s hs
  · exact hadmitted.cleanly (fun _ hafter => hafter) _ hs

section Endpoints

variable [Field K]

theorem spares_generate (chat : Bool) (body : Json Num) (prompt : Bytes) :
    Spares before (h.generate chat body prompt) := by
  refine h.spares_busyGuard (h.spares_respondError (by decide)) ?_
  refine (Code.keeps_ofExcept _).bind fun gen => .bind (Code.keeps_ofExcept _) fun stream => ?_
  exact (h.spares_reply chat stream prompt gen).tryCatch h.spares_generationFailed

theorem spares_handleGeneration (r : HttpRequest) (chat : Bool) :
    Spares before (h.handleGeneration r chat) := by
  unfold handleGeneration
  split
  · exact h.spares_respondError (by decide)
  · split
    · split
      · refine (Code.keeps_ofExcept _).bind fun messages =>
          .bind (Code.keeps_ofExcept _) fun prompt => ?_
        exact h.spares_generate _ _ _
      · exact h.spares_respondError (by decide)
    · split
      · exact h.spares_generate _ _ _
      · exact h.spares_respondError (by decide)

omit [Field K]

theorem spares_handleWarm (r : HttpRequest) : Spares before (h.handleWarm r) := by
  unfold handleWarm
  split
  · exact h.spares_respondError (by decide)
  · split
    · refine .tryCatch ((spares_call _).bind fun tokens => h.spares_respond (by decide) _) fun e => ?_
      cases e with
      | engineError message => exact h.spares_respondError (by decide)
      | other message => exact h.spares_respondError (by decide)
    · exact h.spares_respondError (by decide)

theorem spares_onSession (f : σ → Bytes → Except Exception Unit × σ) (id : Bytes) :
    Spares before (h.onSession f id) :=
  (spares_call _).bind fun _ => h.spares_respond (by decide) _

theorem spares_handleSessions (r : HttpRequest) : Spares before (h.handleSessions r) := by
  unfold handleSessions
  refine .tryCatch ?_ fun e => ?_
  · have hbad : Spares before h.badMethod := h.spares_respondError (by decide)
    refine .ite (fun _ => ?_) fun _ => .ite (fun _ => hbad) fun _ => ?_
    · exact (spares_call _).bind fun id => h.spares_respond (by decide) _
    · refine .ite (fun _ => h.spares_onSession _ _) fun _ => ?_
      refine .ite (fun _ => h.spares_onSession _ _) fun _ => ?_
      exact .ite (fun _ => h.spares_onSession _ _) fun _ => hbad
  · cases e with
    | engineError message => exact h.spares_respondError (by decide)
    | other message => exact Code.keeps_throw _

theorem spares_handleMetrics : Spares before h.handleMetrics :=
  (Code.keeps_ofExcept _).bind fun _ => (Code.keeps_ofExcept _).bind fun _ =>
    (Code.keeps_ofExcept _).bind fun _ => .reading fun _ => h.spares_respond (by decide) _

variable [Field K]

/-- With the token no endpoint answers 401. -/
theorem spares_route {r : HttpRequest} (hauthorized : h.authorized r = true) :
    Spares before (h.route r) := by
  unfold route
  refine .bind (Code.keeps_update ?_) fun _ => ?_
  · exact fun _ hs => hs
  have hbad : Spares before h.badMethod := h.spares_respondError (by decide)
  refine .ite (fun _ => ?_) fun _ => .ite (fun _ => ?_) fun _ => .ite
    (fun hrefused => absurd hauthorized hrefused) fun _ => ?_
  · exact (spares_write (by simp)).bind fun _ => spares_write (by simp)
  · exact h.spares_respond (by decide) _
  refine .ite (fun _ => .ite (fun _ => ?_) fun _ => h.spares_handleMetrics) fun _ => ?_
  · exact h.spares_respondError (by decide)
  refine .ite (fun _ => .ite (fun _ => hbad) fun _ => ?_) fun _ => ?_
  · exact h.spares_respond (by decide) _
  refine .ite (fun _ => .ite (fun _ => hbad) fun _ => h.spares_handleGeneration r _) fun _ => ?_
  refine .ite (fun _ => .ite (fun _ => hbad) fun _ => h.spares_handleWarm r) fun _ => ?_
  refine .ite (fun _ => h.spares_handleSessions r) fun _ => ?_
  exact h.spares_respondError (by decide)

end Endpoints

/-! ## Who is answered what -/

/-- A request that does not carry the key is answered as any engine in any state would have it
answered, with 401 unless it is open to all; a request that does is never answered 401. -/
theorem unauthorized_learns_nothing [Field K] (hkey : h.cfg.apiKey ≠ []) (r : HttpRequest) :
    (r.header (ascii "Authorization") ≠ ascii "Bearer " ++ h.cfg.apiKey →
      ∃ reply : List (WriterCall Num),
        (∀ (τ : Type) (engine : Engine τ K) (s : HandlerState τ Num),
          let out := (⟨h.cfg, h.json, engine⟩ : ApiHandler τ Num K).handle r s
          out.1 = .ok () ∧ out.2.engine = s.engine ∧ out.2.calls = s.calls ++ reply) ∧
        (¬ h.OpenToAll r → reply =
          [.begin 401 (h.baseHeaders (ascii "application/json")),
            .chunk (.dump (errorJson (ascii "missing or invalid API key")
              (ascii "invalid_request_error") (ascii "invalid_api_key"))), .close]) ∧
        (h.OpenToAll r → ∀ headers, .begin 401 headers ∉ reply)) ∧
    (r.header (ascii "Authorization") = ascii "Bearer " ++ h.cfg.apiKey →
      ∀ s : HandlerState σ Num, ∃ reply, (h.handle r s).2.calls = s.calls ++ reply ∧
        ∀ headers, .begin 401 headers ∉ reply) := by
  constructor
  · intro hother
    have hrefused : h.authorized r = false := by
      rw [Bool.eq_false_iff, ne_eq, h.authorized_iff hkey]
      exact hother
    refine ⟨h.guestReply r, fun τ engine s => ?_, fun hclosed => ?_, fun hopen headers => ?_⟩
    · exact (⟨h.cfg, h.json, engine⟩ : ApiHandler τ Num K).handle_unauthorized hrefused s
    · obtain ⟨hhealth, hpreflight⟩ := not_or.mp hclosed
      rw [guestReply, if_neg hpreflight, if_neg hhealth]
    · rw [guestReply]
      by_cases hpreflight : h.cfg.enableCors ∧ r.method = ascii "OPTIONS"
      · rw [if_pos hpreflight]
        simp
      · rw [if_neg hpreflight, if_pos (hopen.resolve_right hpreflight)]
        simp
  · intro hbearer s
    exact h.spares_route ((h.authorized_iff hkey r).mpr hbearer) s
      ⟨[], (List.append_nil _).symm, fun _ => List.not_mem_nil⟩

/-- A handler with an API key. -/
def guarded : ApiHandler Unit ℤ ℚ :=
  { idle with cfg := ⟨ascii "s3cret", true, true, 10, ascii "reame"⟩ }

/-- `GET /metrics` with the given token. -/
def metricsRequest (token : Bytes) : HttpRequest :=
  ⟨ascii "GET", ascii "/metrics", [(ascii "authorization", ascii "Bearer " ++ token)], []⟩

theorem unauthorized_learns_nothing_short_token :
    (∃ reply headers, .begin 401 headers ∈ reply ∧ ∀ s : HandlerState Unit ℤ,
      (guarded.handle (metricsRequest (ascii "s3cre")) s).2.calls = s.calls ++ reply) ∧
    ∀ s : HandlerState Unit ℤ, ∃ reply,
      (guarded.handle (metricsRequest (ascii "s3cret")) s).2.calls = s.calls ++ reply ∧
        ∀ headers, .begin 401 headers ∉ reply := by
  constructor
  · obtain ⟨reply, hreply, hclosed, -⟩ := (guarded.unauthorized_learns_nothing (by decide)
      (metricsRequest (ascii "s3cre"))).1 (by decide)
    refine ⟨reply, guarded.baseHeaders (ascii "application/json"), ?_, fun s => ?_⟩
    · rw [hclosed (by unfold OpenToAll; decide)]
      exact List.mem_cons_self
    · exact (hreply Unit guarded.engine s).2.2
  · exact (guarded.unauthorized_learns_nothing (by decide) (metricsRequest (ascii "s3cret"))).2
      (by decide)

end ApiHandler

end Reame.Server
