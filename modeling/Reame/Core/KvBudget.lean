import Reame.Core.Serving

/-!
# The KV budget

All sequences of a scheduler share `n_ctx` cells.  Admission compares the histories of
the moment with that budget, but every admitted request grows by one token per step
until it alone reaches `n_ctx`, so the batch can outgrow the cells that are there.

`budget_kept_iff` says for which configurations this is impossible: with a single slot,
where the request is cut at `n_ctx`, and with at most two cells, where nothing survives
its first batch.  In every other configuration two requests overrun the budget in their
second batch.  Within a run, the budget is kept as long as the active requests have room
for their full length, `footprint`, whenever a batch is decoded.
-/

namespace Reame.Core.Scheduler

variable {K : Type*} [Field K] [LinearOrder K] {scheduler : Scheduler K}

/-- The KV positions of the active requests once their slices are decoded. -/
def held (s : SchedulerState K) : ℕ :=
  (s.active.map fun r => r.nPast + (sliceOf r).tokens.length).sum

/-- The KV positions a batch of slices needs. -/
def demand (slices : List SeqSlice) : ℕ :=
  (slices.map fun slice => slice.posStart + slice.tokens.length).sum

/-- `decode_seqs` fails only when the cells do not suffice. -/
def RefusesOnlyOver (scheduler : Scheduler K) : Prop :=
  ∀ kv slices, scheduler.backend.refuses kv slices ≠ none → scheduler.nCtx < demand slices

/-- No request has ended with an error other than its own callback's. -/
def NoBackendError (s : SchedulerState K) : Prop :=
  ∀ record ∈ s.done, record.2.error = none ∨ record.2.error = some .callback

/-- The budget is kept in every batch of every run, and no batch fails for lack of
cells. -/
def KeepsBudget (scheduler : Scheduler K) : Prop :=
  (∀ events, held (scheduler.admitPending (scheduler.run scheduler.initial events)) ≤ scheduler.nCtx) ∧
    (RefusesOnlyOver scheduler →
      ∀ events, NoBackendError (scheduler.run scheduler.initial events))

/-! ## What a batch needs -/

theorem held_eq {s : SchedulerState K} (hcoherent : Coherent scheduler s) :
    held s = (s.active.map fun r => r.history.length).sum := by
  unfold held
  congr 1
  exact List.map_congr_left fun r hr => (hcoherent.seated r hr).slice.2.2

theorem demand_eq {s : SchedulerState K} (hcoherent : Coherent scheduler s) :
    demand (s.active.map sliceOf) = held s := by
  unfold demand held
  rw [List.map_map]
  congr 1
  refine List.map_congr_left fun r hr => ?_
  rw [Function.comp_apply]
  cases hcold : r.needsPrefill with
  | true => simp [sliceOf, hcold, ((hcoherent.seated r hr).cold hcold).1]
  | false => simp [sliceOf, hcold]

/-- There are no more active requests than slots. -/
theorem active_length_le {s : SchedulerState K} (hcoherent : Coherent scheduler s) :
    s.active.length ≤ (max scheduler.nParallel 1).toNat := by
  have hsub : s.active.map Request.seqId ⊆
      (List.range s.slotUsed.length).map (Nat.cast : ℕ → ℤ) := by
    intro seq hseq
    obtain ⟨r, hr, rfl⟩ := List.mem_map.mp hseq
    obtain ⟨k, hk, hused⟩ := (hcoherent.seated r hr).slot
    exact List.mem_map.mpr ⟨k, List.mem_range.mpr (List.getElem?_eq_some_iff.mp hused).1, hk.symm⟩
  have hle := (hcoherent.distinct.subperm hsub).length_le
  rw [List.length_map, List.length_map, List.length_range, hcoherent.slots] at hle
  exact hle

/-- One slot: the request alone fits. -/
theorem held_le_of_single {s : SchedulerState K} (hcoherent : Coherent scheduler s)
    (hparallel : scheduler.nParallel ≤ 1) : held s ≤ scheduler.nCtx := by
  have hlength := active_length_le hcoherent
  rw [max_eq_right hparallel] at hlength
  rw [held_eq hcoherent]
  rcases hactive : s.active with - | ⟨r, - | ⟨r', rest⟩⟩
  · simp
  · simpa using (hcoherent.seated r (by simp [hactive])).fits
  · simp [hactive] at hlength

/-! ## Errors come from callbacks -/

theorem advance_error {d : Dialogue K} {outcome : Outcome}
    (hadvance : scheduler.advance d = .inr outcome) :
    outcome.error = none ∨ outcome.error = some .callback := by
  obtain ⟨next, sampler, hsample⟩ := sample_ok scheduler.lib d.sampler
    (scheduler.backend.logits_ne_nil d.history) d.history
  simp only [advance, hsample] at hadvance
  split at hadvance
  · cases hadvance
    exact .inl rfl
  · split at hadvance
    · cases hadvance
      exact .inr rfl
    · cases hadvance
      exact .inl rfl
    · split at hadvance
      · cases hadvance
        exact .inl rfl
      · cases hadvance

/-- A run whose batches stay within the budget has no backend errors. -/
theorem noBackendError_run (honly : RefusesOnlyOver scheduler) {events : List (Event K)}
    (hbudget : ∀ past, past <+: events →
      held (scheduler.admitPending (scheduler.run scheduler.initial past)) ≤ scheduler.nCtx) :
    NoBackendError (scheduler.run scheduler.initial events) := by
  induction events using List.reverseRecOn with
  | nil =>
      intro record hrecord
      cases hrecord
  | append_singleton past event ih =>
      have hpast := ih fun earlier hearlier =>
        hbudget earlier (hearlier.trans (List.prefix_append _ _))
      have hcoherent := coherent_run (coherent_initial scheduler) past
      have hrun : scheduler.run scheduler.initial (past ++ [event]) =
          scheduler.apply (scheduler.run scheduler.initial past) event := by
        simp [run]
      rw [hrun]
      cases event with
      | submit prompt gen onToken =>
          rcases submit_cases scheduler (scheduler.run scheduler.initial past) prompt
            gen onToken with ⟨fault, hsubmit⟩ | ⟨callback, s', -, hsubmit, hservice, -⟩
          · rw [apply, hsubmit]
            exact hpast
          · rw [apply, hsubmit]
            intro record hrecord
            have hdone : s'.done = (scheduler.run scheduler.initial past).done :=
              congrArg Service.done hservice
            exact hpast record (hdone ▸ hrecord)
      | step =>
          have hadmitted := (admit_spec hcoherent).1
          have hok : scheduler.backend.refuses
              (scheduler.admitPending (scheduler.run scheduler.initial past)).kv
              ((scheduler.admitPending (scheduler.run scheduler.initial past)).active.map sliceOf) =
                none := by
            by_contra hrefused
            have hover := honly _ _ hrefused
            rw [demand_eq hadmitted] at hover
            exact absurd (hbudget past (List.prefix_append _ _)) (not_le.mpr hover)
          intro record hrecord
          have hdone := congrArg Service.done (service_step hcoherent hok)
          change (scheduler.step (scheduler.run scheduler.initial past)).1.done = _ at hdone
          rw [apply, hdone] at hrecord
          rcases List.mem_append.mp hrecord with hrecord | hrecord
          · obtain ⟨job, -, hadvance, -⟩ := Service.record_of_mem_leaves (List.mem_reverse.mp hrecord)
            exact advance_error hadvance
          · exact hpast record hrecord

theorem keepsBudget_of_held
    (hheld : ∀ events, held (scheduler.admitPending (scheduler.run scheduler.initial events)) ≤
      scheduler.nCtx) : KeepsBudget scheduler :=
  ⟨hheld, fun honly _ => noBackendError_run honly fun past _ => hheld past⟩

/-! ## At most two cells -/

/-- Admission on its own respects the budget, as long as the sums do not wrap. -/
theorem admitFrom_sum_le (hsmall : 2 * scheduler.nCtx < 2 ^ 32) (pending : List (Request K))
    (s : SchedulerState K) (hwaiting : ∀ r ∈ pending, r.history.length ≤ scheduler.nCtx)
    (hsum : (s.active.map fun r => r.history.length).sum ≤ scheduler.nCtx) :
    ((scheduler.admitFrom pending s).active.map fun r => r.history.length).sum ≤
      scheduler.nCtx := by
  induction pending generalizing s with
  | nil => exact hsum
  | cons r rest ih =>
      have hneed := hwaiting r (List.mem_cons_self ..)
      have hgo : ∀ donor : Option (Request K),
          ¬ scheduler.nCtx < (cellsUsed s.active + r.history.length % 2 ^ 32) % 2 ^ 32 →
          ((scheduler.admitFrom rest (activate s donor r)).active.map
            fun r => r.history.length).sum ≤ scheduler.nCtx := by
        intro donor hfits
        refine ih _ (fun r' hr' => hwaiting r' (List.mem_cons_of_mem _ hr')) ?_
        rw [map_activate (f := fun r => r.history.length) fun _ _ _ _ => rfl, List.sum_append,
          List.sum_singleton]
        unfold cellsUsed at hfits
        omega
      unfold admitFrom
      split
      · exact hsum
      · rename_i hadmitted
        rw [not_or] at hadmitted
        split
        · split
          · exact hsum
          · exact hgo _ hadmitted.2
        · exact hgo _ hadmitted.2

/-- With at most two cells no request survives its first batch. -/
theorem active_eq_nil_of_tiny (htiny : scheduler.nCtx ≤ 2) (events : List (Event K)) :
    (scheduler.run scheduler.initial events).active = [] := by
  induction events using List.reverseRecOn with
  | nil => rfl
  | append_singleton past event ih =>
      have hcoherent := coherent_run (coherent_initial scheduler) past
      have hrun : scheduler.run scheduler.initial (past ++ [event]) =
          scheduler.apply (scheduler.run scheduler.initial past) event := by
        simp [run]
      rw [hrun]
      cases event with
      | submit prompt gen onToken =>
          rcases submit_cases scheduler (scheduler.run scheduler.initial past) prompt
            gen onToken with ⟨fault, hsubmit⟩ | ⟨callback, s', -, hsubmit, -, -, rfl⟩
          · rw [apply, hsubmit]
            exact ih
          · rw [apply, hsubmit]
            exact ih
      | step =>
          have hadmitted := (admit_spec hcoherent).1
          rw [apply, step]
          dsimp only
          split
          · assumption
          · cases hrefused : scheduler.backend.refuses _ _ with
            | some fault => exact (serve_refused hadmitted hrefused).2.1
            | none =>
                rw [List.eq_nil_iff_forall_not_mem]
                intro after hafter
                -- A survivor would have at least two tokens, and fewer than `n_ctx`.
                have hlogits := (decodeSlices_active hadmitted).1
                simp only [serve, SeqBackend.decodeSeqs, hrefused, hlogits, settle_eq] at hafter
                obtain ⟨r, hr, hstay⟩ := List.mem_filterMap.mp hafter
                rcases staying_or_leaving scheduler r with
                  ⟨r', next, hstay', -, hadvance, -⟩ | ⟨r', error, hstay', -⟩
                · obtain ⟨_, -, -, hroom, -⟩ := advance_inl hadvance
                  have hprompt := (hadmitted.seated r hr).prompt
                  simp only [Request.dialogue] at hroom
                  omega
                · rw [hstay'] at hstay
                  cases hstay

theorem held_le_of_tiny (htiny : scheduler.nCtx ≤ 2) (events : List (Event K)) :
    held (scheduler.admitPending (scheduler.run scheduler.initial events)) ≤ scheduler.nCtx := by
  have hcoherent := coherent_run (coherent_initial scheduler) events
  rw [held_eq (admit_spec hcoherent).1]
  refine admitFrom_sum_le (by omega) _ _ (fun r hr => (hcoherent.waiting r hr).fits) ?_
  rw [active_eq_nil_of_tiny htiny]
  simp

/-! ## Room for the full length -/

/-- The longest history a request can bring to a batch: its prompt and all but the last
of its tokens, and never more than the context. -/
def footprint (scheduler : Scheduler K) (r : Request K) : ℕ :=
  min scheduler.nCtx (r.promptLen + ((max r.gen.maxTokens 1).toNat - 1))

/-- The active requests have room for their full length. -/
def Reserved (scheduler : Scheduler K) (s : SchedulerState K) : Prop :=
  (s.active.map scheduler.footprint).sum ≤ scheduler.nCtx

/-- The tokens of a request are its prompt and what it has emitted, which is less than
it may. -/
structure Paced (r : Request K) : Prop where
  grown : r.history.length = r.promptLen + r.emitted
  pace : r.emitted = 0 ∨ (r.emitted : ℤ) < r.gen.maxTokens

variable (scheduler) in
theorem paced_admitFrom (pending : List (Request K)) (s : SchedulerState K)
    (hactive : ∀ r ∈ s.active, Paced r) (hpending : ∀ r ∈ pending, Paced r) :
    (∀ r ∈ (scheduler.admitFrom pending s).active, Paced r) ∧
      ∀ r ∈ (scheduler.admitFrom pending s).pending, Paced r := by
  induction pending generalizing s with
  | nil => exact ⟨hactive, by simp [admitFrom]⟩
  | cons r rest ih =>
      have hgo : ∀ donor : Option (Request K),
          (∀ after ∈ (scheduler.admitFrom rest (activate s donor r)).active, Paced after) ∧
            ∀ after ∈ (scheduler.admitFrom rest (activate s donor r)).pending, Paced after := by
        intro donor
        refine ih _ ?_ fun r' hr' => hpending r' (List.mem_cons_of_mem _ hr')
        have hslot : ∀ (r : Request K) seqId nPast needsPrefill,
            Paced { r with seqId, nPast, needsPrefill } = Paced r :=
          fun r _ _ _ => propext ⟨fun h => ⟨h.grown, h.pace⟩, fun h => ⟨h.grown, h.pace⟩⟩
        have hmap := map_activate (f := Paced) hslot s donor r
        intro after hafter
        have hmem : Paced after ∈ (activate s donor r).active.map Paced :=
          List.mem_map_of_mem hafter
        rw [hmap] at hmem
        rcases List.mem_append.mp hmem with hmem | hmem
        · obtain ⟨before, hbefore, heq⟩ := List.mem_map.mp hmem
          exact heq ▸ hactive before hbefore
        · rw [List.mem_singleton.mp hmem]
          exact hpending r (List.mem_cons_self ..)
      unfold admitFrom
      split
      · exact ⟨hactive, hpending⟩
      · split
        · split
          · exact ⟨hactive, hpending⟩
          · exact hgo _
        · exact hgo _

theorem paced_serve {s : SchedulerState K} (hcoherent : Coherent scheduler s)
    (hactive : ∀ r ∈ s.active, Paced r) (hpending : ∀ r ∈ s.pending, Paced r) :
    (∀ r ∈ (scheduler.serve s).active, Paced r) ∧
      ∀ r ∈ (scheduler.serve s).pending, Paced r := by
  cases hrefused : scheduler.backend.refuses s.kv (s.active.map sliceOf) with
  | some fault =>
      rw [serve_refused_eq hrefused]
      exact ⟨by simp, by simpa using hpending⟩
  | none =>
      simp only [serve, SeqBackend.decodeSeqs, hrefused, (decodeSlices_active hcoherent).1,
        settle_eq, retire_pending]
      refine ⟨fun after hafter => ?_, hpending⟩
      obtain ⟨r, hr, hstay⟩ := List.mem_filterMap.mp hafter
      rcases staying_or_leaving scheduler r with
        ⟨r', next, hstay', -, hadvance, hnext, -, -, hprompt, -⟩ | ⟨r', error, hstay', -⟩
      · rw [hstay', Option.some.injEq] at hstay
        subst hstay
        obtain ⟨_, -, -, -, hgen, hemitted, hpace⟩ := advance_inl hadvance
        simp only [Request.dialogue] at hgen hemitted hpace
        refine ⟨?_, .inr (hgen ▸ hpace)⟩
        rw [hnext, List.length_append, List.length_singleton, (hactive r hr).grown, hprompt, hemitted,
          Nat.add_assoc]
      · rw [hstay'] at hstay
        cases hstay

variable (scheduler) in
/-- Every request of every run is paced. -/
theorem paced_run (events : List (Event K)) :
    (∀ r ∈ (scheduler.run scheduler.initial events).active, Paced r) ∧
      ∀ r ∈ (scheduler.run scheduler.initial events).pending, Paced r := by
  induction events using List.reverseRecOn with
  | nil => simp [run, initial]
  | append_singleton past event ih =>
      have hcoherent := coherent_run (coherent_initial scheduler) past
      have hrun : scheduler.run scheduler.initial (past ++ [event]) =
          scheduler.apply (scheduler.run scheduler.initial past) event := by
        simp [run]
      rw [hrun]
      cases event with
      | submit prompt gen onToken =>
          rcases submit_cases scheduler (scheduler.run scheduler.initial past) prompt
            gen onToken with ⟨fault, hsubmit⟩ | ⟨callback, s', -, hsubmit, -, -, rfl⟩
          · rw [apply, hsubmit]
            exact ih
          · rw [apply, hsubmit]
            refine ⟨ih.1, fun r hr => ?_⟩
            rcases List.mem_append.mp hr with hr | hr
            · exact ih.2 r hr
            · obtain rfl := List.mem_singleton.mp hr
              exact ⟨rfl, .inl rfl⟩
      | step =>
          obtain ⟨hactive, hpending⟩ := paced_admitFrom scheduler _ _ ih.1 ih.2
          rw [apply, step]
          dsimp only
          split
          · exact ⟨hactive, hpending⟩
          · exact paced_serve (admit_spec hcoherent).1 hactive hpending

/-- A batch needs no more than the footprints of its requests. -/
theorem held_le_footprints (events : List (Event K)) :
    held (scheduler.admitPending (scheduler.run scheduler.initial events)) ≤
      ((scheduler.admitPending (scheduler.run scheduler.initial events)).active.map
        scheduler.footprint).sum := by
  have hcoherent := coherent_run (coherent_initial scheduler) events
  have hadmitted := (admit_spec hcoherent).1
  obtain ⟨hpacedActive, hpacedPending⟩ := paced_run scheduler events
  obtain ⟨hactive, -⟩ := paced_admitFrom scheduler _ _ hpacedActive hpacedPending
  rw [held_eq hadmitted]
  refine List.sum_le_sum fun r hr => le_min (hadmitted.seated r hr).fits ?_
  obtain ⟨hgrown, hpace⟩ := hactive r hr
  omega

/-! ## Two slots and three cells -/

section Overrun

variable [IsStrictOrderedRing K] (lib : StdLib K) (nParallel : ℤ) {nCtx : ℕ}
  (hctx : nCtx < 2 ^ 32)

/-- A scheduler over the two-token model whose backend never fails. -/
def twoTokenScheduler : Scheduler K := ⟨lib, twoTokenBackend nCtx hctx fun _ _ => none, nParallel⟩

/-- A submission of `n` zeros, to be continued by three tokens. -/
def zeros (n : ℕ) : Event K :=
  .submit (List.replicate n 0) (greedyConfig 3) (some fun _ => .keepGoing)

omit [IsStrictOrderedRing K] in
theorem advance_keepGoing {d : Dialogue K} {next : TokenId} {sampler : Sampler K}
    (hsample : d.sampler.sample scheduler.lib (scheduler.backend.logits d.history) d.history =
      (.ok next, sampler))
    (heog : scheduler.backend.isEog next = false)
    (hcallback : d.onToken (d.delivered ++ [next]) = .keepGoing)
    (hroom : ¬ (d.gen.maxTokens ≤ (d.emitted + 1 : ℕ) ∨ scheduler.nCtx ≤ d.history.length + 1)) :
    scheduler.advance d = .inl { d with
      history := d.history ++ [next]
      sampler
      emitted := d.emitted + 1
      delivered := d.delivered ++ [next] } := by
  simp only [advance, hsample, heog, Bool.false_eq_true, if_false, hcallback]
  exact if_neg hroom

/-- The first turn on a prompt of zeros adds a zero. -/
theorem advance_zeros (n : ℕ) (hroom : n + 1 < nCtx) :
    ∃ d, (twoTokenScheduler lib nParallel hctx).advance
        ((twoTokenScheduler lib nParallel hctx).start (List.replicate n 0) (greedyConfig 3)
          fun _ => .keepGoing) = .inl d ∧ d.history.length = n + 1 := by
  have hsample : (Sampler.new lib (greedyConfig 3)).sample lib [(1 : K), 0] (List.replicate n 0) =
      _ := sample_greedy lib le_rfl (by simp) (List.replicate n (0 : ℤ))
  have hnot : ¬ (1 : K) < 0 := not_lt.mpr zero_le_one
  have hgreedy : greedyToken (greedyConfig 3 : GenerationConfig K) [(1 : K), 0]
      (List.replicate n 0) = 0 := by
    simp [greedyToken, penalize, greedyConfig, maxElement, maxElementFrom, hnot]
  rw [show (Sampler.new lib (greedyConfig 3)).config = (greedyConfig 3 : GenerationConfig K) from rfl,
    hgreedy] at hsample
  have hfull : ¬ ((greedyConfig 3 : GenerationConfig K).maxTokens ≤ ((0 + 1 : ℕ) : ℤ) ∨
      nCtx ≤ (List.replicate n (0 : ℤ)).length + 1) := by
    simp only [greedyConfig, List.length_replicate]
    omega
  exact ⟨_, advance_keepGoing hsample rfl rfl hfull, by simp [start]⟩

omit [IsStrictOrderedRing K] in
theorem apply_submit {s : SchedulerState K} {prompt : List TokenId} {gen : GenerationConfig K}
    {callback : TokenCallback} (hne : ¬ prompt = []) (hfits : ¬ scheduler.nCtx < prompt.length) :
    scheduler.apply s (.submit prompt gen (some callback)) =
      { s with
        pending := s.pending ++ [scheduler.newRequest s.nextId prompt gen callback]
        nextId := s.nextId + 1 } := by
  simp only [apply, submit, if_neg hne, if_neg hfits]
  rfl

omit [IsStrictOrderedRing K] in
/-- Two prompts of zeros that fit together are admitted together. -/
theorem admit_zeros (hparallel : 2 ≤ nParallel) (hcells : 3 ≤ nCtx) :
    let scheduler := twoTokenScheduler lib nParallel hctx
    let s := scheduler.run scheduler.initial [zeros 1, zeros (nCtx - 2)]
    (service s).live =
        [(1, scheduler.start (List.replicate 1 0) (greedyConfig 3) fun _ => .keepGoing),
          (2, scheduler.start (List.replicate (nCtx - 2) 0) (greedyConfig 3)
            fun _ => .keepGoing)] ∧
      (scheduler.admitPending s).pending = [] ∧ (scheduler.admitPending s).active.length = 2 := by
  intro scheduler s
  let first := scheduler.newRequest 1 (List.replicate 1 0) (greedyConfig 3) fun _ => .keepGoing
  let second := scheduler.newRequest 2 (List.replicate (nCtx - 2) 0) (greedyConfig 3)
    fun _ => .keepGoing
  have hn : scheduler.nCtx = nCtx := rfl
  have hs : s = { scheduler.initial with pending := [first, second], nextId := 3 } := by
    have hne : ¬ List.replicate (nCtx - 2) (0 : ℤ) = [] := by
      rw [List.replicate_eq_nil_iff]
      omega
    have hfits : ¬ scheduler.nCtx < (List.replicate (nCtx - 2) (0 : ℤ)).length := by
      rw [List.length_replicate, hn]
      omega
    have hfits' : ¬ scheduler.nCtx < (List.replicate 1 (0 : ℤ)).length := by
      rw [List.length_replicate, hn]
      omega
    change scheduler.apply (scheduler.apply scheduler.initial (zeros 1)) (zeros (nCtx - 2)) = _
    rw [zeros, zeros, apply_submit (by simp) hfits', apply_submit hne hfits]
    rfl
  have hfirst : scheduler.admitFrom [first, second] s =
      scheduler.admitFrom [second] (activate s none first) := by
    rw [admitFrom, if_neg]
    · rfl
    · have hactive : s.active = [] := by rw [hs]; rfl
      have hlength : first.history.length = 1 := rfl
      simp only [hactive, cellsUsed, hlength, List.map_nil, List.sum_nil, List.length_nil, hn]
      change ¬ (nParallel ≤ _ ∨ _)
      omega
  have hactive : (activate s none first).active = [{ first with seqId := 0 }] := by
    have hslots : s.slotUsed.findIdx? (! ·) = some 0 := by
      obtain ⟨k, hk⟩ : ∃ k, (max nParallel 1).toNat = k + 1 := ⟨(max nParallel 1).toNat - 1, by omega⟩
      rw [hs]
      change (List.replicate (max nParallel 1).toNat false).findIdx? (! ·) = some 0
      rw [hk, List.replicate_succ]
      rfl
    simp only [activate, takeSlot_eq hslots]
    rw [hs]
    rfl
  have hsecond : scheduler.admitFrom [second] (activate s none first) =
      { activate (activate s none first) none second with pending := [] } := by
    have hlength : second.history.length = nCtx - 2 := List.length_replicate
    have hlength' : first.history.length = 1 := rfl
    rw [admitFrom, if_neg]
    · have hdonor : donorFor (activate s none first).active second = none := by
        rw [donorFor, hlength, hactive]
        split
        · rename_i hlong
          have hne : ¬ first.promptLen = second.history.length := by
            rw [hlength]
            change ¬ 1 = nCtx - 2
            omega
          simp [findDonor, hne]
        · rfl
      rw [hdonor]
      rfl
    · simp only [hactive, cellsUsed, hlength, hlength', List.map_cons, List.map_nil, List.sum_cons,
        List.sum_nil, List.length_cons, List.length_nil, hn]
      change ¬ (nParallel ≤ _ ∨ _)
      omega
  have hadmitted : scheduler.admitPending s =
      { activate (activate s none first) none second with pending := [] } := by
    rw [← hsecond, ← hfirst, admitPending]
    rw [hs]
  refine ⟨by rw [hs]; rfl, by rw [hadmitted], ?_⟩
  have hmap := map_activate (f := fun _ => ()) (fun _ _ _ _ => rfl) (activate s none first) none
    second
  have := congrArg List.length hmap
  rw [hadmitted]
  simpa [hactive] using this

/-- Two requests that are admitted together overrun the budget in their second batch. -/
theorem overrun (hparallel : 2 ≤ nParallel) (hcells : 3 ≤ nCtx) :
    held ((twoTokenScheduler lib nParallel hctx).admitPending
      ((twoTokenScheduler lib nParallel hctx).run (twoTokenScheduler lib nParallel hctx).initial
        [zeros 1, zeros (nCtx - 2), .step])) = nCtx + 1 := by
  obtain ⟨hlive, hpending, hlength⟩ := admit_zeros lib nParallel hctx hparallel hcells
  obtain ⟨d, hadvance, hd⟩ := advance_zeros lib nParallel hctx 1 (by omega)
  obtain ⟨d', hadvance', hd'⟩ := advance_zeros lib nParallel hctx (nCtx - 2)
    (by omega)
  have hok : ∀ kv slices,
      (twoTokenScheduler lib nParallel hctx).backend.refuses kv slices = none := fun _ _ => rfl
  generalize twoTokenScheduler lib nParallel hctx = scheduler at *
  have hcoherent := coherent_run (coherent_initial scheduler)
    [zeros 1, zeros (nCtx - 2)]
  have hrun : scheduler.run scheduler.initial [zeros 1, zeros (nCtx - 2), .step] =
      (scheduler.step (scheduler.run scheduler.initial [zeros 1, zeros (nCtx - 2)])).1 := rfl
  rw [hrun]
  generalize scheduler.run scheduler.initial [zeros 1, zeros (nCtx - 2)] = s at *
  have hadmitted := (admit_spec hcoherent).1
  have hlive' : (service (scheduler.step s).1).live = [(1, d), (2, d')] := by
    rw [service_step hcoherent (hok _ _), hlength, Service.tick, hlive]
    change List.filterMap _ [_, _] ++ [] = _
    simp only [List.filterMap_cons, List.filterMap_nil, List.append_nil, Service.stays, hadvance,
      hadvance', Sum.getLeft?_inl, Option.map_some]
  have hpending' : (scheduler.step s).1.pending = [] := by
    rw [step]
    dsimp only
    split
    · exact hpending
    · exact (serve_pending hadmitted).trans hpending
  have hcoherent' : Coherent scheduler (scheduler.step s).1 := coherent_apply hcoherent .step
  have hadmitted : scheduler.admitPending (scheduler.step s).1 = (scheduler.step s).1 := by
    rw [admitPending, hpending', admitFrom, ← hpending']
  rw [hadmitted, held_eq hcoherent']
  have hsum := congrArg (fun live => (live.map fun job : ℕ × Dialogue K => job.2.history.length).sum)
    hlive'
  simp only [service, hpending', List.append_nil, List.map_map, List.map_cons, List.map_nil,
    List.sum_cons, List.sum_nil, hd, hd'] at hsum
  change ((scheduler.step s).1.active.map fun r => r.history.length).sum = _ at hsum
  rw [hsum]
  omega

/-- The scheduler keeps its KV budget, whatever the backend and the run, exactly with a
single slot or at most two cells; and every run keeps it in which the active requests
have room for their full length whenever a batch is decoded. -/
theorem budget_kept_iff (lib : StdLib K) (nParallel : ℤ) {nCtx : ℕ} (hctx : nCtx < 2 ^ 32) :
    ((∀ backend : SeqBackend K, backend.contextLength = nCtx →
        KeepsBudget ⟨lib, backend, nParallel⟩) ↔ nParallel ≤ 1 ∨ nCtx ≤ 2) ∧
      ∀ (backend : SeqBackend K) (events : List (Event K)),
        let scheduler : Scheduler K := ⟨lib, backend, nParallel⟩
        (∀ past, past <+: events →
          Reserved scheduler (scheduler.admitPending (scheduler.run scheduler.initial past))) →
        (∀ past, past <+: events →
          held (scheduler.admitPending (scheduler.run scheduler.initial past)) ≤ scheduler.nCtx) ∧
        (RefusesOnlyOver scheduler →
          NoBackendError (scheduler.run scheduler.initial events)) := by
  refine ⟨⟨fun hkeeps => ?_, ?_⟩, ?_⟩
  · by_contra hlarge
    have hkept := (hkeeps (twoTokenBackend nCtx hctx fun _ _ => none) rfl).1
      [zeros 1, zeros (nCtx - 2), .step]
    have hover := overrun lib nParallel hctx (by omega) (by omega)
    exact absurd (hover.symm.trans_le hkept) (Nat.not_succ_le_self _)
  · rintro (hsingle | htiny) backend rfl
    · refine keepsBudget_of_held fun events => ?_
      exact held_le_of_single (admit_spec (coherent_run (coherent_initial _) events)).1 hsingle
    · refine keepsBudget_of_held fun events => ?_
      exact held_le_of_tiny (show nCtx ⟨lib, backend, nParallel⟩ ≤ 2 from htiny) events
  · intro backend events scheduler hreserved
    have hheld : ∀ past, past <+: events →
        held (scheduler.admitPending (scheduler.run scheduler.initial past)) ≤ scheduler.nCtx :=
      fun past hpast => (held_le_footprints past).trans (hreserved past hpast)
    exact ⟨hheld, fun honly => noBackendError_run honly hheld⟩

end Overrun

/-- A single slot keeps the budget of eight cells. -/
theorem budget_kept_single :
    KeepsBudget (⟨.rational, twoTokenBackend 8 (by decide) fun _ _ => none, 1⟩ : Scheduler ℚ) :=
  (budget_kept_iff .rational 1 (show 8 < 2 ^ 32 by decide)).1.mpr (.inl le_rfl) _ rfl

/-- Three cells and two slots: two requests with a prompt of one token each are decoded
together, hold four positions one step later, and both end with the backend's error. -/
theorem budget_overrun :
    let scheduler : Scheduler ℚ := ⟨.rational, twoTokenBackend 3 (by decide) fun _ slices =>
      if 3 < demand slices then
        some (.modelError "llama_decode (multi-seq) failed with status 1")
      else none, 2⟩
    RefusesOnlyOver scheduler ∧
      held (scheduler.admitPending (scheduler.run scheduler.initial [zeros 1, zeros 1, .step])) = 4 ∧
      (scheduler.run scheduler.initial [zeros 1, zeros 1, .step, .step]).done =
        [(2, ⟨some (.modelError "llama_decode (multi-seq) failed with status 1"), [0]⟩),
          (1, ⟨some (.modelError "llama_decode (multi-seq) failed with status 1"), [0]⟩)] ∧
      ¬ KeepsBudget scheduler := by
  intro scheduler
  have hheld : held (scheduler.admitPending
      (scheduler.run scheduler.initial [zeros 1, zeros 1, .step])) = 4 := by decide +kernel
  refine ⟨fun kv slices hrefused => ?_, hheld, by decide +kernel, fun hkeeps => ?_⟩
  · by_contra hfits
    exact hrefused (if_neg hfits)
  · have hkept := hkeeps.1 [zeros 1, zeros 1, .step]
    rw [hheld] at hkept
    exact absurd hkept (by decide)

end Reame.Core.Scheduler
