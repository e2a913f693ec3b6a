import Mathlib.Data.List.Basic
import Mathlib.Order.Lattice
import Mathlib.Tactic
import Reame.Foundation.Loop

/-!
# First come, first served

Jobs are numbered as they arrive and queue up.  A `tick` advances some number of jobs
at the head of the queue by one `advance` each; a job that leaves is recorded with its
result.  Nothing a job does depends on another one, so a job's record is what its own
loop yields (`Tracked`), and as long as every tick serves someone, every job is done
after boundedly many ticks (`backlog_tick`).
-/

namespace Reame

/-- A queue of numbered jobs, and the results of those that have left it. -/
structure Service (δ ο : Type*) where
  live : List (ℕ × δ)
  done : List (ℕ × ο)
  nextId : ℕ

namespace Service

variable {δ ο : Type*} (advance : δ → δ ⊕ ο)

/-- A new job. -/
def submit (s : Service δ ο) (job : δ) : Service δ ο :=
  { s with live := s.live ++ [(s.nextId, job)], nextId := s.nextId + 1 }

/-- A job after one `advance`, unless it leaves. -/
def stays (job : ℕ × δ) : Option (ℕ × δ) := (advance job.2).getLeft?.map (job.1, ·)

/-- The record of a job that leaves. -/
def leaves (job : ℕ × δ) : Option (ℕ × ο) := (advance job.2).getRight?.map (job.1, ·)

/-- Advance the first `n` jobs. -/
def tick (n : ℕ) (s : Service δ ο) : Service δ ο :=
  { s with
    live := (s.live.take n).filterMap (stays advance) ++ s.live.drop n
    done := ((s.live.take n).filterMap (leaves advance)).reverse ++ s.done }

variable {advance}

theorem stays_eq_some {job job' : ℕ × δ} :
    stays advance job = some job' ↔ advance job.2 = .inl job'.2 ∧ job'.1 = job.1 := by
  obtain ⟨id, d⟩ := job
  obtain ⟨id', d'⟩ := job'
  cases hadvance : advance d <;> simp [stays, hadvance, eq_comm, and_comm]

theorem leaves_eq_some {job : ℕ × δ} {record : ℕ × ο} :
    leaves advance job = some record ↔ advance job.2 = .inr record.2 ∧ record.1 = job.1 := by
  obtain ⟨id, d⟩ := job
  obtain ⟨id', o⟩ := record
  cases hadvance : advance d <;> simp [leaves, hadvance, eq_comm, and_comm]

/-! ## Every job is on its own -/

/-- The job numbered `id`, which started as `first`, is still on its way or has left
with the result of its own loop. -/
def Tracked (advance : δ → δ ⊕ ο) (first : δ) (id : ℕ) (s : Service δ ο) : Prop :=
  (∃ job, (id, job) ∈ s.live ∧ Loop.Visits advance first job) ∨
    ∃ result, (id, result) ∈ s.done ∧ Loop.Exits advance first result

theorem Tracked.of_submit (s : Service δ ο) (job : δ) :
    Tracked advance job s.nextId (s.submit job) :=
  .inl ⟨job, by simp [submit], .start⟩

theorem Tracked.submit {first : δ} {id : ℕ} {s : Service δ ο} (htracked : Tracked advance first id s)
    (job : δ) : Tracked advance first id (s.submit job) := by
  rcases htracked with ⟨current, hmem, hvisit⟩ | ⟨result, hmem, hexits⟩
  · exact .inl ⟨current, List.mem_append_left _ hmem, hvisit⟩
  · exact .inr ⟨result, hmem, hexits⟩

theorem Tracked.tick {first : δ} {id : ℕ} {s : Service δ ο} (htracked : Tracked advance first id s)
    (n : ℕ) : Tracked advance first id (tick advance n s) := by
  rcases htracked with ⟨current, hmem, hvisit⟩ | ⟨result, hmem, hexits⟩
  · rw [← List.take_append_drop n s.live, List.mem_append] at hmem
    rcases hmem with hmem | hmem
    · cases hadvance : advance current with
      | inl after =>
          refine .inl ⟨after, List.mem_append_left _ ?_, .next hvisit hadvance⟩
          exact List.mem_filterMap.mpr ⟨_, hmem, stays_eq_some.mpr ⟨hadvance, rfl⟩⟩
      | inr result =>
          refine .inr ⟨result, List.mem_append_left _ (List.mem_reverse.mpr ?_),
            .of_visits hvisit (.leave hadvance)⟩
          exact List.mem_filterMap.mpr ⟨_, hmem, leaves_eq_some.mpr ⟨hadvance, rfl⟩⟩
    · exact .inl ⟨current, List.mem_append_right _ hmem, hvisit⟩
  · exact .inr ⟨result, List.mem_append_right _ hmem, hexits⟩

/-! ## What a job keeps -/

/-- The job numbered `id` has arrived; it satisfies `going` while it is live, and its result
satisfies `gone`. -/
structure Keeps (going : δ → Prop) (gone : ο → Prop) (id : ℕ) (s : Service δ ο) : Prop where
  arrived : id < s.nextId
  live : ∀ job, (id, job) ∈ s.live → going job
  done : ∀ result, (id, result) ∈ s.done → gone result

section Keeps

variable {going : δ → Prop} {gone : ο → Prop} {id : ℕ} {s : Service δ ο}

theorem Keeps.submit (hkeeps : Keeps going gone id s) (job : δ) :
    Keeps going gone id (s.submit job) where
  arrived := Nat.lt_succ_of_lt hkeeps.arrived
  live := by
    intro current hmem
    rcases List.mem_append.mp hmem with hmem | hmem
    · exact hkeeps.live current hmem
    · obtain ⟨hnew, -⟩ := Prod.mk.inj (List.mem_singleton.mp hmem)
      exact absurd hnew hkeeps.arrived.ne
  done := hkeeps.done

/-- It is enough that every turn keeps it. -/
theorem Keeps.tick (hkeeps : Keeps going gone id s)
    (hstays : ∀ before after, going before → advance before = .inl after → going after)
    (hleaves : ∀ before result, going before → advance before = .inr result → gone result) (n : ℕ) :
    Keeps going gone id (tick advance n s) where
  arrived := hkeeps.arrived
  live := by
    intro current hmem
    rcases List.mem_append.mp hmem with hmem | hmem
    · obtain ⟨⟨id', before⟩, hbefore, hstay⟩ := List.mem_filterMap.mp hmem
      obtain ⟨hadvance, rfl⟩ := stays_eq_some.mp hstay
      exact hstays before current (hkeeps.live before (List.mem_of_mem_take hbefore)) hadvance
    · exact hkeeps.live current (List.mem_of_mem_drop hmem)
  done := by
    intro result hmem
    rcases List.mem_append.mp hmem with hmem | hmem
    · obtain ⟨⟨id', before⟩, hbefore, hleave⟩ := List.mem_filterMap.mp (List.mem_reverse.mp hmem)
      obtain ⟨hadvance, rfl⟩ := leaves_eq_some.mp hleave
      exact hleaves before result (hkeeps.live before (List.mem_of_mem_take hbefore)) hadvance
    · exact hkeeps.done result hmem

end Keeps

/-! ## Numbering -/

/-- Jobs are numbered in order, and a number is never used twice. -/
structure Numbered (s : Service δ ο) : Prop where
  sorted : s.live.Pairwise fun job job' => job.1 < job'.1
  recorded : (s.done.map Prod.fst).Nodup
  apart : ∀ job ∈ s.live, ∀ record ∈ s.done, job.1 ≠ record.1
  live_lt : ∀ job ∈ s.live, job.1 < s.nextId
  done_lt : ∀ record ∈ s.done, record.1 < s.nextId

theorem Numbered.submit {s : Service δ ο} (hnumbered : Numbered s) (job : δ) :
    Numbered (s.submit job) where
  sorted := by
    refine List.pairwise_append.mpr ⟨hnumbered.sorted, List.pairwise_singleton _ _, ?_⟩
    intro earlier hearlier later hlater
    obtain rfl := List.mem_singleton.mp hlater
    exact hnumbered.live_lt earlier hearlier
  recorded := hnumbered.recorded
  apart := by
    intro earlier hearlier record hrecord
    rcases List.mem_append.mp hearlier with hearlier | hearlier
    · exact hnumbered.apart earlier hearlier record hrecord
    · obtain rfl := List.mem_singleton.mp hearlier
      exact (hnumbered.done_lt record hrecord).ne'
  live_lt := by
    intro earlier hearlier
    rcases List.mem_append.mp hearlier with hearlier | hearlier
    · exact Nat.lt_succ_of_lt (hnumbered.live_lt earlier hearlier)
    · obtain rfl := List.mem_singleton.mp hearlier
      exact Nat.lt_succ_self _
  done_lt := fun record hrecord => Nat.lt_succ_of_lt (hnumbered.done_lt record hrecord)

/-- The queue with its jobs seen through `f`. -/
def map {γ : Type*} (f : δ → γ) (s : Service δ ο) : Service γ ο :=
  ⟨s.live.map fun job => (job.1, f job.2), s.done, s.nextId⟩

/-- Numbering is about numbers only. -/
theorem numbered_map {γ : Type*} {f : δ → γ} {s : Service δ ο} :
    (s.map f).Numbered ↔ s.Numbered := by
  constructor
  · intro hnumbered
    have hsorted : (s.live.map fun job => (job.1, f job.2)).Pairwise
        fun job job' => job.1 < job'.1 := hnumbered.sorted
    rw [List.pairwise_map] at hsorted
    refine ⟨hsorted, hnumbered.recorded, ?_, ?_, hnumbered.done_lt⟩
    · exact fun job hjob => hnumbered.apart _ (List.mem_map_of_mem hjob)
    · exact fun job hjob => hnumbered.live_lt _ (List.mem_map_of_mem hjob)
  · intro hnumbered
    refine ⟨List.pairwise_map.mpr hnumbered.sorted, hnumbered.recorded, ?_, ?_, hnumbered.done_lt⟩
    · intro job hjob
      obtain ⟨before, hbefore, rfl⟩ := List.mem_map.mp hjob
      exact hnumbered.apart before hbefore
    · intro job hjob
      obtain ⟨before, hbefore, rfl⟩ := List.mem_map.mp hjob
      exact hnumbered.live_lt before hbefore

/-- A new job is the only one with its number. -/
theorem Numbered.keeps_submit {s : Service δ ο} (hnumbered : Numbered s) {going : δ → Prop}
    (gone : ο → Prop) {job : δ} (hjob : going job) :
    Keeps going gone s.nextId (s.submit job) where
  arrived := Nat.lt_succ_self _
  live := by
    intro current hmem
    rcases List.mem_append.mp hmem with hmem | hmem
    · exact absurd (hnumbered.live_lt _ hmem) (lt_irrefl _)
    · obtain ⟨-, rfl⟩ := Prod.mk.inj (List.mem_singleton.mp hmem)
      exact hjob
  done := fun result hmem => absurd (hnumbered.done_lt _ hmem) (lt_irrefl _)

theorem stays_sublist (jobs : List (ℕ × δ)) :
    ((jobs.filterMap (stays advance)).map Prod.fst).Sublist (jobs.map Prod.fst) := by
  induction jobs with
  | nil => exact .slnil
  | cons job rest ih =>
      rw [List.filterMap_cons]
      split
      · exact ih.cons _
      · rename_i job' hstays
        rw [List.map_cons, List.map_cons, (stays_eq_some.mp hstays).2]
        exact ih.cons_cons _

theorem leaves_sublist (jobs : List (ℕ × δ)) :
    ((jobs.filterMap (leaves advance)).map Prod.fst).Sublist (jobs.map Prod.fst) := by
  induction jobs with
  | nil => exact .slnil
  | cons job rest ih =>
      rw [List.filterMap_cons]
      split
      · exact ih.cons _
      · rename_i record hleaves
        rw [List.map_cons, List.map_cons, (leaves_eq_some.mp hleaves).2]
        exact ih.cons_cons _

theorem live_tick_sublist (n : ℕ) (s : Service δ ο) :
    ((tick advance n s).live.map Prod.fst).Sublist (s.live.map Prod.fst) := by
  conv_rhs => rw [← List.take_append_drop n s.live]
  rw [tick, List.map_append, List.map_append]
  exact (stays_sublist _).append (List.Sublist.refl _)

theorem mem_of_mem_tick {n : ℕ} {s : Service δ ο} {job : ℕ × δ}
    (hmem : job ∈ (tick advance n s).live) : ∃ earlier ∈ s.live, earlier.1 = job.1 := by
  have := (live_tick_sublist n s).subset (List.mem_map_of_mem hmem)
  simpa using this

theorem record_of_mem_leaves {n : ℕ} {s : Service δ ο} {record : ℕ × ο}
    (hmem : record ∈ (s.live.take n).filterMap (leaves advance)) :
    ∃ job ∈ s.live.take n, advance job.2 = .inr record.2 ∧ record.1 = job.1 := by
  obtain ⟨job, hjob, hleaves⟩ := List.mem_filterMap.mp hmem
  exact ⟨job, hjob, leaves_eq_some.mp hleaves⟩

theorem Numbered.nodup {s : Service δ ο} (hnumbered : Numbered s) : (s.live.map Prod.fst).Nodup := by
  refine (List.pairwise_map.mpr hnumbered.sorted).imp fun h => h.ne

theorem Numbered.tick {s : Service δ ο} (hnumbered : Numbered s) (n : ℕ) :
    Numbered (tick advance n s) where
  sorted := by
    have hsorted : ((Service.tick advance n s).live.map Prod.fst).Pairwise (· < ·) :=
      (List.pairwise_map.mpr hnumbered.sorted).sublist (live_tick_sublist n s)
    exact List.pairwise_map.mp hsorted
  recorded := by
    have hleft : (((s.live.take n).filterMap (leaves advance)).map Prod.fst).Nodup :=
      hnumbered.nodup.sublist ((leaves_sublist _).trans ((List.take_sublist n _).map _))
    rw [Service.tick, List.map_append, List.map_reverse]
    refine List.Nodup.append (List.nodup_reverse.mpr hleft) hnumbered.recorded ?_
    intro id hid hid'
    obtain ⟨record, hrecord, rfl⟩ := List.mem_map.mp (List.mem_reverse.mp hid)
    obtain ⟨record', hrecord', heq⟩ := List.mem_map.mp hid'
    obtain ⟨job, hjob, -, hsame⟩ := record_of_mem_leaves hrecord
    exact hnumbered.apart job (List.mem_of_mem_take hjob) record' hrecord' (hsame ▸ heq.symm)
  apart := by
    intro job hjob record hrecord heq
    rcases List.mem_append.mp hrecord with hrecord | hrecord
    · -- A job that is still live after the tick and one that has left have different numbers.
      obtain ⟨left, hleft, hleaves, hid⟩ := record_of_mem_leaves (List.mem_reverse.mp hrecord)
      have hsplit := hnumbered.nodup
      rw [← List.take_append_drop n s.live, List.map_append, List.nodup_append] at hsplit
      rcases List.mem_append.mp hjob with hjob | hjob
      · obtain ⟨before, hbefore, hstays⟩ := List.mem_filterMap.mp hjob
        obtain ⟨hstays, hid'⟩ := stays_eq_some.mp hstays
        have hsame := List.inj_on_of_nodup_map hsplit.1 hbefore hleft
          (by rw [← hid', heq, hid])
        rw [hsame, hleaves] at hstays
        cases hstays
      · exact hsplit.2.2 _ (List.mem_map_of_mem hleft) _ (List.mem_map_of_mem hjob)
          (by rw [← hid, heq])
    · obtain ⟨earlier, hearlier, hid⟩ := mem_of_mem_tick hjob
      exact hnumbered.apart earlier hearlier record hrecord (hid.trans heq)
  live_lt := by
    intro job hjob
    obtain ⟨earlier, hearlier, hid⟩ := mem_of_mem_tick hjob
    exact hid ▸ hnumbered.live_lt earlier hearlier
  done_lt := by
    intro record hrecord
    rcases List.mem_append.mp hrecord with hrecord | hrecord
    · obtain ⟨job, hjob, -, hid⟩ := record_of_mem_leaves (List.mem_reverse.mp hrecord)
      exact hid ▸ hnumbered.live_lt job (List.mem_of_mem_take hjob)
    · exact hnumbered.done_lt record hrecord

/-- Every job of a tick stays or leaves. -/
theorem stays_leaves_perm (jobs : List (ℕ × δ)) :
    ((jobs.filterMap (stays advance)).map Prod.fst ++
      (jobs.filterMap (leaves advance)).map Prod.fst).Perm (jobs.map Prod.fst) := by
  induction jobs with
  | nil => exact .nil
  | cons job rest ih =>
      cases hadvance : advance job.2 with
      | inl after =>
          have hstays : stays advance job = some (job.1, after) := by simp [stays, hadvance]
          have hleaves : leaves advance job = none := by simp [leaves, hadvance]
          rw [List.filterMap_cons_some hstays, List.filterMap_cons_none hleaves]
          exact ih.cons _
      | inr result =>
          have hstays : stays advance job = none := by simp [stays, hadvance]
          have hleaves : leaves advance job = some (job.1, result) := by simp [leaves, hadvance]
          rw [List.filterMap_cons_none hstays, List.filterMap_cons_some hleaves, List.map_cons]
          exact List.perm_middle.trans (ih.cons _)

/-- The numbers in play: of the live jobs and of the records. -/
def numbers (s : Service δ ο) : List ℕ := s.live.map Prod.fst ++ s.done.map Prod.fst

theorem Numbered.numbers_nodup {s : Service δ ο} (hnumbered : Numbered s) : s.numbers.Nodup := by
  refine hnumbered.nodup.append hnumbered.recorded fun id hlive hdone => ?_
  obtain ⟨job, hjob, rfl⟩ := List.mem_map.mp hlive
  obtain ⟨record, hrecord, heq⟩ := List.mem_map.mp hdone
  exact hnumbered.apart job hjob record hrecord heq.symm

@[simp] theorem numbers_map {γ : Type*} (f : δ → γ) (s : Service δ ο) :
    (s.map f).numbers = s.numbers := by
  simp [numbers, map]

theorem numbers_submit (s : Service δ ο) (job : δ) :
    (s.submit job).numbers.Perm (s.numbers ++ [s.nextId]) := by
  simp only [numbers, submit, List.map_append, List.map_cons, List.map_nil, List.append_assoc]
  exact List.perm_append_comm.append_left _

/-- A tick loses no number and makes none twice. -/
theorem numbers_tick (n : ℕ) (s : Service δ ο) : (tick advance n s).numbers.Perm s.numbers := by
  have hserved := @stays_leaves_perm δ ο advance (s.live.take n)
  have hlive : s.live.map Prod.fst = (s.live.take n).map Prod.fst ++ (s.live.drop n).map Prod.fst := by
    rw [← List.map_append, List.take_append_drop]
  simp only [numbers, tick, List.map_append, List.map_reverse, hlive]
  refine List.Perm.trans ?_ ((hserved.append_right _).append_right _)
  simp only [List.append_assoc]
  refine List.Perm.append_left _ ?_
  rw [← List.append_assoc, ← List.append_assoc]
  refine List.Perm.append_right _ (List.perm_append_comm.trans ?_)
  exact (List.reverse_perm _).append_right _

/-! ## Everyone is served -/

/-- What is left to do for the jobs numbered up to `id`. -/
def backlog (weight : δ → ℕ) (id : ℕ) (s : Service δ ο) : ℕ :=
  (s.live.map fun job => if job.1 ≤ id then weight job.2 else 0).sum

theorem backlog_map {γ : Type*} (f : δ → γ) (weight : γ → ℕ) (id : ℕ) (s : Service δ ο) :
    backlog weight id (s.map f) = backlog (weight ∘ f) id s := by
  simp [backlog, map, Function.comp_def]

theorem backlog_submit {weight : δ → ℕ} {id : ℕ} {s : Service δ ο} (hid : id < s.nextId)
    (job : δ) : backlog weight id (s.submit job) = backlog weight id s := by
  simp [backlog, submit, not_le.mpr hid]

/-- A live job has something left to do. -/
theorem backlog_pos {weight : δ → ℕ} {id : ℕ} {s : Service δ ο}
    (hpos : ∀ job ∈ s.live, 0 < weight job.2) {job : δ} (hmem : (id, job) ∈ s.live) :
    0 < backlog weight id s := by
  have hle := List.single_le_sum (l := s.live.map fun job => if job.1 ≤ id then weight job.2 else 0)
    (by simp) _ (List.mem_map_of_mem hmem)
  have := hpos _ hmem
  simp only [le_refl, if_true] at hle
  exact this.trans_le hle

theorem sum_stays_le {weight : δ → ℕ} (id : ℕ)
    (hfalls : ∀ before after, advance before = .inl after → weight after < weight before)
    (jobs : List (ℕ × δ)) :
    ((jobs.filterMap (stays advance)).map fun job => if job.1 ≤ id then weight job.2 else 0).sum ≤
      (jobs.map fun job => if job.1 ≤ id then weight job.2 else 0).sum := by
  induction jobs with
  | nil => simp
  | cons job rest ih =>
      rw [List.filterMap_cons, List.map_cons, List.sum_cons]
      split
      · exact ih.trans (Nat.le_add_left _ _)
      · rename_i job' hstays
        obtain ⟨hadvance, hid⟩ := stays_eq_some.mp hstays
        have := hfalls _ _ hadvance
        rw [List.map_cons, List.sum_cons, hid]
        split <;> omega

/-- A tick that serves someone shortens the backlog of every live job: whoever is at
the head of the queue came earlier. -/
theorem backlog_tick {weight : δ → ℕ} {id n : ℕ} {s : Service δ ο} (hnumbered : Numbered s)
    (hpos : ∀ job ∈ s.live, 0 < weight job.2)
    (hfalls : ∀ before after, advance before = .inl after → weight after < weight before)
    (hn : 0 < n) {job : ℕ × δ} (hmem : job ∈ s.live) (hid : job.1 ≤ id) :
    backlog weight id (tick advance n s) < backlog weight id s := by
  obtain ⟨n, rfl⟩ : ∃ m, n = m + 1 := ⟨n - 1, by omega⟩
  obtain ⟨live, done, nextId⟩ := s
  cases live with
  | nil => simp at hmem
  | cons head rest =>
      have hhead : head.1 ≤ id := by
        rcases List.mem_cons.mp hmem with rfl | hlater
        · exact hid
        · exact ((List.pairwise_cons.mp hnumbered.sorted).1 _ hlater).le.trans hid
      have hrest := sum_stays_le id hfalls (rest.take n)
      have hsplit : (rest.map fun job => if job.1 ≤ id then weight job.2 else 0).sum =
          ((rest.take n).map fun job => if job.1 ≤ id then weight job.2 else 0).sum +
            ((rest.drop n).map fun job => if job.1 ≤ id then weight job.2 else 0).sum := by
        rw [← List.sum_append, ← List.map_append, List.take_append_drop]
      have hweight := hpos head (List.mem_cons_self ..)
      simp only [backlog, tick, List.take_succ_cons, List.drop_succ_cons, List.map_append,
        List.sum_append, List.map_cons, List.sum_cons, hsplit, if_pos hhead]
      rw [List.filterMap_cons]
      split
      · omega
      · rename_i job' hstays
        obtain ⟨hadvance, hid⟩ := stays_eq_some.mp hstays
        have := hfalls _ _ hadvance
        rw [List.map_cons, List.sum_cons, hid, if_pos hhead]
        omega

end Service

end Reame
