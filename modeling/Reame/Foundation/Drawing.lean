import Reame.Foundation.UniformStreams
import Mathlib.MeasureTheory.Integral.Lebesgue.Countable
import Mathlib.MeasureTheory.Measure.Prod

/-!
# Programs that draw

A program reads variates one after the other from generators, and a variate decides between
countably many ways to go on.  `run` executes it on streams of variates from a position in each
of them; `mean` is the expectation of what it returns, computed along the program.

For independent uniform streams the two agree (`lintegral_run`), wherever the generators stand.
So the law of a program can be computed by recursion, and that of a composed program from the
laws of its parts (`mean_bind`).
-/

open MeasureTheory Set
open scoped ENNReal

namespace Reame

/-! ## Drawing one variate anew -/

/-- Independent uniform draws, one of them drawn anew. -/
theorem measurePreserving_update {ι : Type*} [DecidableEq ι] (i : ι) :
    MeasurePreserving (fun x : (ι → ℝ) × ℝ => Function.update x.1 i x.2)
      ((uniformStreams ι).prod unitUniform) (uniformStreams ι) := by
  have hmeasurable : Measurable fun x : (ι → ℝ) × ℝ => Function.update x.1 i x.2 := by
    refine measurable_pi_lambda _ fun j => ?_
    by_cases hj : j = i
    · subst hj
      simpa only [Function.update_self] using measurable_snd
    · simp only [Function.update_of_ne hj]
      exact (measurable_pi_apply j).comp measurable_fst
  refine ⟨hmeasurable, Measure.eq_infinitePi (fun _ => unitUniform) fun s t ht => ?_⟩
  -- A box constrains the new draw and, apart from it, the old ones.
  have hbox : Set.preimage (fun x : (ι → ℝ) × ℝ => Function.update x.1 i x.2) (Set.pi s t) =
      Set.pi (s.erase i : Finset ι) t ×ˢ (if i ∈ s then t i else univ) := by
    ext ⟨ω, u⟩
    simp only [mem_preimage, mem_pi, mem_prod, Finset.mem_coe, Finset.mem_erase]
    constructor
    · intro hall
      refine ⟨fun j hj => ?_, ?_⟩
      · simpa only [Function.update_of_ne hj.1] using hall j hj.2
      · split
        · rename_i hi
          simpa only [Function.update_self] using hall i hi
        · trivial
    · rintro ⟨hold, hnew⟩ j hj
      by_cases hji : j = i
      · subst hji
        rw [if_pos hj] at hnew
        rwa [Function.update_self]
      · rw [Function.update_of_ne hji]
        exact hold j ⟨hji, hj⟩
  have hpi : MeasurableSet (Set.pi s t) := .pi s.countable_toSet fun j _ => ht j
  rw [Measure.map_apply hmeasurable hpi, hbox, Measure.prod_prod, uniformStreams,
    Measure.infinitePi_pi _ fun j _ => ht j]
  split
  · rename_i hi
    exact Finset.prod_erase_mul s (fun j => unitUniform (t j)) hi
  · rename_i hi
    rw [measure_univ, mul_one, Finset.erase_eq_of_notMem hi]

/-- A program over the generators `γ`: it returns, or reads a variate and goes on. -/
inductive Drawing (γ α : Type*)
  | done (a : α)
  | draw (g : γ) (reading : {reading : ℝ → ℕ // Measurable reading}) (next : ℕ → Drawing γ α)

namespace Drawing

variable {γ α β : Type*} [DecidableEq γ]

/-- The variates of all generators, by generator and number. -/
abbrev Variates (γ : Type*) := γ × ℕ → ℝ

/-- The position of a generator moves on. -/
def advance (positions : γ → ℕ) (g : γ) : γ → ℕ :=
  Function.update positions g (positions g + 1)

/-- What a program returns, and where it leaves the generators. -/
def run (ω : Variates γ) : (γ → ℕ) → Drawing γ α → α × (γ → ℕ)
  | positions, done a => (a, positions)
  | positions, draw g reading next =>
      run ω (advance positions g) (next (reading.1 (ω (g, positions g))))

/-- One program after the other. -/
def bind : Drawing γ α → (α → Drawing γ β) → Drawing γ β
  | done a, later => later a
  | draw g reading next, later => draw g reading fun j => (next j).bind later

/-- Return something else. -/
def map (f : α → β) (program : Drawing γ α) : Drawing γ β := program.bind fun a => done (f a)

/-- One variate, as it is read. -/
def read (g : γ) (reading : {reading : ℝ → ℕ // Measurable reading}) : Drawing γ ℕ :=
  draw g reading done

/-- A program that reads from one generator only. -/
def Only (g : γ) : Drawing γ α → Prop
  | done _ => True
  | draw g' _ next => g' = g ∧ ∀ j, (next j).Only g

/-- The expectation of what a program returns. -/
noncomputable def mean (value : α → ℝ≥0∞) : Drawing γ α → ℝ≥0∞
  | done a => value a
  | draw _ reading next => ∫⁻ u, (next (reading.1 u)).mean value ∂unitUniform

/-! ## Composition -/

theorem run_bind (ω : Variates γ) (positions : γ → ℕ) (program : Drawing γ α)
    (later : α → Drawing γ β) :
    (program.bind later).run ω positions =
      (later (program.run ω positions).1).run ω (program.run ω positions).2 := by
  induction program generalizing positions with
  | done a => rfl
  | draw g reading next ih => exact ih _ _

theorem run_map (ω : Variates γ) (positions : γ → ℕ) (f : α → β) (program : Drawing γ α) :
    (program.map f).run ω positions =
      (f (program.run ω positions).1, (program.run ω positions).2) := by
  rw [map, run_bind]
  rfl

/-- The other generators stay where they are. -/
theorem Only.run_other {g g' : γ} {program : Drawing γ α} (honly : program.Only g) (hne : g' ≠ g)
    (ω : Variates γ) (positions : γ → ℕ) : (program.run ω positions).2 g' = positions g' := by
  induction program generalizing positions with
  | done a => rfl
  | draw h reading next ih =>
      obtain ⟨rfl, hnext⟩ := honly
      calc (run ω positions (draw h reading next)).2 g'
          = advance positions h g' := ih _ (hnext _) _
        _ = positions g' := Function.update_of_ne hne _ _

omit [DecidableEq γ]

theorem Only.bind {g : γ} {program : Drawing γ α} {later : α → Drawing γ β}
    (honly : program.Only g) (hlater : ∀ a, (later a).Only g) : (program.bind later).Only g := by
  induction program with
  | done a => exact hlater a
  | draw h reading next ih => exact ⟨honly.1, fun j => ih j (honly.2 j)⟩

theorem Only.map {g : γ} {program : Drawing γ α} (f : α → β) (honly : program.Only g) :
    (program.map f).Only g :=
  honly.bind fun _ => trivial

theorem only_read (g : γ) (reading : {reading : ℝ → ℕ // Measurable reading}) :
    (read g reading).Only g :=
  ⟨rfl, fun _ => trivial⟩

theorem mean_bind (value : β → ℝ≥0∞) (program : Drawing γ α) (later : α → Drawing γ β) :
    (program.bind later).mean value = program.mean fun a => (later a).mean value := by
  induction program with
  | done a => rfl
  | draw g reading next ih => exact lintegral_congr fun u => ih (reading.1 u)

theorem mean_map (value : β → ℝ≥0∞) (f : α → β) (program : Drawing γ α) :
    (program.map f).mean value = program.mean fun a => value (f a) :=
  mean_bind value program _

/-- The mean of a reading, over what can be read. -/
theorem mean_read (value : ℕ → ℝ≥0∞) (g : γ) (reading : {reading : ℝ → ℕ // Measurable reading})
    {n : ℕ} (hfew : ∀ j, n ≤ j → unitUniform {u | reading.1 u = j} = 0) :
    (read g reading).mean value =
      ∑ j ∈ Finset.range n, unitUniform {u | reading.1 u = j} * value j := by
  have hcell : ∀ j, unitUniform.map reading.1 {j} = unitUniform {u | reading.1 u = j} := fun j =>
    Measure.map_apply reading.2 (measurableSet_singleton j)
  calc (read g reading).mean value
      = ∫⁻ j, value j ∂unitUniform.map reading.1 :=
        (lintegral_map measurable_from_top reading.2).symm
    _ = tsum fun j => value j * unitUniform.map reading.1 {j} := lintegral_countable' value
    _ = ∑ j ∈ Finset.range n, value j * unitUniform.map reading.1 {j} := by
        refine tsum_eq_sum fun j hj => ?_
        rw [hcell, hfew j (not_lt.mp (mt Finset.mem_range.mpr hj)), mul_zero]
    _ = ∑ j ∈ Finset.range n, unitUniform {u | reading.1 u = j} * value j :=
        Finset.sum_congr rfl fun j _ => by rw [hcell, mul_comm]

theorem mean_const (c : ℝ≥0∞) (program : Drawing γ α) : program.mean (fun _ => c) = c := by
  induction program with
  | done a => rfl
  | draw g reading next ih =>
      calc mean (fun _ => c) (draw g reading next)
          = ∫⁻ _, c ∂unitUniform := lintegral_congr fun u => ih (reading.1 u)
        _ = c := by rw [lintegral_const, measure_univ, mul_one]

/-- A variate that a program does not read can be drawn before or after it. -/
theorem lintegral_mean (reading : {reading : ℝ → ℕ // Measurable reading}) (f : ℕ → β → ℝ≥0∞)
    (program : Drawing γ β) : ∫⁻ u, program.mean (f (reading.1 u)) ∂unitUniform =
      program.mean fun b => ∫⁻ u, f (reading.1 u) b ∂unitUniform := by
  induction program with
  | done b => rfl
  | draw g reading' next ih =>
      have hpairs : Measurable fun x : ℕ × ℕ => (next x.2).mean (f x.1) := .of_discrete
      have hboth : Measurable fun x : ℝ × ℝ => (next (reading'.1 x.2)).mean (f (reading.1 x.1)) :=
        hpairs.comp ((reading.2.comp measurable_fst).prodMk (reading'.2.comp measurable_snd))
      calc ∫⁻ u, ∫⁻ v, (next (reading'.1 v)).mean (f (reading.1 u)) ∂unitUniform ∂unitUniform
          = ∫⁻ v, ∫⁻ u, (next (reading'.1 v)).mean (f (reading.1 u)) ∂unitUniform ∂unitUniform :=
            lintegral_lintegral_swap hboth.aemeasurable
        _ = ∫⁻ v, (next (reading'.1 v)).mean (fun b => ∫⁻ u, f (reading.1 u) b ∂unitUniform)
              ∂unitUniform := lintegral_congr fun v => ih _

/-- Two programs that do not hear of each other can be averaged in either order. -/
theorem mean_comm (value : α → β → ℝ≥0∞) (first : Drawing γ α) (second : Drawing γ β) :
    (first.mean fun a => second.mean (value a)) = second.mean fun b => first.mean (value · b) := by
  induction first with
  | done a => rfl
  | draw g reading next ih =>
      calc ∫⁻ u, (next (reading.1 u)).mean (fun a => second.mean (value a)) ∂unitUniform
          = ∫⁻ u, second.mean (fun b => (next (reading.1 u)).mean (value · b)) ∂unitUniform :=
            lintegral_congr fun u => ih _
        _ = second.mean fun b => ∫⁻ u, (next (reading.1 u)).mean (value · b) ∂unitUniform :=
            lintegral_mean reading (fun j b => (next j).mean (value · b)) second

/-! ## Streams -/

variable [DecidableEq γ]

theorem measurable_run (value : α → ℝ≥0∞) (positions : γ → ℕ) (program : Drawing γ α) :
    Measurable fun ω => value (program.run ω positions).1 := by
  induction program generalizing positions with
  | done a => exact (measurable_const : Measurable fun _ : Variates γ => value a)
  | draw g reading next ih =>
      have hbranches : Measurable fun x : Variates γ × ℕ =>
          value ((next x.2).run x.1 (advance positions g)).1 :=
        measurable_from_prod_countable_left fun j => ih j _
      exact hbranches.comp (measurable_id.prodMk (reading.2.comp (measurable_pi_apply _)))

/-- A program does not look back. -/
theorem run_update (ω : Variates γ) (program : Drawing γ α) {g : γ} {i : ℕ} (u : ℝ)
    {positions : γ → ℕ} (hpast : i < positions g) :
    program.run (Function.update ω (g, i) u) positions = program.run ω positions := by
  induction program generalizing positions with
  | done a => rfl
  | draw g' reading next ih =>
      have hother : (g', positions g') ≠ (g, i) := by
        rintro hsame
        obtain ⟨rfl, rfl⟩ := Prod.mk.inj hsame
        exact lt_irrefl _ hpast
      have hlater : i < advance positions g' g := by
        rw [advance, Function.update_apply]
        split
        · rename_i hg
          rw [← hg]
          exact hpast.trans (Nat.lt_succ_self _)
        · exact hpast
      rw [run, run, Function.update_of_ne hother, ih _ hlater]

/-- On independent uniform streams a program returns what its mean says, wherever the generators
stand. -/
theorem lintegral_run [Countable γ] (value : α → ℝ≥0∞) (positions : γ → ℕ) (program : Drawing γ α) :
    ∫⁻ ω, value (program.run ω positions).1 ∂uniformStreams (γ × ℕ) = program.mean value := by
  induction program generalizing positions with
  | done a =>
      calc ∫⁻ _, value a ∂uniformStreams (γ × ℕ)
          = value a * 1 := by rw [lintegral_const, measure_univ]
        _ = value a := mul_one _
  | draw g reading next ih =>
      let c := (g, positions g)
      have hpast : positions g < advance positions g g := by
        rw [advance, Function.update_self]
        exact Nat.lt_succ_self _
      have hmeasurable := measurable_run value positions (draw g reading next)
      calc ∫⁻ ω, value ((draw g reading next).run ω positions).1 ∂uniformStreams (γ × ℕ)
          = ∫⁻ x, value ((draw g reading next).run (Function.update x.1 c x.2) positions).1
              ∂(uniformStreams (γ × ℕ)).prod unitUniform :=
            ((measurePreserving_update c).lintegral_comp hmeasurable).symm
        _ = ∫⁻ u, ∫⁻ ω, value ((draw g reading next).run (Function.update ω c u) positions).1
              ∂uniformStreams (γ × ℕ) ∂unitUniform :=
            lintegral_prod_symm' _ (hmeasurable.comp (measurePreserving_update c).measurable)
        _ = ∫⁻ u, ∫⁻ ω, value ((next (reading.1 u)).run ω (advance positions g)).1
              ∂uniformStreams (γ × ℕ) ∂unitUniform := by
            refine lintegral_congr fun u => lintegral_congr fun ω => ?_
            rw [run, Function.update_self, run_update ω _ u hpast]
        _ = mean value (draw g reading next) := lintegral_congr fun u => ih (reading.1 u) _

open Classical in
/-- The probability of what a program returns. -/
theorem measure_run [Countable γ] (P : α → Prop) (positions : γ → ℕ) (program : Drawing γ α) :
    uniformStreams (γ × ℕ) {ω | P (program.run ω positions).1} =
      program.mean fun a => if P a then 1 else 0 := by
  have hmeasurable : MeasurableSet {ω | P (program.run ω positions).1} := by
    have hset : {ω : Variates γ | P (program.run ω positions).1} =
        Set.preimage (fun ω => if P (program.run ω positions).1 then (1 : ℝ≥0∞) else 0) {1} := by
      ext ω
      simp
    rw [hset]
    exact measurable_run (fun a => if P a then 1 else 0) positions program (measurableSet_singleton 1)
  rw [← lintegral_run (fun a => if P a then 1 else 0) positions,
    ← lintegral_indicator_one hmeasurable]
  exact lintegral_congr fun ω => by simp [Set.indicator_apply]

/-- Two values that agree on whatever is returned have the same mean. -/
theorem mean_congr [Countable γ] {value value' : α → ℝ≥0∞} {program : Drawing γ α}
    (hsame : ∀ ω : Variates γ, (∀ i, ω i ∈ Ico (0 : ℝ) 1) →
      value (program.run ω 0).1 = value' (program.run ω 0).1) :
    program.mean value = program.mean value' := by
  rw [← lintegral_run value 0, ← lintegral_run value' 0]
  refine lintegral_congr_ae ?_
  filter_upwards [ae_mem_unit] with ω hω
  exact hsame ω hω

end Drawing

end Reame
