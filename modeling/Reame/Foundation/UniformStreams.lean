import Mathlib.Probability.ProductMeasure
import Mathlib.MeasureTheory.Measure.Lebesgue.Basic

/-!
# Independent uniform draws

A family of independent draws, each uniform on `[0, 1)`, is the product measure
`uniformStreams`.  An event that constrains finitely many draws, each on its own, is a
box `Set.pi`; boxes over disjoint sets of draws are independent (`measure_inter_boxes`).
-/

open MeasureTheory Set

namespace Reame

/-- The uniform distribution on `[0, 1)`. -/
noncomputable def unitUniform : Measure ℝ := volume.restrict (Ico 0 1)

instance : IsProbabilityMeasure unitUniform :=
  ⟨by rw [unitUniform, Measure.restrict_apply_univ, Real.volume_Ico, sub_zero, ENNReal.ofReal_one]⟩

/-- Independent uniform draws. -/
noncomputable def uniformStreams (ι : Type*) : Measure (ι → ℝ) :=
  Measure.infinitePi fun _ => unitUniform

instance (ι : Type*) : IsProbabilityMeasure (uniformStreams ι) := by
  unfold uniformStreams
  infer_instance

/-- The probability to fall into an interval of the unit interval is its length. -/
theorem unitUniform_Ioc {a b : ℝ} (ha : 0 ≤ a) (hb : b ≤ 1) :
    unitUniform (Ioc a b) = ENNReal.ofReal (b - a) := by
  have hsub : Ioc a b ⊆ Icc 0 1 := fun x hx => ⟨ha.trans hx.1.le, hx.2.trans hb⟩
  rw [unitUniform, Measure.restrict_congr_set Ico_ae_eq_Icc, Measure.restrict_apply measurableSet_Ioc,
    inter_eq_left.mpr hsub, Real.volume_Ioc]

theorem unitUniform_Iio (c : ℝ) :
    unitUniform (Iio c) = ENNReal.ofReal (min 1 c) := by
  have hinter : Iio c ∩ Ico 0 1 = Ico 0 (min 1 c) := by
    ext x
    simp only [mem_inter_iff, mem_Iio, mem_Ico, lt_min_iff]
    tauto
  rw [unitUniform, Measure.restrict_apply measurableSet_Iio, hinter, Real.volume_Ico, sub_zero]

theorem unitUniform_Ici {c : ℝ} (hc : 0 ≤ c) :
    unitUniform (Ici c) = ENNReal.ofReal (1 - min 1 c) := by
  rw [← compl_Iio, prob_compl_eq_one_sub measurableSet_Iio, unitUniform_Iio,
    ENNReal.ofReal_sub _ (le_min zero_le_one hc), ENNReal.ofReal_one]

variable {ι : Type*}

/-- Almost surely every draw lies in `[0, 1)`. -/
theorem ae_mem_unit [Countable ι] : ∀ᵐ ω ∂uniformStreams ι, ∀ i, ω i ∈ Ico (0 : ℝ) 1 := by
  rw [ae_all_iff]
  intro i
  have hlaw := measurePreserving_eval_infinitePi (fun _ : ι => unitUniform) i
  refine hlaw.quasiMeasurePreserving.ae ?_
  exact ae_restrict_mem measurableSet_Ico

/-- Constraints on different draws are independent. -/
theorem measure_inter_boxes {s s' : Finset ι} (hdisjoint : Disjoint s s') {t t' : ι → Set ℝ}
    (ht : ∀ i, MeasurableSet (t i)) (ht' : ∀ i, MeasurableSet (t' i)) :
    uniformStreams ι (Set.pi s t ∩ Set.pi s' t') =
      uniformStreams ι (Set.pi s t) * uniformStreams ι (Set.pi s' t') := by
  classical
  have hbox : Set.pi (s : Set ι) t ∩ Set.pi s' t' =
      Set.pi ((s ∪ s' : Finset ι) : Set ι) fun i => if i ∈ s then t i else t' i := by
    ext ω
    simp only [mem_inter_iff, mem_pi, Finset.coe_union, mem_union, Finset.mem_coe]
    constructor
    · rintro ⟨hs, hs'⟩ i (hi | hi)
      · rw [if_pos hi]
        exact hs i hi
      · rw [if_neg (Finset.disjoint_right.mp hdisjoint hi)]
        exact hs' i hi
    · intro hall
      refine ⟨fun i hi => ?_, fun i hi => ?_⟩
      · simpa [hi] using hall i (.inl hi)
      · simpa [Finset.disjoint_right.mp hdisjoint hi] using hall i (.inr hi)
  have hmeasurable : ∀ i, MeasurableSet (if i ∈ s then t i else t' i) := by
    intro i
    split
    · exact ht i
    · exact ht' i
  unfold uniformStreams
  rw [hbox, Measure.infinitePi_pi _ fun i _ => hmeasurable i,
    Measure.infinitePi_pi _ fun i _ => ht i, Measure.infinitePi_pi _ fun i _ => ht' i,
    Finset.prod_union hdisjoint]
  congr 1
  · exact Finset.prod_congr rfl fun i hi => by rw [if_pos hi]
  · exact Finset.prod_congr rfl fun i hi => by
      rw [if_neg (Finset.disjoint_right.mp hdisjoint hi)]

end Reame
