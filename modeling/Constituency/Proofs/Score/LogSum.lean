import Constituency.Proofs.Score.Addition
import Constituency.Proofs.Score.TableIndex

/-!
# Sums of logarithms in single precision

The elementary functions of the machine are taken as given, with the laws that they are known for
(`Elementary`, `Elementary.Lawful`). All three sums of logarithms put the larger score first and add what is
at least zero to it. So a sum of two numbers is a number, no matter in which order they come and no less than
either of them (`Lawful.logSums_of_numbers`), with one exception: the gap between infinity and itself is no
number, and only the sum by table covers that up.
-/

namespace Constituency

namespace Binary32

variable {a b c hi lo x y : Float32}

/-! ## Order -/

theorem le_trans_of_le (hab : a ≤ b) (hbc : b ≤ c) : a ≤ c := by
  have ha := isNaN_eq_false_of_le hab
  have hb := isNaN_eq_false_of_le hbc
  have hc := isNaN_eq_false_of_ge hbc
  rw [le_iff_signed_le ha hb] at hab
  rw [le_iff_signed_le hb hc] at hbc
  exact (le_iff_signed_le ha hc).2 (hab.trans hbc)

theorem le_self (ha : a.isNaN = false) : a ≤ a :=
  (le_iff_signed_le ha ha).2 (Int.le_refl _)

theorem beq_self (ha : a.isNaN = false) : (a == a) = true :=
  (beq_iff_signed_eq ha ha).2 rfl

theorem signed_eq_of_le_of_le (hab : a ≤ b) (hba : b ≤ a) : signed a.toBits = signed b.toBits := by
  have ha := isNaN_eq_false_of_le hab
  have hb := isNaN_eq_false_of_le hba
  exact Int.le_antisymm ((le_iff_signed_le ha hb).1 hab) ((le_iff_signed_le hb ha).1 hba)

theorem not_beq_negInfinity (h : (a == negInfinity) = false) : a ≠ negInfinity := by
  rintro rfl
  exact absurd h (by decide)

/-- Zero with a minus sign. -/
def negZero : Float32 :=
  Float32.ofBits signBit

/-- Zero has two signs. -/
theorem eq_zero_or_negZero (h : magnitude a.toBits = 0) : a = 0 ∨ a = negZero := by
  cases hsign : signOf a.toBits with
  | positive => exact .inl (eq_of_sign_magnitude (hsign.trans rfl) (h.trans rfl))
  | negative => exact .inr (eq_of_sign_magnitude (hsign.trans rfl) (h.trans rfl))

theorem descending_cases (ha : a.isNaN = false) (hb : b.isNaN = false) :
    b ≤ a ∧ Score.descending a b = (a, b) ∨ a ≤ b ∧ Score.descending a b = (b, a) := by
  by_cases h : b ≤ a
  · exact .inl ⟨h, if_pos h⟩
  · refine .inr ⟨?_, if_neg h⟩
    rw [le_iff_signed_le hb ha] at h
    exact (le_iff_signed_le ha hb).2 (by omega)

/-! ## Sums of the larger score and the smaller one -/

/-- What a sum of two scores owes to them. -/
structure Sums (sum : Float32 → Float32 → Float32) (a b : Float32) : Prop where
  isNaN_eq_false : (sum a b).isNaN = false
  comm : (sum a b == sum b a) = true
  le_left : a ≤ sum a b
  le_right : b ≤ sum a b

/-- What is no number stays none. -/
theorem isNaN_add_right (hb : b.isNaN = true) : (a + b).isNaN = true := by
  have hsum := toBitVec_add a b
  have hnone : ∀ u : Float.Model.UnpackedFloat,
      Float.Model.UnpackedFloat.add .binary32 u .notANumber = .notANumber := fun u => by
    cases u <;> rfl
  rw [unpacked_of_isNaN hb, hnone] at hsum
  have hbits : (a + b).toBits = notANumber.toBits := UInt32.toBitVec_inj.1 (hsum.trans (by decide))
  rw [Float32.toBits_inj.1 hbits]
  decide

section Descending

variable {g sum : Float32 → Float32 → Float32}

/-- A sum that is no less than the larger score is no less than either. -/
theorem le_sum (hsum : ∀ a b, sum a b = g (Score.descending a b).1 (Score.descending a b).2)
    (ha : a.isNaN = false) (hb : b.isNaN = false)
    (hab : b ≤ a → a ≤ g a b) (hba : a ≤ b → b ≤ g b a) : a ≤ sum a b ∧ b ≤ sum a b := by
  rw [hsum]
  rcases descending_cases ha hb with ⟨hle, hfirst⟩ | ⟨hle, hfirst⟩ <;> rw [hfirst]
  · exact ⟨hab hle, le_trans_of_le hle (hab hle)⟩
  · exact ⟨le_trans_of_le hle (hba hle), hba hle⟩

/-- The order of two scores makes no difference if that of two zeros makes none. -/
theorem sum_comm (hsum : ∀ a b, sum a b = g (Score.descending a b).1 (Score.descending a b).2)
    (hzeros : ∀ {x y : Float32}, magnitude x.toBits = 0 → magnitude y.toBits = 0 →
      (g x y == g y x) = true)
    (ha : a.isNaN = false) (hb : b.isNaN = false) (hnumber : (sum a b).isNaN = false) :
    (sum a b == sum b a) = true := by
  by_cases hba : b ≤ a
  · by_cases hab : a ≤ b
    · rcases eq_or_zeros (signed_eq_of_le_of_le hab hba) with rfl | ⟨hza, hzb⟩
      · exact beq_self hnumber
      · rw [hsum, hsum, Score.descending, Score.descending, if_pos hba, if_pos hab]
        exact hzeros hza hzb
    · have hsame : sum b a = sum a b := by
        rw [hsum, hsum, Score.descending, Score.descending, if_pos hba, if_neg hab]
      rw [hsame]
      exact beq_self hnumber
  · have hab : a ≤ b := ((descending_cases ha hb).resolve_left fun h => hba h.1).1
    have hsame : sum b a = sum a b := by
      rw [hsum, hsum, Score.descending, Score.descending, if_neg hba, if_pos hab]
    rw [hsame]
    exact beq_self hnumber

theorem sums_of_descending
    (hsum : ∀ a b, sum a b = g (Score.descending a b).1 (Score.descending a b).2)
    (hzeros : ∀ {x y : Float32}, magnitude x.toBits = 0 → magnitude y.toBits = 0 →
      (g x y == g y x) = true)
    (ha : a.isNaN = false) (hb : b.isNaN = false)
    (hab : b ≤ a → a ≤ g a b) (hba : a ≤ b → b ≤ g b a) : Sums sum a b := by
  obtain ⟨hleft, hright⟩ := le_sum hsum ha hb hab hba
  have hnumber := isNaN_eq_false_of_ge hleft
  exact ⟨hnumber, sum_comm hsum hzeros ha hb hnumber, hleft, hright⟩

end Descending

/-! ## What is added to the larger score -/

/-- The larger score, and what the smaller one adds to it unless it is impossible or the gap is ignored. -/
def raised (ignored : Float32 → Bool) (addend : Float32 → Float32 → Float32) (hi lo : Float32) : Float32 :=
  if lo == negInfinity || ignored (hi - lo) then hi else hi + addend hi lo

section Raised

variable {ignored : Float32 → Bool} {addend : Float32 → Float32 → Float32}

theorem raised_negInfinity (hi : Float32) : raised ignored addend hi negInfinity = hi := by
  have hbeq : (negInfinity == negInfinity) = true := beq_self isNaN_negInfinity
  rw [raised, hbeq, Bool.true_or, if_pos rfl]

theorem le_raised (hle : lo ≤ hi) (hadd : lo ≠ negInfinity → 0 ≤ addend hi lo) :
    hi ≤ raised ignored addend hi lo := by
  have hnumber := isNaN_eq_false_of_ge hle
  unfold raised
  split
  · exact le_self hnumber
  · next hkept =>
    rw [Bool.or_eq_true, not_or, Bool.not_eq_true] at hkept
    have hlo := not_beq_negInfinity hkept.1
    have hhi : hi ≠ negInfinity := fun h => hlo (eq_negInfinity_of_le (h ▸ hle))
    exact le_add_of_nonneg hnumber hhi (hadd hlo)

theorem magnitude_sub_zeros (hx : magnitude x.toBits = 0) (hy : magnitude y.toBits = 0) :
    magnitude (x - y).toBits = 0 := by
  rcases eq_zero_or_negZero hx with rfl | rfl <;> rcases eq_zero_or_negZero hy with rfl | rfl <;> rfl

/-- Two zeros are raised alike if what is done with their gap does not depend on its sign. -/
theorem raised_zeros (hignored : ignored 0 = ignored negZero) (hx : magnitude x.toBits = 0)
    (hy : magnitude y.toBits = 0) (hle : addend x y ≤ addend y x) (hge : addend y x ≤ addend x y) :
    (raised ignored addend x y == raised ignored addend y x) = true := by
  have hpossible : ∀ {z : Float32}, magnitude z.toBits = 0 → (z == negInfinity) = false := by
    intro z hz
    rcases eq_zero_or_negZero hz with rfl | rfl <;> decide
  have hsame : ∀ {z : Float32}, magnitude z.toBits = 0 → ignored z = ignored 0 := by
    intro z hz
    rcases eq_zero_or_negZero hz with rfl | rfl
    · rfl
    · exact hignored.symm
  unfold raised
  rw [hpossible hx, hpossible hy, Bool.false_or, Bool.false_or, hsame (magnitude_sub_zeros hx hy),
    hsame (magnitude_sub_zeros hy hx)]
  split
  · rcases eq_zero_or_negZero hx with rfl | rfl <;> rcases eq_zero_or_negZero hy with rfl | rfl <;>
      decide
  · obtain ⟨hnumber, hsigned⟩ := signed_zero_add hx (isNaN_eq_false_of_le hle)
    obtain ⟨hnumber', hsigned'⟩ := signed_zero_add hy (isNaN_eq_false_of_le hge)
    rw [beq_iff_signed_eq hnumber hnumber', hsigned, hsigned', signed_eq_of_le_of_le hle hge]

end Raised

/-! ## Elementary functions -/

/-- The elementary functions of a machine that sums of logarithms are made of. -/
structure Elementary where
  /-- The exponential. -/
  exp : Float32 → Float32
  /-- `ln (1 + x)`. -/
  logOnePlus : Float32 → Float32
  /-- Samples of `ln (1 + e ^ -x)`. -/
  sample : Fin (tableRange * tableResolution) → Float32

namespace Elementary

/-- The functions that the running scores are made of. -/
def running : Elementary where
  exp := Float32.exp
  logOnePlus := Binary32.logOnePlus
  sample i := (logOnePlusDouble (Float.exp (-(i.val.toFloat / tableResolution.toFloat)))).toFloat32

/-- The table of the samples. -/
def table (f : Elementary) : Array Float32 :=
  Array.ofFn f.sample

/-- Scores in single precision with other elementary functions. -/
abbrev score (f : Elementary) : Score Float32 :=
  { instScoreFloat32 with
    exp := f.exp
    softplus := fun x => f.logOnePlus (f.exp x)
    tableSoftplus := fun gap => f.table.getD (tableIndex gap) 0 }

theorem score_running : running.score = instScoreFloat32 := rfl

/-- The laws of the exponential, of `ln (1 + x)` and of the samples. -/
structure Lawful (f : Elementary) : Prop where
  exp_negInfinity : f.exp negInfinity = 0
  exp_nonneg : ∀ {x}, x ≤ 0 → x ≠ negInfinity → 0 ≤ f.exp x
  exp_mono : ∀ {x y}, x ≠ negInfinity → x ≤ y → y ≤ 0 → f.exp x ≤ f.exp y
  isNaN_exp : ∀ {x}, x.isNaN = true → (f.exp x).isNaN = true
  logOnePlus_nonneg : ∀ {x}, 0 ≤ x → 0 ≤ f.logOnePlus x
  logOnePlus_mono : ∀ {x y}, 0 ≤ x → x ≤ y → f.logOnePlus x ≤ f.logOnePlus y
  isNaN_logOnePlus : ∀ {x}, x.isNaN = true → (f.logOnePlus x).isNaN = true
  sample_nonneg : ∀ i, 0 ≤ f.sample i

variable {f : Elementary} {cutoff : Float32}

/-- What the smaller score adds to the larger one. -/
def softplus (f : Elementary) (x : Float32) : Float32 :=
  f.logOnePlus (f.exp x)

theorem softplus_nonneg (hf : f.Lawful) (hx : x ≤ 0) : 0 ≤ f.softplus x := by
  refine hf.logOnePlus_nonneg ?_
  by_cases h : x = negInfinity
  · rw [h, hf.exp_negInfinity]
    exact le_self isNaN_zero
  · exact hf.exp_nonneg hx h

/-- The sign of zero does not matter. -/
theorem softplus_zeros (hf : f.Lawful) (hx : magnitude x.toBits = 0) (hy : magnitude y.toBits = 0) :
    f.softplus x ≤ f.softplus y := by
  have hzero : ∀ {z w : Float32}, magnitude z.toBits = 0 → magnitude w.toBits = 0 →
      z ≤ w ∧ z ≠ negInfinity := by
    intro z w hz hw
    rcases eq_zero_or_negZero hz with rfl | rfl <;> rcases eq_zero_or_negZero hw with rfl | rfl <;>
      decide
  obtain ⟨hle, hne⟩ := hzero hx hy
  have hnonpos : y ≤ 0 := (hzero hy rfl).1
  exact hf.logOnePlus_mono (hf.exp_nonneg (hzero hx rfl).1 hne) (hf.exp_mono hne hle hnonpos)

/-- A sample is read, or zero outside of the table. -/
theorem getD_ofFn_nonneg {n : Nat} {sample : Fin n → Float32} (h : ∀ i, 0 ≤ sample i) (i : Nat) :
    0 ≤ (Array.ofFn sample).getD i 0 := by
  rw [Array.getD_eq_getD_getElem?]
  cases hread : (Array.ofFn sample)[i]? with
  | none => exact le_self isNaN_zero
  | some s =>
    obtain ⟨hi, rfl⟩ := Array.getElem?_eq_some_iff.1 hread
    rw [Option.getD_some, Array.getElem_ofFn]
    exact h _

/-! ## The three sums -/

abbrev logSum (f : Elementary) : Float32 → Float32 → Float32 :=
  @Score.logSum _ f.score

abbrev logSumWithin (f : Elementary) (cutoff : Float32) : Float32 → Float32 → Float32 :=
  @Score.logSumWithin _ f.score cutoff

abbrev logSumTable (f : Elementary) (cutoff : Float32) : Float32 → Float32 → Float32 :=
  @Score.logSumTable _ f.score cutoff

theorem logSum_eq (f : Elementary) (a b : Float32) : f.logSum a b =
    raised (fun _ => false) (fun hi lo => f.softplus (lo - hi))
      (Score.descending a b).1 (Score.descending a b).2 := by
  rw [raised, Bool.or_false]
  rfl

theorem logSumWithin_eq (f : Elementary) (cutoff a b : Float32) : f.logSumWithin cutoff a b =
    raised (fun gap => decide (cutoff < gap)) (fun hi lo => f.softplus (lo - hi))
      (Score.descending a b).1 (Score.descending a b).2 := rfl

theorem logSumTable_eq (f : Elementary) (cutoff a b : Float32) : f.logSumTable cutoff a b =
    raised (fun gap => decide (cutoff < gap) || decide (tableRange.toFloat32 ≤ gap))
      (fun hi lo => f.table.getD (tableIndex (hi - lo)) 0)
      (Score.descending a b).1 (Score.descending a b).2 := by
  rw [raised, ← Bool.or_assoc]
  rfl

/-- The exact sums: what is ignored differs, what is added does not. -/
theorem sums_of_softplus (hf : f.Lawful) {ignored : Float32 → Bool} {sum : Float32 → Float32 → Float32}
    (hsum : ∀ a b, sum a b = raised ignored (fun hi lo => f.softplus (lo - hi))
      (Score.descending a b).1 (Score.descending a b).2)
    (hignored : ignored 0 = ignored negZero) (ha : a.isNaN = false) (hb : b.isNaN = false)
    (hne : ¬ (a = infinity ∧ b = infinity)) : Sums sum a b := by
  refine sums_of_descending hsum (fun hx hy => ?_) ha hb (fun hle => ?_) fun hle => ?_
  · have hxy := softplus_zeros hf (magnitude_sub_zeros hy hx) (magnitude_sub_zeros hx hy)
    have hyx := softplus_zeros hf (magnitude_sub_zeros hx hy) (magnitude_sub_zeros hy hx)
    exact raised_zeros hignored hx hy hxy hyx
  · exact le_raised hle fun hlo =>
      softplus_nonneg hf (sub_nonpos_of_le hle hlo fun h => hne ⟨h.2, h.1⟩)
  · exact le_raised hle fun hlo => softplus_nonneg hf (sub_nonpos_of_le hle hlo hne)

/-- The gap between infinity and itself is no number, and is not ignored. -/
theorem isNaN_sum_infinity (hf : f.Lawful) {ignored : Float32 → Bool}
    {sum : Float32 → Float32 → Float32}
    (hsum : ∀ a b, sum a b = raised ignored (fun hi lo => f.softplus (lo - hi))
      (Score.descending a b).1 (Score.descending a b).2)
    (hignored : ∀ {gap}, gap.isNaN = true → ignored gap = false) :
    (sum infinity infinity).isNaN = true := by
  have hgap : (infinity - infinity).isNaN = true := by decide
  have hpossible : (infinity == negInfinity) = false := by decide
  have hfirst : Score.descending infinity infinity = (infinity, infinity) :=
    if_pos (le_self isNaN_infinity)
  rw [hsum, hfirst, raised, hpossible, hignored hgap]
  exact isNaN_add_right (hf.isNaN_logOnePlus (hf.isNaN_exp hgap))

/-- Nothing lies between the zeros. -/
theorem lt_zero_iff (c : Float32) : c < 0 ↔ c < negZero := by
  have hnegZero : negZero.isNaN = false := by decide
  cases hc : c.isNaN with
  | true =>
    have hnone : ∀ z, ¬ c < z := fun z h => Bool.noConfusion (hc.symm.trans (isNaN_eq_false_of_lt h).1)
    exact iff_of_false (hnone _) (hnone _)
  | false =>
    rw [lt_iff_signed_lt hc isNaN_zero, lt_iff_signed_lt hc hnegZero]
    rfl

/-- The sum by table, whatever is read for an index. -/
theorem sums_of_samples {read : Nat → Float32} (hread : ∀ i, 0 ≤ read i)
    {sum : Float32 → Float32 → Float32}
    (hsum : ∀ a b, sum a b =
      raised (fun gap => decide (cutoff < gap) || decide (tableRange.toFloat32 ≤ gap))
        (fun hi lo => read (tableIndex (hi - lo))) (Score.descending a b).1 (Score.descending a b).2)
    (ha : a.isNaN = false) (hb : b.isNaN = false) : Sums sum a b := by
  refine sums_of_descending hsum (fun {x y} hx hy => ?_) ha hb
    (fun hle => le_raised hle fun _ => hread _) fun hle => le_raised hle fun _ => hread _
  have hindex : ∀ {z : Float32}, magnitude z.toBits = 0 → tableIndex z = tableIndex 0 := by
    intro z hz
    rcases eq_zero_or_negZero hz with rfl | rfl <;> decide
  have hsame : tableIndex (x - y) = tableIndex (y - x) :=
    (hindex (magnitude_sub_zeros hx hy)).trans (hindex (magnitude_sub_zeros hy hx)).symm
  have hbeyond : (tableRange.toFloat32 ≤ (0 : Float32)) = (tableRange.toFloat32 ≤ negZero) := by
    decide
  have hself := le_self (isNaN_eq_false_of_ge (hread (tableIndex (y - x))))
  refine raised_zeros ?_ hx hy ?_ ?_
  · simp only [lt_zero_iff, hbeyond]
  · rw [hsame]
    exact hself
  · rw [hsame]
    exact hself

/-- The gap between two scores. -/
def gap (a b : Float32) : Float32 :=
  (Score.descending a b).1 - (Score.descending a b).2

/-- The sum of two scores takes a sample: the smaller one is possible, and the gap is neither wider than the
cutoff nor beyond the table. -/
def TakesSample (cutoff a b : Float32) : Prop :=
  ((Score.descending a b).2 == negInfinity) = false ∧ ¬ cutoff < gap a b ∧
    ¬ tableRange.toFloat32 ≤ gap a b

theorem getD_eq_getElem {values : Array Float32} {i : Nat} (h : i < values.size) :
    values.getD i 0 = values[i] := by
  rw [Array.getD_eq_getD_getElem?, Array.getElem?_eq_getElem h, Option.getD_some]

theorem size_table (f : Elementary) : f.table.size = tableRange * tableResolution :=
  Array.size_ofFn

/-- The sample is one of the table. -/
theorem logSumTable_of_takesSample (h : TakesSample cutoff a b) :
    ∃ hindex : tableIndex (gap a b) < f.table.size,
      f.logSumTable cutoff a b = (Score.descending a b).1 + f.table[tableIndex (gap a b)] := by
  obtain ⟨hpossible, hcutoff, hbeyond⟩ := h
  have hindex : tableIndex (gap a b) < f.table.size := (tableIndex_lt hbeyond).trans_eq f.size_table.symm
  refine ⟨hindex, ?_⟩
  have hkept : ¬ ((Score.descending a b).2 == negInfinity ||
      (decide (cutoff < gap a b) || decide (tableRange.toFloat32 ≤ gap a b))) = true := by
    rw [hpossible, decide_eq_false hcutoff, decide_eq_false hbeyond]
    exact Bool.false_ne_true
  rw [logSumTable_eq, raised]
  rw [← getD_eq_getElem hindex]
  exact if_neg hkept

theorem logSumTable_of_not_takesSample (h : ¬ TakesSample cutoff a b) :
    f.logSumTable cutoff a b = (Score.descending a b).1 := by
  have hdropped : ((Score.descending a b).2 == negInfinity ||
      (decide (cutoff < gap a b) || decide (tableRange.toFloat32 ≤ gap a b))) = true := by
    by_contra hkept
    simp only [Bool.or_eq_true, decide_eq_true_eq, not_or, Bool.not_eq_true] at hkept
    exact h hkept
  rw [logSumTable_eq, raised]
  exact if_pos hdropped

/-- What is impossible adds nothing. -/
theorem sum_negInfinity {ignored : Float32 → Bool} {addend sum : Float32 → Float32 → Float32}
    (hsum : ∀ a b, sum a b =
      raised ignored addend (Score.descending a b).1 (Score.descending a b).2)
    (ha : a.isNaN = false) : sum a negInfinity = a ∧ sum negInfinity a = a := by
  have hlast : Score.descending a negInfinity = (a, negInfinity) := if_pos (negInfinity_le ha)
  refine ⟨by rw [hsum, hlast, raised_negInfinity], ?_⟩
  rcases descending_cases isNaN_negInfinity ha with ⟨hle, hfirst⟩ | ⟨-, hfirst⟩
  · rw [hsum, hfirst, eq_negInfinity_of_le hle, raised_negInfinity]
  · rw [hsum, hfirst, raised_negInfinity]

/-- The exact sums, with the exception. -/
theorem sums_or_infinities (hf : f.Lawful) {ignored : Float32 → Bool}
    {sum : Float32 → Float32 → Float32}
    (hsum : ∀ a b, sum a b = raised ignored (fun hi lo => f.softplus (lo - hi))
      (Score.descending a b).1 (Score.descending a b).2)
    (hignored : ignored 0 = ignored negZero)
    (hnever : ∀ {gap}, gap.isNaN = true → ignored gap = false)
    (ha : a.isNaN = false) (hb : b.isNaN = false) :
    ((sum a b).isNaN = true ↔ a = infinity ∧ b = infinity) ∧
      (¬ (a = infinity ∧ b = infinity) → Sums sum a b) := by
  have hsums := sums_of_softplus hf hsum hignored ha hb
  refine ⟨⟨fun hnone => ?_, ?_⟩, hsums⟩
  · by_contra hne
    exact Bool.noConfusion (hnone.symm.trans (hsums hne).isNaN_eq_false)
  · rintro ⟨rfl, rfl⟩
    exact isNaN_sum_infinity hf hsum hnever

/-- The sums of two scores that are numbers are numbers, which do not depend on the order and are no less than
either score, except that two infinities leave a sum without a table without a number. What is impossible adds
nothing, and the table is only ever read inside its bounds, for any two scores whatsoever. -/
theorem Lawful.logSums_of_numbers (hf : f.Lawful) (cutoff : Float32) :
    (∀ a b : Float32, a.isNaN = false → b.isNaN = false →
      (∀ sum ∈ [f.logSum, f.logSumWithin cutoff],
        ((sum a b).isNaN = true ↔ a = infinity ∧ b = infinity) ∧
          (¬ (a = infinity ∧ b = infinity) → Sums sum a b)) ∧
      Sums (f.logSumTable cutoff) a b ∧
      ∀ sum ∈ [f.logSum, f.logSumWithin cutoff, f.logSumTable cutoff],
        sum a negInfinity = a ∧ sum negInfinity a = a) ∧
    ∀ a b : Float32,
      (TakesSample cutoff a b → ∃ hindex : tableIndex (gap a b) < f.table.size,
        f.logSumTable cutoff a b = (Score.descending a b).1 + f.table[tableIndex (gap a b)]) ∧
      (¬ TakesSample cutoff a b → f.logSumTable cutoff a b = (Score.descending a b).1) := by
  refine ⟨fun a b ha hb => ⟨?_, ?_, ?_⟩,
    fun a b => ⟨logSumTable_of_takesSample, logSumTable_of_not_takesSample⟩⟩
  · simp only [List.forall_mem_cons, List.not_mem_nil, false_imp_iff, implies_true, and_true]
    refine ⟨sums_or_infinities hf (logSum_eq f) rfl (fun _ => rfl) ha hb,
      sums_or_infinities hf (logSumWithin_eq f cutoff) ?_ (fun hgap => decide_eq_false fun hlt => ?_)
        ha hb⟩
    · simp only [lt_zero_iff]
    · exact Bool.noConfusion (hgap.symm.trans (isNaN_eq_false_of_lt hlt).2)
  · exact sums_of_samples (getD_ofFn_nonneg hf.sample_nonneg) (logSumTable_eq f cutoff) ha hb
  · simp only [List.forall_mem_cons, List.not_mem_nil, false_imp_iff, implies_true, and_true]
    exact ⟨sum_negInfinity (logSum_eq f) ha, sum_negInfinity (logSumWithin_eq f cutoff) ha,
      sum_negInfinity (logSumTable_eq f cutoff) ha⟩

/-- `ln 2`. -/
def logTwo : Float32 :=
  Float32.ofBits 0x3f317218

/-- Zero, and another value from some place on. -/
def step (place value x : Float32) : Float32 :=
  if x.isNaN then notANumber else if place ≤ x then value else 0

section Step

variable {place value : Float32}

theorem step_of_number (hx : x.isNaN = false) :
    step place value x = if place ≤ x then value else 0 := by
  rw [step, hx, if_neg Bool.false_ne_true]

theorem step_nonneg (hvalue : 0 ≤ value) (hx : x.isNaN = false) : 0 ≤ step place value x := by
  rw [step_of_number hx]
  split
  · exact hvalue
  · exact le_self isNaN_zero

theorem step_mono (hvalue : 0 ≤ value) (hxy : x ≤ y) : step place value x ≤ step place value y := by
  have hx := isNaN_eq_false_of_le hxy
  have hy := isNaN_eq_false_of_ge hxy
  by_cases hplace : place ≤ x
  · rw [step_of_number hx, step_of_number hy, if_pos hplace, if_pos (le_trans_of_le hplace hxy)]
    exact le_self (isNaN_eq_false_of_ge hvalue)
  · rw [step_of_number hx, if_neg hplace]
    exact step_nonneg hvalue hy

theorem isNaN_step (hx : x.isNaN = true) : (step place value x).isNaN = true := by
  rw [step, hx, if_pos rfl]
  decide

end Step

/-- Steps that have the values of the functions at zero, at one, at negative infinity and at no number. -/
def steps : Elementary where
  exp := step 0 1
  logOnePlus := step 1 logTwo
  sample i := if i.val = 0 then logTwo else 0

theorem steps_lawful : steps.Lawful where
  exp_negInfinity := by decide
  exp_nonneg hx _ := step_nonneg (by decide) (isNaN_eq_false_of_le hx)
  exp_mono _ hxy _ := step_mono (by decide) hxy
  isNaN_exp := isNaN_step
  logOnePlus_nonneg hx := step_nonneg (by decide) (isNaN_eq_false_of_ge hx)
  logOnePlus_mono _ hxy := step_mono (by decide) hxy
  isNaN_logOnePlus := isNaN_step
  sample_nonneg i := by
    show 0 ≤ if i.val = 0 then logTwo else 0
    split <;> decide

theorem steps_logSums : steps.Lawful ∧ Sums steps.logSum (-logTwo) (-logTwo) ∧
    steps.logSum (-logTwo) (-logTwo) = 0 ∧ Sums (steps.logSumTable 16) infinity infinity ∧
    steps.logSumWithin 16 negInfinity (-logTwo) = -logTwo := by
  have h := (steps_lawful.logSums_of_numbers 16).1
  obtain ⟨hexact, -, hidentity⟩ := h (-logTwo) (-logTwo) (by decide) (by decide)
  exact ⟨steps_lawful, (hexact _ (.head _)).2 (by decide), by decide,
    (h infinity infinity (by decide) (by decide)).2.1, (hidentity _ (.tail _ (.head _))).2⟩

/-- Infinity added to itself. -/
theorem steps_logSum_infinity : steps.Lawful ∧ infinity.isNaN = false ∧ (0 : Float32) < 16 ∧
    (steps.logSum infinity infinity).isNaN = true ∧
    (steps.logSumWithin 16 infinity infinity).isNaN = true :=
  ⟨steps_lawful, by decide, by decide, by decide, by decide⟩

end Elementary

end Binary32

end Constituency
