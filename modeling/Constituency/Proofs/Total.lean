import Mathlib

/-!
# Totals

The weights of the members of a finite set, summed up. A total can be put together along the way its
set is listed: the members are told apart by a key, and each key of a list has a total of its own
(`HasTotal.fibers`).
-/

namespace Constituency

/-- The members of a finite set have weights that sum up to a total. -/
def HasTotal {β R : Type} [AddCommMonoid R] (D : Set β) (weight : β → R) (total : R) : Prop :=
  ∃ F : Finset β, (∀ b, b ∈ F ↔ b ∈ D) ∧ ∑ b ∈ F, weight b = total

namespace HasTotal

variable {β γ δ R : Type} [CommSemiring R] {D E : Set β} {weight : β → R} {x y : R}

theorem empty (weight : β → R) : HasTotal (∅ : Set β) weight 0 :=
  ⟨∅, by simp, by simp⟩

theorem singleton (b : β) (weight : β → R) : HasTotal {b} weight (weight b) :=
  ⟨{b}, by simp, by simp⟩

theorem congr (h : HasTotal D weight x) (hD : ∀ b, b ∈ D ↔ b ∈ E) : HasTotal E weight x := by
  obtain ⟨F, hF, hsum⟩ := h
  exact ⟨F, fun b => (hF b).trans (hD b), hsum⟩

theorem union (hD : HasTotal D weight x) (hE : HasTotal E weight y) (hdisjoint : Disjoint D E) :
    HasTotal (D ∪ E) weight (x + y) := by
  classical
  obtain ⟨F, hF, rfl⟩ := hD
  obtain ⟨G, hG, rfl⟩ := hE
  refine ⟨F ∪ G, fun b => by simp [hF, hG], Finset.sum_union ?_⟩
  rw [Finset.disjoint_left]
  intro b hbF hbG
  exact Set.disjoint_left.1 hdisjoint ((hF b).1 hbF) ((hG b).1 hbG)

theorem extend (hD : HasTotal D weight x) (hsub : D ⊆ E) (hfinite : E.Finite)
    (hzero : ∀ b ∈ E, b ∉ D → weight b = 0) : HasTotal E weight x := by
  obtain ⟨F, hF, rfl⟩ := hD
  refine ⟨hfinite.toFinset, fun b => by simp, (Finset.sum_subset ?_ fun b hb hnot => ?_).symm⟩
  · intro b hb
    rw [Set.Finite.mem_toFinset]
    exact hsub ((hF b).1 hb)
  · rw [Set.Finite.mem_toFinset] at hb
    exact hzero b hb fun hmem => hnot ((hF b).2 hmem)

/-- A factor before every weight is a factor before the total. -/
theorem mul (hD : HasTotal D weight x) (k : R) : HasTotal D (fun b => k * weight b) (k * x) := by
  obtain ⟨F, hF, rfl⟩ := hD
  exact ⟨F, hF, (Finset.mul_sum ..).symm⟩

theorem image {f : β → γ} (hf : Function.Injective f) {weight' : γ → R}
    (hD : HasTotal D (fun b => weight' (f b)) x) : HasTotal (f '' D) weight' x := by
  classical
  obtain ⟨F, hF, rfl⟩ := hD
  exact ⟨F.image f, fun c => by simp [hF], Finset.sum_image fun a _ b _ hab => hf hab⟩

/-- Two sets combined: each member of the second one has a total over the first one. -/
theorem image2 {f : β → γ → δ} {E : Set γ}
    (hf : ∀ b ∈ D, ∀ c ∈ E, ∀ b' ∈ D, ∀ c' ∈ E, f b c = f b' c' → b = b' ∧ c = c')
    {weight' : γ → R} {weight'' : δ → R} {k : R} (hE : HasTotal E weight' y)
    (hD : ∀ c ∈ E, HasTotal D (fun b => weight'' (f b c)) (k * weight' c)) :
    HasTotal (Set.image2 f D E) weight'' (k * y) := by
  classical
  obtain ⟨G, hG, rfl⟩ := hE
  rcases G.eq_empty_or_nonempty with rfl | ⟨c₀, hc₀⟩
  · rw [Finset.sum_empty, mul_zero]
    refine (empty weight'').congr fun d => ⟨fun hd => hd.elim, ?_⟩
    rintro ⟨b, -, c, hc, -⟩
    exact absurd ((hG c).2 hc) (Finset.notMem_empty c)
  · obtain ⟨F, hF, -⟩ := hD c₀ ((hG c₀).1 hc₀)
    refine ⟨(F ×ˢ G).image fun p => f p.1 p.2, fun d => ?_, ?_⟩
    · simp only [Finset.mem_image, Finset.mem_product, Prod.exists, Set.mem_image2, hF, hG, and_assoc]
      exact exists_congr fun b => ⟨fun ⟨c, hb, hc, heq⟩ => ⟨hb, c, hc, heq⟩,
        fun ⟨hb, c, hc, heq⟩ => ⟨c, hb, hc, heq⟩⟩
    · have hinj : Set.InjOn (fun p : β × γ => f p.1 p.2) (F ×ˢ G : Finset (β × γ)) := by
        rintro ⟨b, c⟩ hb ⟨b', c'⟩ hb' heq
        rw [Finset.mem_coe, Finset.mem_product, hF, hG] at hb hb'
        obtain ⟨rfl, rfl⟩ := hf b hb.1 c hb.2 b' hb'.1 c' hb'.2 heq
        rfl
      rw [Finset.sum_image hinj, Finset.sum_product_right, Finset.mul_sum]
      refine Finset.sum_congr rfl fun c hc => ?_
      obtain ⟨F', hF', hsum⟩ := hD c ((hG c).1 hc)
      rw [← hsum, Finset.ext fun b => (hF b).trans (hF' b).symm]

/-- The members are told apart by a key, and the keys are listed once each. -/
theorem fibers {κ : Type} (key : β → Option κ) {keys : List κ} (hnodup : keys.Nodup)
    (hkey : ∀ b ∈ D, ∃ k ∈ keys, key b = some k) {totals : κ → R}
    (h : ∀ k ∈ keys, HasTotal {b | b ∈ D ∧ key b = some k} weight (totals k)) :
    HasTotal D weight (keys.map totals).sum := by
  induction keys generalizing D with
  | nil =>
    refine (empty weight).congr fun b => ⟨fun hb => hb.elim, fun hb => ?_⟩
    obtain ⟨k, hk, -⟩ := hkey b hb
    cases hk
  | cons k rest ih =>
    rw [List.nodup_cons] at hnodup
    have hrest : HasTotal {b | b ∈ D ∧ key b ≠ some k} weight (rest.map totals).sum := by
      refine ih hnodup.2 (fun b hb => ?_) fun k' hk' => ?_
      · obtain ⟨k', hk', heq⟩ := hkey b hb.1
        rcases List.mem_cons.1 hk' with rfl | hk'
        · exact absurd heq hb.2
        · exact ⟨k', hk', heq⟩
      · refine (h k' (List.mem_cons_of_mem _ hk')).congr fun b => ?_
        refine ⟨fun hb => ⟨⟨hb.1, fun heq => hnodup.1 ?_⟩, hb.2⟩, fun hb => ⟨hb.1.1, hb.2⟩⟩
        rw [← Option.some.inj (hb.2.symm.trans heq)]
        exact hk'
    rw [List.map_cons, List.sum_cons]
    refine ((h k List.mem_cons_self).union hrest ?_).congr fun b => ?_
    · exact Set.disjoint_left.2 fun b hb hb' => hb'.2 hb.2
    · constructor
      · rintro (hb | hb)
        · exact hb.1
        · exact hb.1
      · intro hb
        by_cases heq : key b = some k
        · exact .inl ⟨hb, heq⟩
        · exact .inr ⟨hb, heq⟩

/-- Lists of summands are put together like the sets they stand for. -/
theorem flatMap {κ ι : Type} (key : β → Option κ) {keys : List κ} (hnodup : keys.Nodup)
    (hkey : ∀ b ∈ D, ∃ k ∈ keys, key b = some k) {items : κ → List ι} {value : ι → R}
    (h : ∀ k ∈ keys, HasTotal {b | b ∈ D ∧ key b = some k} weight ((items k).map value).sum) :
    HasTotal D weight ((keys.flatMap items).map value).sum := by
  rw [List.map_flatMap, List.flatMap_def, List.sum_flatten, List.map_map]
  exact fibers key hnodup hkey h

/-- A list of summands, of which there is one at most for each key. -/
theorem filterMap {κ ι : Type} (key : β → Option κ) {keys : List κ} (hnodup : keys.Nodup)
    (hkey : ∀ b ∈ D, ∃ k ∈ keys, key b = some k) {item : κ → Option ι} {value : ι → R}
    (h : ∀ k ∈ keys, HasTotal {b | b ∈ D ∧ key b = some k} weight ((item k).elim 0 value)) :
    HasTotal D weight ((keys.filterMap item).map value).sum := by
  rw [List.filterMap_eq_flatMap_toList]
  refine flatMap key hnodup hkey fun k hk => ?_
  have hk := h k hk
  cases hitem : item k with
  | none =>
    rw [hitem] at hk
    simpa using hk
  | some x =>
    rw [hitem] at hk
    simpa using hk

theorem unique (hx : HasTotal D weight x) (hy : HasTotal D weight y) : x = y := by
  obtain ⟨F, hF, rfl⟩ := hx
  obtain ⟨G, hG, rfl⟩ := hy
  rw [Finset.ext fun b => (hF b).trans (hG b).symm]

theorem eq_zero_of_mem (hR : ∀ x y : R, x + y = 0 → x = 0) (hD : HasTotal D weight 0) {b : β}
    (hb : b ∈ D) : weight b = 0 := by
  classical
  obtain ⟨F, hF, hsum⟩ := hD
  rw [← Finset.add_sum_erase F weight ((hF b).2 hb)] at hsum
  exact hR _ _ hsum

theorem le_of_subset [PartialOrder R] [CanonicallyOrderedAdd R] [IsOrderedAddMonoid R]
    (hD : HasTotal D weight x) (hE : HasTotal E weight y) (hsub : D ⊆ E) : x ≤ y := by
  obtain ⟨F, hF, rfl⟩ := hD
  obtain ⟨G, hG, rfl⟩ := hE
  exact Finset.sum_le_sum_of_subset fun b hb => (hG b).2 (hsub ((hF b).1 hb))

theorem eq_zero_iff [PartialOrder R] [CanonicallyOrderedAdd R] (hD : HasTotal D weight x) :
    x = 0 ↔ ∀ b ∈ D, weight b = 0 := by
  obtain ⟨F, hF, rfl⟩ := hD
  rw [Finset.sum_eq_zero_iff]
  exact forall_congr' fun b => by rw [hF]

end HasTotal

end Constituency
