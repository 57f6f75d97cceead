import Constituency.Proofs.Score.Exact

/-!
# Alternatives of which one is possible

A sum over the members of a set says little of a single one of them, unless that is the only possible
one: then the sum is its value, whichever way alternatives are combined (`Tracks`). A score keeps track
of a set so if it is put together along a list of keys that tell the members apart (`Tracks.foldl`).
-/

namespace Constituency

variable {α β κ : Type} [Score α]

/-- The only possible member of a set. -/
structure Only (D : Set β) (value : β → α) (b : β) : Prop where
  mem : b ∈ D
  possible : Score.impossible < value b
  unique : ∀ b' ∈ D, Score.impossible < value b' → b' = b

/-- A score keeps track of a set: it is impossible if all members are, and the value of the only possible
one if there is such a member. -/
structure Tracks (D : Set β) (value : β → α) (x : α) : Prop where
  sound : Score.impossible < x → ∃ b ∈ D, Score.impossible < value b
  only : ∀ b, Only D value b → x = value b

variable {D E : Set β} {value : β → α} {b : β} {x y : α} {acc : Accumulator α}

theorem Only.mono (h : Only D value b) (hsub : E ⊆ D) (hb : b ∈ E) : Only E value b where
  mem := hb
  possible := h.possible
  unique b' hb' := h.unique b' (hsub hb')

/-- A part of the only possible member is the only possible one where all others would make another
member. -/
theorem Only.of_map {γ : Type} {F : Set γ} {value' : γ → α} {f : β → γ} (h : Only F value' (f b))
    (hinj : Function.Injective f) (hb : b ∈ D) (hpos : Score.impossible < value b)
    (hmap : ∀ b' ∈ D, Score.impossible < value b' → f b' ∈ F ∧ Score.impossible < value' (f b')) :
    Only D value b where
  mem := hb
  possible := hpos
  unique b' hb' hpos' := by
    obtain ⟨hmem, hval⟩ := hmap b' hb' hpos'
    exact hinj (h.unique _ hmem hval)

section Monotone

variable [MonotoneScore α]

/-- Impossible alternatives are passed over. -/
theorem foldl_combine_of_not_possible {xs : List α} (h : ∀ y ∈ xs, ¬ Score.impossible < y) :
    xs.foldl acc.combine x = x := by
  induction xs with
  | nil => rfl
  | cons y rest ih =>
    rw [List.foldl_cons, acc.combine_of_not_possible_right (h y List.mem_cons_self)]
    apply ih
    intro z hz
    exact h z (List.mem_cons_of_mem _ hz)

theorem possible_of_foldl_combine {xs : List α} (h : Score.impossible < xs.foldl acc.combine x) :
    Score.impossible < x ∨ ∃ y ∈ xs, Score.impossible < y := by
  by_contra hnone
  rw [not_or, not_exists] at hnone
  obtain ⟨hx, hxs⟩ := hnone
  rw [foldl_combine_of_not_possible fun y hy hpos => hxs y ⟨hy, hpos⟩] at h
  exact hx h

/-- The one possible alternative of a list is what the list adds up to. -/
theorem foldl_combine_eq {keys : List κ} {val : κ → α} (hnodup : keys.Nodup)
    (hx : ¬ Score.impossible < x) {k : κ} (hk : k ∈ keys) (hpos : Score.impossible < val k)
    (hothers : ∀ k' ∈ keys, Score.impossible < val k' → k' = k) :
    (keys.map val).foldl acc.combine x = val k := by
  obtain ⟨before, after, rfl⟩ := List.append_of_mem hk
  have hne : ∀ k' ∈ before ++ after, ¬ Score.impossible < val k' := by
    intro k' hk' hpos'
    have hmem : k' ∈ before ++ k :: after := by
      rw [List.mem_append, List.mem_cons]
      rw [List.mem_append] at hk'
      tauto
    rw [hothers k' hmem hpos', List.mem_append] at hk'
    obtain ⟨-, hafter, hbefore⟩ := List.nodup_append.1 hnodup
    rcases hk' with hk' | hk'
    · exact hbefore k hk' k List.mem_cons_self rfl
    · exact (List.nodup_cons.1 hafter).1 hk'
  have hbefore : (before.map val).foldl acc.combine x = x :=
    foldl_combine_of_not_possible (by simpa using fun k' hk' => hne k' (by simp [hk']))
  rw [List.map_append, List.map_cons, List.foldl_append, List.foldl_cons, hbefore,
    acc.combine_of_not_possible_left hx hpos]
  exact foldl_combine_of_not_possible (by simpa using fun k' hk' => hne k' (by simp [hk']))

namespace Tracks

omit [MonotoneScore α] in
theorem congr (h : Tracks D value x) (hD : ∀ b, b ∈ D ↔ b ∈ E) : Tracks E value x := by
  rwa [← Set.ext hD]

theorem empty (value : β → α) : Tracks (∅ : Set β) value Score.impossible where
  sound hpos := absurd hpos Score.not_impossible_lt_impossible
  only _ h := h.mem.elim

omit [MonotoneScore α] in
theorem singleton (b : β) (value : β → α) : Tracks {b} value (value b) where
  sound hpos := ⟨b, rfl, hpos⟩
  only b' h := by rw [Set.mem_singleton_iff.1 h.mem]

omit [MonotoneScore α] in
theorem not_possible (h : Tracks D value x) (hnone : ∀ b ∈ D, ¬ Score.impossible < value b) :
    ¬ Score.impossible < x := by
  intro hpos
  obtain ⟨b, hb, hposb⟩ := h.sound hpos
  exact hnone b hb hposb

/-- What is the only possible member of two sets without common members is so in one of them, and the
other one has none. -/
theorem union (hD : Tracks D value x) (hE : Tracks E value y) (hdisjoint : Disjoint D E) :
    Tracks (D ∪ E) value (acc.combine x y) where
  sound hpos := by
    by_cases hx : Score.impossible < x
    · obtain ⟨b, hb, hposb⟩ := hD.sound hx
      exact ⟨b, .inl hb, hposb⟩
    · obtain ⟨b, hb, hposb⟩ := hE.sound <| by
        by_contra hy
        exact acc.not_possible_combine hx hy hpos
      exact ⟨b, .inr hb, hposb⟩
  only b h := by
    rcases h.mem with hb | hb
    · have hy := hE.not_possible fun b' hb' hpos' =>
        Set.disjoint_left.1 hdisjoint hb (h.unique b' (.inr hb') hpos' ▸ hb')
      rw [acc.combine_of_not_possible_right hy]
      exact hD.only b (h.mono Set.subset_union_left hb)
    · have hx := hD.not_possible fun b' hb' hpos' =>
        Set.disjoint_left.1 hdisjoint (h.unique b' (.inl hb') hpos' ▸ hb') hb
      have hyb := hE.only b (h.mono Set.subset_union_right hb)
      rw [acc.combine_of_not_possible_left hx (hyb ▸ h.possible), hyb]

/-- A list of alternatives adds the members that its keys stand for. -/
theorem foldl {keys : List κ} {val : κ → α} (key : β → Option κ) (hD : Tracks D value x)
    (hdisjoint : Disjoint D E) (hnodup : keys.Nodup)
    (hsound : ∀ k ∈ keys, Score.impossible < val k →
      ∃ b ∈ E, Score.impossible < value b ∧ key b = some k)
    (honly : ∀ b, Only E value b → ∃ k ∈ keys, key b = some k ∧ val k = value b) :
    Tracks (D ∪ E) value ((keys.map val).foldl acc.combine x) where
  sound hpos := by
    rcases possible_of_foldl_combine hpos with hx | ⟨y, hy, hposy⟩
    · obtain ⟨b, hb, hposb⟩ := hD.sound hx
      exact ⟨b, .inl hb, hposb⟩
    · obtain ⟨k, hk, rfl⟩ := List.mem_map.1 hy
      obtain ⟨b, hb, hposb, -⟩ := hsound k hk hposy
      exact ⟨b, .inr hb, hposb⟩
  only b h := by
    rcases h.mem with hb | hb
    · rw [foldl_combine_of_not_possible]
      · exact hD.only b (h.mono Set.subset_union_left hb)
      · intro y hy hposy
        obtain ⟨k, hk, rfl⟩ := List.mem_map.1 hy
        obtain ⟨b', hb', hposb', -⟩ := hsound k hk hposy
        exact Set.disjoint_left.1 hdisjoint hb (h.unique b' (.inr hb') hposb' ▸ hb')
    · have hx := hD.not_possible fun b' hb' hpos' =>
        Set.disjoint_left.1 hdisjoint (h.unique b' (.inl hb') hpos' ▸ hb') hb
      obtain ⟨k, hk, hkey, hval⟩ := honly b (h.mono Set.subset_union_right hb)
      rw [foldl_combine_eq hnodup hx hk (hval ▸ h.possible), hval]
      intro k' hk' hposk'
      obtain ⟨b', hb', hposb', hkey'⟩ := hsound k' hk' hposk'
      rw [h.unique b' (.inr hb') hposb', hkey] at hkey'
      exact (Option.some.inj hkey').symm

theorem total {keys : List κ} {val : κ → α} (key : β → Option κ) (hnodup : keys.Nodup)
    (hsound : ∀ k ∈ keys, Score.impossible < val k →
      ∃ b ∈ E, Score.impossible < value b ∧ key b = some k)
    (honly : ∀ b, Only E value b → ∃ k ∈ keys, key b = some k ∧ val k = value b) :
    Tracks E value ((keys.map val).foldl acc.combine Score.impossible) := by
  refine ((empty value).foldl key (Set.empty_disjoint E) hnodup hsound honly).congr fun b => ?_
  rw [Set.empty_union]

omit [MonotoneScore α] in
/-- A score keeps track of more members if the only possible one would have to be an old one. -/
theorem extend (h : Tracks E value x) (hsub : E ⊆ D)
    (hold : ∀ b, Only D value b → b ∈ E) : Tracks D value x where
  sound hpos := by
    obtain ⟨b, hb, hposb⟩ := h.sound hpos
    exact ⟨b, hsub hb, hposb⟩
  only b hb := h.only b (hb.mono hsub (hold b hb))

end Tracks

end Monotone

end Constituency
