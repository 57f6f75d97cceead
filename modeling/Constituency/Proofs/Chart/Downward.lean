import Constituency.Proofs.Chart.Possible
import Constituency.Proofs.Score.Exact

/-!
# What is possible outside is passed down

If an entry has a possible outside score, then so have the children of every possible rule over it, as far
as they are entries and their sisters possible. That holds even where unary rules run in circles and a
chain of them is cut off: a symbol that a chain leads to is also led to by one without detours, which is
shorter than the row (`exists_steps_lt`), so that one more rule still finds a level of the pass
(`possible_completed_iff`).
-/

namespace Constituency

/-! ## Steps -/

/-- What a number of steps lead to. -/
def Steps {β : Type} (R : β → β → Prop) (start : β → Prop) : Nat → β → Prop
  | 0, b => start b
  | n + 1, b => ∃ a, Steps R start n a ∧ R a b

section Steps

variable {β : Type} {R : β → β → Prop} {start : β → Prop} {n : Nat} {a b : β}

theorem exists_steps_iff :
    (∃ n, Steps R start n b) ↔ ∃ a, start a ∧ Relation.ReflTransGen R a b := by
  constructor
  · rintro ⟨n, h⟩
    induction n generalizing b with
    | zero => exact ⟨b, h, .refl⟩
    | succ n ih =>
      obtain ⟨c, hc, hcb⟩ := h
      obtain ⟨a, ha, hac⟩ := ih hc
      exact ⟨a, ha, hac.tail hcb⟩
  · rintro ⟨a, ha, hab⟩
    induction hab with
    | refl => exact ⟨0, ha⟩
    | tail _ hcb ih =>
      obtain ⟨n, hn⟩ := ih
      exact ⟨n + 1, _, hn, hcb⟩

/-- The members on a shortest way are all different. -/
theorem exists_nodup_of_steps (h : Steps R start n b) (hleast : ∀ k < n, ¬ Steps R start k b) :
    ∃ way : List β, way.length = n + 1 ∧ way.Nodup ∧ ∀ a ∈ way, ∃ k ≤ n, Steps R start k a := by
  induction n generalizing b with
  | zero => exact ⟨[b], rfl, List.nodup_singleton b, by simpa using h⟩
  | succ n ih =>
    obtain ⟨a, ha, hab⟩ := h
    obtain ⟨way, hlength, hnodup, hway⟩ := ih ha fun k hk hka =>
      hleast (k + 1) (Nat.succ_lt_succ hk) ⟨a, hka, hab⟩
    refine ⟨b :: way, by rw [List.length_cons, hlength],
      List.nodup_cons.2 ⟨fun hb => ?_, hnodup⟩, fun c hc => ?_⟩
    · obtain ⟨k, hk, hkb⟩ := hway b hb
      exact hleast k (Nat.lt_succ_of_le hk) hkb
    · rcases List.mem_cons.1 hc with rfl | hc
      · exact ⟨n + 1, Nat.le_refl _, a, ha, hab⟩
      · obtain ⟨k, hk, hkc⟩ := hway c hc
        exact ⟨k, Nat.le_succ_of_le hk, hkc⟩

/-- Among so many members no more steps than that are needed. -/
theorem exists_steps_lt {members : List β} (hmem : ∀ n b, Steps R start n b → b ∈ members)
    (h : Steps R start n b) : ∃ k < members.length, Steps R start k b := by
  classical
  have hex : ∃ n, Steps R start n b := ⟨n, h⟩
  obtain ⟨way, hlength, hnodup, hway⟩ :=
    exists_nodup_of_steps (Nat.find_spec hex) fun k hk => Nat.find_min hex hk
  have hle : way.length ≤ members.length := (hnodup.subperm fun a ha => by
    obtain ⟨k, -, hka⟩ := hway a ha
    exact hmem k a hka).length_le
  exact ⟨Nat.find hex, by omega, Nat.find_spec hex⟩

end Steps

namespace PackedChart

variable {α : Type} [Score α] [LosslessScore α] {acc : Accumulator α} {g : Grammar α}
  {c c' : PackedChart α} {i j : Nat} {A B : NonTerminal} {p : Production α}

/-! ## Levels -/

theorem exists_of_possible_total {xs : List α} (h : Score.impossible < total acc xs) :
    ∃ x ∈ xs, Score.impossible < x := by
  by_contra hnone
  push Not at hnone
  refine absurd h (foldl_prefix_induction (P := fun _ sum => ¬ Score.impossible < sum) xs
    (fun visited x rest sum hsplit hsum => ?_) Score.not_impossible_lt_impossible)
  exact acc.not_possible_combine hsum (hnone x (hsplit ▸ by simp))

/-- What holds of all that is possible at the lowest level, and of the next level if it does of a level,
holds of all that is possible at some level. -/
theorem of_possible_addScores {next : (NonTerminal → α) → NonTerminal → α}
    {symbols : List NonTerminal} {Q : NonTerminal → Prop}
    (hnext : ∀ level, (∀ A, Score.impossible < level A → Q A) →
      ∀ A, Score.impossible < next level A → Q A) (steps : Nat) {level sums : NonTerminal → α}
    (hlevel : ∀ A, Score.impossible < level A → Q A)
    (hsums : ∀ A, Score.impossible < sums A → Q A)
    (hA : Score.impossible < addScores acc next symbols steps level sums A) : Q A := by
  induction steps generalizing level sums with
  | zero => exact hsums A hA
  | succ steps ih =>
    rw [addScores] at hA
    split at hA
    · exact hsums A hA
    · refine ih (hnext level hlevel) (fun B hB => ?_) hA
      by_contra hQ
      exact acc.not_possible_combine (fun hpos => hQ (hsums B hpos))
        (fun hpos => hQ (hnext level hlevel B hpos)) hB

/-- A possible unary rule leads from an entry of a cell down to a symbol. -/
def Down (g : Grammar α) (c : PackedChart α) (i j : Nat) (A B : NonTerminal) : Prop :=
  A ∈ c.symbols i j ∧ B ∈ c.symbols i j ∧
    ∃ p ∈ g.productions, p.parent = A ∧ p.children = .unary B ∧ Score.impossible < p.logProb

theorem possible_downScore_iff {symbols : List NonTerminal} {level : NonTerminal → α} :
    Score.impossible < downScore acc g symbols level B ↔
      ∃ p ∈ g.productions, p.children = .unary B ∧ Score.impossible < p.logProb ∧
        p.parent ∈ symbols ∧ Score.impossible < level p.parent := by
  constructor
  · intro h
    obtain ⟨x, hx, hpos⟩ := exists_of_possible_total h
    obtain ⟨p, hp, hrule⟩ := List.mem_filterMap.1 hx
    obtain ⟨hp, hpc⟩ := Grammar.mem_byUnaryChild.1 hp
    split at hrule
    · next hparent =>
      obtain rfl := Option.some.inj hrule
      exact ⟨p, hp, hpc, (Score.impossible_lt_of_add hpos).2, hparent⟩
    · cases hrule
  · rintro ⟨p, hp, hpc, hrule, hparent, hlevel⟩
    exact possible_downScore hp hpc hrule hparent hlevel

/-- What is possible in a completed cell is what unary rules lead down to from something that has been
possible before. -/
theorem possible_completed_iff (hc : c.Sound g) (hB : B ∈ c.symbols i j) :
    Score.impossible < completed acc c g i j B ↔
      ∃ A ∈ c.symbols i j, Score.impossible < c.outside i j A ∧
        Relation.ReflTransGen (Down g c i j) A B := by
  have hbase : ∀ A, Score.impossible < c.outside i j A → A ∈ c.symbols i j := by
    intro A hA
    by_contra hdead
    rw [outside_of_not_mem hc hdead] at hA
    exact Score.not_impossible_lt_impossible hA
  constructor
  · refine fun h => of_possible_addScores (Q := fun B => B ∈ c.symbols i j → ∃ A ∈ c.symbols i j,
      Score.impossible < c.outside i j A ∧ Relation.ReflTransGen (Down g c i j) A B)
      (fun level hlevel B hpos hB => ?_) _ (fun A hA hmem => ⟨A, hmem, hA, .refl⟩)
      (fun A hA hmem => ⟨A, hmem, hA, .refl⟩) h hB
    obtain ⟨p, hp, hpc, hrule, hparent, hup⟩ := possible_downScore_iff.1 hpos
    obtain ⟨A, hA, hstart, hway⟩ := hlevel p.parent hup hparent
    exact ⟨A, hA, hstart, hway.tail ⟨hparent, hB, p, hp, rfl, hpc, hrule⟩⟩
  · rintro ⟨A, hA, hstart, hway⟩
    have hmem : ∀ n B, Steps (Down g c i j) (fun A => Score.impossible < c.outside i j A) n B →
        B ∈ c.symbols i j := by
      intro n B hB
      cases n with
      | zero => exact hbase B hB
      | succ n =>
        obtain ⟨A, -, hdown⟩ := hB
        exact hdown.2.1
    have hreached : ∃ n, Steps (Down g c i j) (fun A => Score.impossible < c.outside i j A) n B :=
      exists_steps_iff.2 ⟨A, hstart, hway⟩
    obtain ⟨n, hn⟩ := hreached
    obtain ⟨k, hk, hsteps⟩ := exists_steps_lt hmem hn
    refine possible_addScores (Steps (Down g c i j) fun A => Score.impossible < c.outside i j A)
      (fun n level hlevel B hB => ?_) (fun n B hB => hB.imp fun A h => h.1) hmem (n := 0)
      (fun _ => id) (fun _ => id) k (Nat.le_of_lt hk) (.inl (by rwa [Nat.zero_add]))
    obtain ⟨A, hA, -, -, p, hp, rfl, hpc, hrule⟩ := hB
    exact possible_downScore hp hpc hrule (hmem n _ hA) (hlevel _ hA)

/-! ## Cells -/

omit [LosslessScore α] in
theorem length_lt_of_mem_binaryOutside {x : Contribution α} (hx : x ∈ c.binaryOutside g i j) :
    x.stop - x.start < j - i := by
  obtain ⟨m, hm, hx⟩ := List.mem_flatMap.1 hx
  obtain ⟨⟨left, leftInside⟩, -, hx⟩ := List.mem_flatMap.1 hx
  obtain ⟨p, -, hx⟩ := List.mem_flatMap.1 hx
  rw [mem_midpoints] at hm
  split at hx
  · dsimp only at hx
    split at hx
    · cases hx
    · simp only [List.mem_cons, List.not_mem_nil, or_false] at hx
      rcases hx with rfl | rfl <;> dsimp only <;> omega
  · cases hx

omit [LosslessScore α] in
/-- The visit of a cell leaves the outside scores over other spans as long as its own as they are. -/
theorem outside_passDown_of_le (hc : c.Sound g) {k l : Nat} (hA : A ∈ c.symbols k l)
    (hlong : j - i ≤ l - k) :
    (passDown acc g c (i, j)).outside k l A = (complete acc g c i j).outside k l A := by
  rw [(passDown_spec acc hc i j).2 k l A hA]
  refine foldl_prefix_induction (P := fun _ x => x = (complete acc g c i j).outside k l A) _
    (fun visited x rest y hsplit hy => ?_) rfl
  have hshort := length_lt_of_mem_binaryOutside (c := complete acc g c i j) (g := g) (i := i)
    (j := j) (x := x) (hsplit ▸ by simp)
  rw [receive, if_neg, hy]
  rintro ⟨⟨rfl, rfl, -⟩, -⟩
  omega

/-- What is possible outside over some spans has been passed down from there. -/
structure PassedDown (g : Grammar α) (c : PackedChart α) (visited : List (Nat × Nat))
    (c' : PackedChart α) : Prop where
  same : SameInside c c'
  unary : ∀ i j A B, (i, j) ∈ visited → Down g c i j A B →
    Score.impossible < c'.outside i j A → Score.impossible < c'.outside i j B
  hands : ∀ u v, (u.1, u.2.1) ∈ visited → Hands g c u v →
    Score.impossible < c'.outside u.1 u.2.1 u.2.2 → Score.impossible < c'.outside v.1 v.2.1 v.2.2

omit [LosslessScore α] in
theorem mem_symbols_of_outside (hc : c.Sound g) (hpos : Score.impossible < c.outside i j A) [MonotoneScore α] :
    A ∈ c.symbols i j := by
  by_contra hdead
  rw [outside_of_not_mem hc hdead] at hpos
  exact Score.not_impossible_lt_impossible hpos

theorem PassedDown.passDown (hc : c.Sound g) {visited : List (Nat × Nat)}
    (hv : PassedDown g c visited c') (hnew : (i, j) ∉ visited)
    (hshort : ∀ k l, (k, l) ∈ visited → j - i ≤ l - k) :
    PassedDown g c (visited ++ [(i, j)]) (passDown acc g c' (i, j)) := by
  have hc' := hv.same.sound hc
  have hcomplete := hv.same.trans (sameInside_complete acc (hv.same.sound hc) i j)
  have hsame := hv.same.trans (passDown_spec acc hc' i j).1
  have hsymbols : ∀ k l, c'.symbols k l = c.symbols k l := hv.same.symbols_eq
  generalize hlater : PackedChart.passDown acc g c' (i, j) = later at hsame
  have hmem : ∀ {k l A}, Score.impossible < later.outside k l A → A ∈ c'.symbols k l := by
    intro k l A hA
    have hA := mem_symbols_of_outside (hsame.sound hc) hA
    rwa [hsame.symbols_eq, ← hsymbols] at hA
  -- over the spans visited before nothing changes
  have hold : ∀ k l A, (k, l) ∈ visited → A ∈ c'.symbols k l →
      later.outside k l A = c'.outside k l A := by
    intro k l A hkl hA
    rw [← hlater, outside_passDown_of_le hc' hA (hshort k l hkl), outside_complete hc' i j hA,
      if_neg]
    rintro ⟨rfl, rfl⟩
    exact hnew hkl
  have hhere : ∀ A ∈ c'.symbols i j, later.outside i j A = completed acc c' g i j A := by
    intro A hA
    rw [← hlater, outside_passDown_of_le hc' hA (Nat.le_refl _), outside_complete hc' i j hA,
      if_pos ⟨rfl, rfl⟩]
  have hdown : ∀ k l A B, Down g c k l A B → Down g c' k l A B := by
    intro k l A B h
    rwa [Down, hsymbols]
  refine ⟨hsame, fun k l A B hkl h hA => ?_, fun u v hu h hA => ?_⟩
  · have hAmem := hmem hA
    have hBmem : B ∈ c'.symbols k l := (hdown k l A B h).2.1
    rw [List.mem_append, List.mem_singleton, Prod.mk.injEq] at hkl
    rcases hkl with hkl | ⟨rfl, rfl⟩
    · rw [hold k l A hkl hAmem] at hA
      rw [hold k l B hkl hBmem]
      exact hv.unary k l A B hkl h hA
    · rw [hhere A hAmem, possible_completed_iff hc' hAmem] at hA
      obtain ⟨top, htop, hpos, hway⟩ := hA
      rw [hhere B hBmem, possible_completed_iff hc' hBmem]
      exact ⟨top, htop, hpos, hway.tail (hdown k l A B h)⟩
  · have hu' := hmem hA
    have hv' : v.2.2 ∈ c'.symbols v.1 v.2.1 := by
      rw [hsymbols]
      exact h.mem_symbols hc
    rw [← hlater]
    refine possible_passDown hc' hv' ?_
    rw [List.mem_append, List.mem_singleton, Prod.mk.injEq] at hu
    rcases hu with hu | ⟨rfl, rfl⟩
    · rw [hold _ _ _ hu hu'] at hA
      exact .inl (possible_complete hc' i j hv' (hv.hands u v hu h hA))
    · refine .inr (h.exists_contribution hc hcomplete ?_)
      rw [outside_complete hc' _ _ hu', if_pos ⟨rfl, rfl⟩, ← hhere _ hu']
      exact hA

/-- In a chart with outside scores all that is possible outside has been passed down. -/
theorem passedDown_surround (acc : Accumulator α) (hc : c.Sound g) :
    PassedDown g c (spansDown c.size) (c.surround acc g) :=
  spansDown_induction
    ⟨(unsurrounded_spec hc).1, fun _ _ _ _ hmem => absurd hmem List.not_mem_nil,
      fun _ _ hmem => absurd hmem List.not_mem_nil⟩
    fun _ _ _ _ _ _ hnew _ hshort hv => hv.passDown hc hnew hshort

end PackedChart

end Constituency
