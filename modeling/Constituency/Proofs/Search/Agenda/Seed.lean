import Constituency.Proofs.Search.Agenda.Step

/-!
# The start of an agenda search

The words of a sentence enter the chart first, and what builds on them is queued. The invariant of the
search holds from there on.
-/

namespace Constituency

namespace Agenda

variable {α : Type} [Score α] [MonotoneScore α] {t : Task α} {g : Grammar α} {s : Sentence}

omit [Score α] [MonotoneScore α] in
theorem mem_lexicalEntries {i : Nat} {e : Entry α} :
    (i, e) ∈ lexicalEntries g s ↔ ∃ p word, p ∈ g.productions ∧ p.children = .lexical word ∧
      s.terminal? i = some word ∧ e = ⟨p.parent, p.logProb, .lexical word⟩ := by
  simp only [lexicalEntries, List.mem_flatMap, Prod.exists, List.mem_map, Prod.mk.injEq,
    List.mem_zipIdx_iff_getElem?]
  constructor
  · rintro ⟨terminal, start, hterminal, e, he, rfl, rfl⟩
    cases terminal with
    | none => cases he
    | some word =>
      obtain ⟨p, hp, rfl⟩ := List.mem_map.1 he
      obtain ⟨hmem, hc⟩ := Grammar.mem_byWord.1 hp
      exact ⟨p, word, hmem, hc, by rw [Sentence.terminal?, hterminal]; rfl, rfl⟩
  · rintro ⟨p, word, hmem, hc, hword, rfl⟩
    rw [Sentence.terminal?, Option.join_eq_some_iff] at hword
    exact ⟨some word, i, hword, _, List.mem_map.2 ⟨p, Grammar.mem_byWord.2 ⟨hmem, hc⟩, rfl⟩,
      rfl, rfl⟩

omit [MonotoneScore α] in
theorem chart_seedStep (state : SlotChart α × List (Nat × NonTerminal)) (x : Nat × Entry α) :
    (seedStep state x).1 = (state.1.install x.1 (x.1 + 1) x.2).2 := by
  unfold seedStep
  split <;> next h => rw [h]

omit [MonotoneScore α] in
theorem seeds_seedStep (state : SlotChart α × List (Nat × NonTerminal)) (x : Nat × Entry α) :
    (seedStep state x).2 =
      if (state.1.install x.1 (x.1 + 1) x.2).1 = true then state.2 ++ [(x.1, x.2.nonterminal)]
      else state.2 := by
  unfold seedStep
  split <;> next h => rw [h]; rfl

/-! ## The words -/

/-- What holds of a chart with words, whether or not the arena has had numbers for all of them. -/
structure Sown (g : Grammar α) (s : Sentence) (state : SlotChart α × List (Nat × NonTerminal)) :
    Prop where
  sound : state.1.Sound g
  size_eq : state.1.size = s.size
  lexical : ∀ i j A e, state.1.get? i j A = some e → j = i + 1 ∧ (i, e) ∈ lexicalEntries g s
  filled : ∀ i A, (i, A) ∈ state.2 → Score.impossible < state.1.inside i (i + 1) A

theorem seedStep_sown {state : SlotChart α × List (Nat × NonTerminal)} {i : Nat} {e : Entry α}
    (h : Sown g s state) (hmem : (i, e) ∈ lexicalEntries g s) : Sown g s (seedStep state (i, e)) := by
  obtain ⟨p, word, hp, hc, hword, he⟩ := mem_lexicalEntries.1 hmem
  have hi : i + 1 ≤ state.1.size := h.size_eq ▸ Sentence.lt_size_of_terminal? hword
  have hnt : e.nonterminal < g.numNonterminals := he ▸ Grammar.parent_lt hp
  have hsize := SlotChart.size_install state.1 i (i + 1) e
  have hdone : (state.1.install i (i + 1) e).1 = true → Score.impossible < e.inside ∧
      state.1.inside i (i + 1) e.nonterminal ≤ e.inside := SlotChart.le_of_install h.sound
  have hchart := chart_seedStep state (i, e)
  have hseeds := seeds_seedStep state (i, e)
  obtain ⟨hsound, hcases⟩ := SlotChart.install_changes h.sound (Nat.lt_succ_self i) hi hnt
  generalize seedStep state (i, e) = state' at hchart hseeds ⊢
  dsimp only at hchart hseeds
  generalize (state.1.install i (i + 1) e).2 = c' at hsound hcases hsize hchart
  generalize (state.1.install i (i + 1) e).1 = entered at hdone hcases hseeds
  obtain ⟨chart, seeds⟩ := state'
  dsimp only at hchart hseeds
  subst hchart
  rcases hcases with ⟨rfl, hget⟩ | ⟨rfl, -, hget⟩
  · rw [if_neg (by simp)] at hseeds
    refine ⟨hsound, hsize.trans h.size_eq, fun k l A e' he' => ?_, fun k A hk => ?_⟩
    · exact h.lexical _ _ _ _ ((hget k l A).symm.trans he')
    · rw [hsound.inside_eq, hget, ← h.sound.inside_eq]
      exact h.filled k A (hseeds ▸ hk)
  · rw [if_pos rfl] at hseeds
    obtain ⟨hpos, hle⟩ := hdone rfl
    have hinside := h.sound.inside_eq_of_entered hsound hget
    refine ⟨hsound, hsize.trans h.size_eq, fun k l A e' he' => ?_, fun k A hk => ?_⟩
    · rw [hget] at he'
      split at he'
      · next heq =>
        obtain ⟨rfl, rfl, rfl⟩ := heq
        rw [Option.some.injEq] at he'
        exact ⟨rfl, he' ▸ hmem⟩
      · exact h.lexical _ _ _ _ he'
    · dsimp only
      rw [hinside]
      split
      · exact hpos
      · next hne =>
        rw [hseeds, List.mem_append, List.mem_singleton, Prod.mk.injEq] at hk
        exact h.filled k A (hk.resolve_right fun heq => hne ⟨heq.1, by rw [heq.1], heq.2⟩)

omit [MonotoneScore α] in
theorem sown_empty (g : Grammar α) (s : Sentence) : Sown g s (SlotChart.empty s.size g, []) where
  sound := SlotChart.sound_empty s.size g
  size_eq := rfl
  lexical i j A e he := by rw [SlotChart.get?_empty] at he; cases he
  filled i A hi := by cases hi

theorem seed_sown (g : Grammar α) (s : Sentence) : Sown g s (seed g s) :=
  foldl_prefix_induction (P := fun _ state => Sown g s state) (lexicalEntries g s)
    (fun visited x rest state hsplit hv => seedStep_sown hv (by rw [hsplit]; simp))
    (sown_empty g s)

/-- What holds of a chart with some of the words of a sentence. -/
structure SeedInv (g : Grammar α) (s : Sentence) (visited : List (Nat × Entry α))
    (state : SlotChart α × List (Nat × NonTerminal)) : Prop where
  sound : state.1.Sound g
  size_eq : state.1.size = s.size
  lexical : ∀ i j A e, state.1.get? i j A = some e → j = i + 1 ∧ (i, e) ∈ lexicalEntries g s
  seeded : ∀ i j A e, state.1.get? i j A = some e → (i, A) ∈ state.2
  filled : ∀ i A, (i, A) ∈ state.2 → Score.impossible < state.1.inside i (i + 1) A
  offered : ∀ i e, (i, e) ∈ visited → e.inside ≤ state.1.inside i (i + 1) e.nonterminal

omit [MonotoneScore α] in
theorem SeedInv.sown {visited : List (Nat × Entry α)}
    {state : SlotChart α × List (Nat × NonTerminal)} (h : SeedInv g s visited state) :
    Sown g s state :=
  ⟨h.sound, h.size_eq, h.lexical, h.filled⟩

theorem seedStep_inv {visited : List (Nat × Entry α)}
    {state : SlotChart α × List (Nat × NonTerminal)} {i : Nat} {e : Entry α}
    (h : SeedInv g s visited state) (hmem : (i, e) ∈ lexicalEntries g s)
    (hfits : (seedStep state (i, e)).1.arena.next ≤ UInt32.size) :
    SeedInv g s (visited ++ [(i, e)]) (seedStep state (i, e)) := by
  obtain ⟨p, word, hp, hc, hword, he⟩ := mem_lexicalEntries.1 hmem
  have hi : i + 1 ≤ state.1.size := h.size_eq ▸ Sentence.lt_size_of_terminal? hword
  have hnt : e.nonterminal < g.numNonterminals := he ▸ Grammar.parent_lt hp
  obtain ⟨hsound, hsize, hlexical, hfilled⟩ := seedStep_sown h.sown hmem
  suffices hrest : (∀ k l A e', (seedStep state (i, e)).1.get? k l A = some e' →
      (k, A) ∈ (seedStep state (i, e)).2) ∧
        ∀ x ∈ visited ++ [(i, e)],
          x.2.inside ≤ (seedStep state (i, e)).1.inside x.1 (x.1 + 1) x.2.nonterminal from
    ⟨hsound, hsize, hlexical, hrest.1, hfilled, fun k e' he' => hrest.2 (k, e') he'⟩
  rw [chart_seedStep] at hfits hsound ⊢
  rw [seeds_seedStep, List.forall_mem_append, List.forall_mem_singleton]
  rcases SlotChart.install_cases h.sound (Nat.lt_succ_self i) hi hnt hfits with
    ⟨hsame, hle⟩ | ⟨hdone, -, -, hle, hget⟩
  · rw [hsame, if_neg Bool.false_ne_true]
    exact ⟨h.seeded, fun x hx => h.offered x.1 x.2 hx, hle⟩
  · rw [if_pos hdone]
    refine ⟨fun k l A e' he' => ?_, fun x hx => ?_, ?_⟩
    · rw [hget] at he'
      split at he'
      · next heq => simp [heq]
      · exact List.mem_append_left _ (h.seeded _ _ _ _ he')
    · exact Score.le_trans (h.offered x.1 x.2 hx)
        (h.sound.inside_le_of_entered hsound hget hle _ _ _)
    · rw [h.sound.inside_eq_of_entered hsound hget, if_pos ⟨rfl, rfl, rfl⟩]
      exact Score.le_refl _

/-- The chart with the words, as long as the arena has had numbers for them. -/
theorem seed_inv (g : Grammar α) (s : Sentence)
    (hfits : (seed g s).1.arena.next ≤ UInt32.size) :
    SeedInv g s (lexicalEntries g s) (seed g s) := by
  refine foldl_prefix_induction
    (P := fun visited state => state.1.arena.next ≤ UInt32.size → SeedInv g s visited state)
    (lexicalEntries g s) (fun visited x rest state hsplit hv hle => ?_) (fun _ => ?_) hfits
  · refine seedStep_inv (hv (Nat.le_trans ?_ hle)) (by rw [hsplit]; simp) hle
    rw [chart_seedStep]
    exact SlotChart.next_le_next_install ..
  · obtain ⟨hsound, hsize, hlexical, hfilled⟩ := sown_empty g s
    exact
      { sound := hsound
        size_eq := hsize
        lexical := hlexical
        seeded := fun i j A e he => by rw [SlotChart.get?_empty] at he; cases he
        filled := hfilled
        offered := fun i e he => by cases he }

/-! ## The queue -/

omit [MonotoneScore α] in
/-- The queue at the start of a search holds what builds on the words, and the chart the words. -/
theorem initial_spec (t : Task α) (c : SlotChart α) (seeds : List (Nat × NonTerminal)) :
    (initial t c seeds).chart = c ∧ ∀ e, e ∈ (initial t c seeds).queue.edges ↔
      ∃ i A, (i, A) ∈ seeds ∧ e ∈ frontier t c i (i + 1) A (c.inside i (i + 1) A) := by
  refine foldl_prefix_induction
    (P := fun visited (st : State α) => st.chart = c ∧ ∀ e, e ∈ st.queue.edges ↔
      ∃ i A, (i, A) ∈ visited ∧ e ∈ frontier t c i (i + 1) A (c.inside i (i + 1) A))
    seeds (fun visited x rest st hsplit hv => ?_) ⟨rfl, fun e => ?_⟩
  · obtain ⟨k, B⟩ := x
    obtain ⟨hchart, hqueue⟩ := hv
    refine ⟨hchart, fun e => ?_⟩
    simp only [expand, mem_insertAll, hchart, hqueue, List.mem_append, List.mem_singleton,
      Prod.mk.injEq]
    constructor
    · rintro (he | ⟨i, A, hi, he⟩)
      · exact ⟨k, B, .inr ⟨rfl, rfl⟩, he⟩
      · exact ⟨i, A, .inl hi, he⟩
    · rintro ⟨i, A, hi | ⟨rfl, rfl⟩, he⟩
      · exact .inr ⟨i, A, hi, he⟩
      · exact .inl he
  · simp [Queue.empty]

/-- The clock starts when the words are in the chart. -/
theorem initial_timed (hg : t.grammar = g) (s : Sentence) :
    Timed g s (initial t (seed g s).1 (seed g s).2).chart
      (initial t (seed g s).1 (seed g s).2).queue.edges (fun _ _ _ => 0) 1 := by
  have h := seed_sown g s
  obtain ⟨hchart, hqueue⟩ := initial_spec t (seed g s).1 (seed g s).2
  rw [hchart]
  have hheld : ∀ i j A e, (seed g s).1.get? i j A = some e →
      Justified g s (seed g s).1.inside (fun _ _ _ => 0) i j e := by
    intro i j A e he
    obtain ⟨rfl, hlex⟩ := h.lexical _ _ _ _ he
    obtain ⟨p, word, hp, hc, hword, rfl⟩ := mem_lexicalEntries.1 hlex
    exact ⟨⟨.word p, .word hp hc hword trivial, rfl⟩, ⟨_, .word hp hc hword, Score.le_refl _⟩,
      fun _ hb => by cases hb⟩
  refine ⟨h.sound, h.size_eq, fun _ _ _ => Nat.one_pos, hheld, fun e he => ?_⟩
  obtain ⟨i, A, hseed, he⟩ := (hqueue e).1 he
  refine justified_of_mem_frontier hg (fun i j A e hget => ?_) h.sound (h.filled i A hseed) he
  have hd := (hheld _ _ _ _ hget).derived
  rwa [h.sound.nonterminal_eq hget] at hd

/-- The invariant holds at the start of a search. -/
theorem initial_inv (hg : t.grammar = g) (ht : t.size = s.size)
    (hfits : (seed g s).1.arena.next ≤ UInt32.size) :
    Inv g s (initial t (seed g s).1 (seed g s).2).chart
      (initial t (seed g s).1 (seed g s).2).queue.edges (fun _ _ _ => 0) 1 := by
  obtain ⟨hsound, hsize, hstamp, hheld, hqueued⟩ := initial_timed hg s
  refine ⟨hsound, hsize, hstamp, hheld, hqueued, fun b i j A x happ => ?_⟩
  have h := seed_inv g s hfits
  obtain ⟨hchart, hqueue⟩ := initial_spec t (seed g s).1 (seed g s).2
  rw [hchart] at happ ⊢
  rcases Score.lt_or_ge ((seed g s).1.inside i j A) x with himp | hx
  · cases hb : b.places i j with
    | nil =>
      cases happ with
      | word mem children terminal =>
        left
        exact h.offered _ _ (mem_lexicalEntries.2 ⟨_, _, mem, children, terminal, rfl⟩)
      | unary => cases hb
      | binary => cases hb
    | cons place places =>
      obtain ⟨k, l, B⟩ := place
      have hmem : (k, l, B) ∈ b.places i j := by rw [hb]; exact List.mem_cons_self
      have hpos := happ.possible_of_mem_places hmem
      obtain ⟨e, he⟩ := h.sound.possible_iff.1 hpos
      obtain ⟨rfl, -⟩ := h.lexical _ _ _ _ he
      subst hg
      obtain ⟨e', he', h1, h2, h3, h4⟩ := mem_frontier_of_application h.sound
        (h.size_eq.trans ht.symm) happ hmem himp
      exact .inr ⟨e', (hqueue e').2 ⟨k, B, h.seeded _ _ _ _ he, he'⟩, h1, h2, h3,
        h4 ▸ Score.le_refl _⟩
  · exact .inl hx

end Agenda

end Constituency
