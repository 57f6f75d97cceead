import Constituency.Proofs.Search.Settled
import Mathlib.Data.Finset.Card

/-!
# Beam search with room for everything

A beam search that ranks by score, lets no edge fall too far below the best, and may commit as many edges
of a cell as there are symbols, loses nothing. Since the queue goes from better to worse and no rule
is a gain, what comes later is never better than what has been committed (`Falling.capped`), so that
each symbol is committed at most once. When the width is used up, every symbol has its entry, and what still
waits is no improvement.
-/

namespace Constituency

variable {α : Type} [Score α] {g : Grammar α} {s : Sentence} {c : Chart α} {cell : Scratch α}
  {i j : Nat} {A : NonTerminal}

/-! ## Symbols of a cell -/

/-- The symbols that a cell has entries of. -/
def Scratch.taken (cell : Scratch α) : Finset NonTerminal :=
  (Finset.range cell.held.size).filter fun A => (cell.find? A).isSome = true

omit [Score α] in
theorem Scratch.mem_taken : A ∈ cell.taken ↔ (cell.find? A).isSome = true := by
  rw [taken, Finset.mem_filter, Finset.mem_range, and_iff_right_iff_imp]
  intro hA
  obtain ⟨held, hheld⟩ := Option.isSome_iff_exists.1 hA
  exact lt_size_of_find? hheld

omit [Score α] in
/-- A cell with as many entries as there are symbols has one of each. -/
theorem Scratch.isSome_find?_of_card (hcard : cell.held.size ≤ cell.taken.card)
    (hA : A < cell.held.size) : (cell.find? A).isSome = true := by
  have hall : cell.taken = Finset.range cell.held.size :=
    Finset.eq_of_subset_of_card_le (Finset.filter_subset _ _) (by rwa [Finset.card_range])
  rw [← mem_taken, hall, Finset.mem_range]
  exact hA

/-- A symbol that is new to a cell is one more. -/
theorem Scratch.card_taken_add {e : Entry α} (hnt : e.nonterminal < cell.held.size)
    (hnew : cell.find? e.nonterminal = none) (hadm : Score.admissible e.inside = true) :
    (cell.add .best e).taken.card = cell.taken.card + 1 := by
  have hinsert : (cell.add .best e).taken = insert e.nonterminal cell.taken := by
    ext A
    rw [Finset.mem_insert, mem_taken, mem_taken, isSome_find?_add hnt, eq_comm]
    simp [hadm]
  rw [hinsert, Finset.card_insert_of_notMem]
  rw [mem_taken, hnew]
  simp

/-! ## Queues from better to worse -/

namespace Queue

variable [MonotoneScore α] {edges : List (Edge α)} {e : Edge α}

/-- Edges whose merits never rise. -/
abbrev Descending (edges : List (Edge α)) : Prop :=
  edges.Pairwise fun x y => y.merit ≤ x.merit

theorem descending_place (h : Descending edges) : Descending (place e edges) := by
  induction edges with
  | nil => exact List.pairwise_singleton _ _
  | cons x rest ih =>
    obtain ⟨hx, hrest⟩ := List.pairwise_cons.1 h
    unfold place
    split
    · next hout =>
      have hle := MonotoneScore.le_of_outranks hout
      refine List.pairwise_cons.2 ⟨fun y hy => ?_, h⟩
      rcases List.mem_cons.1 hy with rfl | hy
      · exact hle
      · exact Score.le_trans (hx y hy) hle
    · next hnot =>
      refine List.pairwise_cons.2 ⟨fun y hy => ?_, ih hrest⟩
      rcases List.mem_cons.1 ((place_perm e rest).mem_iff.1 hy) with rfl | hy
      · exact Score.not_lt.1 fun hlt => hnot (MonotoneScore.outranks_of_lt hlt)
      · exact hx y hy

theorem descending_insertAll {q : Queue α} (h : Descending q.edges) (edges : List (Edge α)) :
    Descending (q.insertAll edges).edges := by
  induction edges generalizing q with
  | nil => exact h
  | cons e rest ih => exact ih (descending_place h)

end Queue

namespace Beam

variable [MonotoneScore α] {t : Task α} {st : CellState α} {e : Edge α}
  {dropped rest : List (Edge α)} {width : Nat}

/-! ## One cell -/

omit [MonotoneScore α] in
theorem Timed.proper (h : Timed g s c i j st) : st.cell.Proper g i j := by
  obtain ⟨stamp, now, hclocked⟩ := h.clocked
  exact hclocked.toProper

theorem present_le_overlay (hcell : cell.Proper g i j) (habove : c.Above cell)
    (hstart : e.start = i) (hstop : e.stop = j) :
    present c cell e ≤ c.overlay cell i j e.nonterminal := by
  rw [present, hstart, hstop]
  rcases Score.best_eq_left_or_right (cell.inside e.nonterminal)
    (c.inside i j e.nonterminal) with h | h
  · rw [h]
    exact hcell.inside_le_overlay _
  · rw [h]
    exact habove.le_overlay _ _ _

/-- Edges that are dropped are no improvement. -/
theorem Timed.le_overlay (h : Timed g s c i j st) (he : e ∈ st.queue)
    (hdropped : e.inside ≤ present c st.cell e) :
    e.inside ≤ c.overlay st.cell i j e.nonterminal := by
  obtain ⟨stamp, now, hclocked⟩ := h.clocked
  obtain ⟨hstart, hstop⟩ := (h.queued e he).1
  exact Score.le_trans hdropped (present_le_overlay hclocked.toProper hclocked.above hstart hstop)

/-- An improvement takes its place in the cell. -/
theorem Timed.find?_add (h : Timed g s c i j st) (he : e ∈ st.queue)
    (himp : ¬ e.inside ≤ present c st.cell e) (A : NonTerminal) :
    (st.cell.add .best e.toEntry).find? A =
      if A = e.nonterminal then some ⟨e.inside, e.inside, e.backpointer⟩ else st.cell.find? A := by
  obtain ⟨stamp, now, hclocked⟩ := h.clocked
  obtain ⟨⟨hstart, hstop⟩, hwarranted⟩ := h.queued e he
  have hnt : e.nonterminal < st.cell.held.size := hclocked.size_eq ▸ hwarranted.bounds.2.2
  have hlt : c.overlay st.cell i j e.nonterminal < e.inside :=
    Score.lt_of_le_of_lt (overlay_le_present hclocked.toProper hstart hstop) (Score.not_le.1 himp)
  exact Scratch.find?_add_of_lt (e := e.toEntry) hclocked.tight hnt
    (Score.lt_of_le_of_lt (hclocked.inside_le_overlay (c := c) _) hlt) A

/-- A queue by score, from better to worse, that holds nothing better than what has been committed. -/
structure Falling (st : CellState α) : Prop where
  merit_eq : ∀ e ∈ st.queue, e.merit = e.inside
  descending : Queue.Descending st.queue
  capped : ∀ A h, st.cell.find? A = some h → ∀ e ∈ st.queue, e.inside ≤ h.inside

/-- What is committed is new to the cell. -/
theorem Falling.find?_eq_none (h : Falling st) (htimed : Timed g s c i j st) (he : e ∈ st.queue)
    (himp : ¬ e.inside ≤ present c st.cell e) : st.cell.find? e.nonterminal = none := by
  obtain ⟨⟨hstart, hstop⟩, -⟩ := htimed.queued e he
  rw [Option.eq_none_iff_forall_ne_some]
  intro held hheld
  have hle := h.capped _ held hheld e he
  rw [← htimed.proper.overlay_of_find? (c := c) hheld] at hle
  exact himp (Score.le_trans hle (overlay_le_present htimed.proper hstart hstop))

omit [MonotoneScore α] in
/-- What waits behind an edge is no better. -/
theorem Falling.behind (h : Falling st) (hqueue : st.queue = dropped ++ e :: rest) :
    Queue.Descending rest ∧ ∀ e' ∈ rest, e'.inside ≤ e.inside := by
  have hdesc := h.descending
  rw [hqueue, Queue.Descending, List.pairwise_append, List.pairwise_cons] at hdesc
  refine ⟨hdesc.2.1.2, fun e' he' => ?_⟩
  rw [← h.merit_eq e (by simp [hqueue]), ← h.merit_eq e' (by simp [hqueue, he'])]
  exact hdesc.2.1.1 e' he'

/-- No rule is a gain, so that the unary parents of the best edge are no better than it. -/
theorem Falling.commitEdge (hnonpos : ∀ p ∈ g.productions, p.logProb ≤ 0) (hg : t.grammar = g)
    (hmerit : ∀ i j A x, t.merit.score i j A x = x) (h : Falling st)
    (htimed : Timed g s c i j st) (hqueue : st.queue = dropped ++ e :: rest)
    (himp : ¬ e.inside ≤ present c st.cell e) (best : α) :
    Falling (Beam.commitEdge t st e rest best) := by
  have he : e ∈ st.queue := by
    rw [hqueue]
    simp
  have hrest : ∀ e' ∈ rest, e' ∈ st.queue := by
    intro e' he'
    rw [hqueue]
    simp [he']
  obtain ⟨hrestDesc, hbehind⟩ := h.behind hqueue
  have hparents : ∀ e' ∈ unaryEdges t e.start e.stop e.nonterminal e.inside,
      e'.merit = e'.inside ∧ e'.inside ≤ e.inside := by
    subst hg
    intro e' he'
    obtain ⟨p, hp, -, rfl⟩ := mem_unaryEdges.1 he'
    exact ⟨hmerit _ _ _ _, Score.add_le_of_nonpos (hnonpos p hp) _⟩
  refine
    { merit_eq := fun e' he' => ?_
      descending := Queue.descending_insertAll hrestDesc _
      capped := fun A held hA e' he' => ?_ }
  · rcases Agenda.mem_insertAll.1 he' with he' | he'
    · exact (hparents e' he').1
    · exact h.merit_eq e' (hrest e' he')
  · have hle : e'.inside ≤ e.inside := by
      rcases Agenda.mem_insertAll.1 he' with he' | he'
      · exact (hparents e' he').2
      · exact hbehind e' he'
    refine Score.le_trans hle ?_
    have hA : (st.cell.add .best e.toEntry).find? A = some held := hA
    rw [htimed.find?_add he himp] at hA
    split at hA
    · rw [← Option.some.inj hA]
      exact Score.le_refl _
    · exact h.capped A held hA e he

/-- A score of a symbol that is no improvement, or waits in the queue. -/
def Pending (c : Chart α) (i j : Nat) (st : CellState α) (A : NonTerminal) (x : α) : Prop :=
  x ≤ c.overlay st.cell i j A ∨ ∃ e ∈ st.queue, e.nonterminal = A ∧ x ≤ e.inside

theorem Pending.commitEdge (hnonpos : ∀ p ∈ g.productions, p.logProb ≤ 0) (hg : t.grammar = g)
    (htimed : Timed g s c i j st) (hqueue : st.queue = dropped ++ e :: rest)
    (hdropped : ∀ d ∈ dropped, d.inside ≤ present c st.cell d)
    (himp : ¬ e.inside ≤ present c st.cell e) (best : α) {x : α} (h : Pending c i j st A x) :
    Pending c i j (Beam.commitEdge t st e rest best) A x := by
  have hmem : ∀ e' ∈ dropped ++ e :: rest, e' ∈ st.queue := fun e' he' => hqueue ▸ he'
  have hrest : ∀ e' ∈ rest, e' ∈ st.queue := fun e' he' => hmem e' (by simp [he'])
  obtain ⟨-, hover, hlt⟩ := commitEdge_timed hnonpos hg htimed (hmem e (by simp)) hrest himp best
  have hgrown : c.overlay st.cell i j A ≤ c.overlay (st.cell.add .best e.toEntry) i j A := by
    rw [hover]
    split
    · next heq => rw [heq.2.2]; exact Score.le_of_lt hlt
    · exact Score.le_refl _
  rcases h with hx | ⟨e', he', rfl, hx⟩
  · exact .inl (Score.le_trans hx hgrown)
  · rw [hqueue, List.mem_append, List.mem_cons] at he'
    rcases he' with he' | rfl | he'
    · exact .inl (Score.le_trans hx (Score.le_trans
        (htimed.le_overlay (hmem e' (by simp [he'])) (hdropped e' he')) hgrown))
    · refine .inl (Score.le_trans hx ?_)
      show _ ≤ c.overlay (st.cell.add .best e'.toEntry) i j e'.nonterminal
      rw [hover, if_pos ⟨rfl, rfl, rfl⟩]
      exact Score.le_refl _
    · exact .inr ⟨e', Agenda.mem_insertAll.2 (.inr he'), rfl, hx⟩

/-- A cell on its way in a search by score that may commit `width` more edges. What a rule makes of
the cell is there already or waits in the queue. -/
structure BestFirst (g : Grammar α) (s : Sentence) (c : Chart α) (i j : Nat) (st : CellState α)
    (width : Nat) : Prop extends Timed g s c i j st where
  merit_eq : ∀ e ∈ st.queue, e.merit = e.inside
  descending : Queue.Descending st.queue
  capped : ∀ A h, st.cell.find? A = some h → ∀ e ∈ st.queue, e.inside ≤ h.inside
  reached : ∀ b A x, Application g s (c.overlay st.cell) b i j A x →
    x ≤ c.overlay st.cell i j A ∨ ∃ e ∈ st.queue, e.nonterminal = A ∧ x ≤ e.inside
  room : g.numNonterminals ≤ st.cell.taken.card + width

omit [MonotoneScore α] in
theorem BestFirst.falling (h : BestFirst g s c i j st width) : Falling st :=
  ⟨h.merit_eq, h.descending, h.capped⟩

/-- What is committed is one symbol more, and what it makes waits in the queue. -/
theorem BestFirst.commitEdge (hnonpos : ∀ p ∈ g.productions, p.logProb ≤ 0) (hg : t.grammar = g)
    (hc : c.Sound g) (hmerit : ∀ i j A x, t.merit.score i j A x = x) (h : BestFirst g s c i j st (width + 1))
    (hqueue : st.queue = dropped ++ e :: rest)
    (hdropped : ∀ d ∈ dropped, d.inside ≤ present c st.cell d)
    (himp : ¬ e.inside ≤ present c st.cell e) (best : α) :
    BestFirst g s c i j (Beam.commitEdge t st e rest best) width := by
  have he : e ∈ st.queue := by
    rw [hqueue]
    simp
  have hrest : ∀ e' ∈ rest, e' ∈ st.queue := by
    intro e' he'
    rw [hqueue]
    simp [he']
  obtain ⟨htimed, hover, hlt⟩ := commitEdge_timed hnonpos hg h.toTimed he hrest himp best
  obtain ⟨-, hwarranted⟩ := h.queued e he
  have hfalling := h.falling.commitEdge hnonpos hg hmerit h.toTimed hqueue himp best
  refine
    { toTimed := htimed
      merit_eq := hfalling.merit_eq
      descending := hfalling.descending
      capped := hfalling.capped
      reached := fun b A x happ => ?_
      room := ?_ }
  · have happ : Application g s (c.overlay (st.cell.add .best e.toEntry)) b i j A x := happ
    by_cases hmem : (i, j, e.nonterminal) ∈ b.places i j
    · -- the new entry is the child, and its unary parents have just been queued
      right
      cases happ with
      | word => cases hmem
      | @unary _ _ p child mem children possible =>
        simp only [Backpointer.places, List.mem_singleton, Prod.mk.injEq, true_and] at hmem
        subst hmem hg
        refine ⟨t.edge e.start e.stop ⟨p.parent, p.logProb + e.inside, .unary e.nonterminal⟩,
          Agenda.mem_insertAll.2 (.inl (mem_unaryEdges.2 ⟨p, mem, children, rfl⟩)), rfl, ?_⟩
        rw [hover, if_pos ⟨rfl, rfl, rfl⟩]
        exact Score.le_refl _
      | @binary _ m _ p left right mem children leftPossible rightPossible =>
        obtain ⟨him, hmj⟩ := (Exhaustive.exists_binaryEntry (s := s) hc
          (Chart.binary_of_overlay hc htimed.proper hwarranted.bounds.1
            (.binary mem children leftPossible rightPossible))).1
        simp only [Backpointer.places, List.mem_cons, Prod.mk.injEq, List.not_mem_nil,
          or_false] at hmem
        omega
    · have happ' : Application g s (c.overlay st.cell) b i j A x := happ.congr fun k l B hB => by
        rw [hover, if_neg]
        rintro ⟨rfl, rfl, rfl⟩
        exact hmem hB
      exact Pending.commitEdge hnonpos hg h.toTimed hqueue hdropped himp best (h.reached b A x happ')
  · have hnt : e.nonterminal < st.cell.held.size := h.proper.size_eq ▸ hwarranted.bounds.2.2
    have hpos : Score.impossible < e.inside := Score.lt_of_le_of_lt (Score.impossible_le _) hlt
    have hcard : (st.cell.add .best e.toEntry).taken.card = st.cell.taken.card + 1 :=
      Scratch.card_taken_add hnt (h.falling.find?_eq_none h.toTimed he himp)
        (Score.admissible_iff.2 hpos)
    show g.numNonterminals ≤ (st.cell.add .best e.toEntry).taken.card + width
    have hroom := h.room
    omega

omit [MonotoneScore α] in
/-- If nothing falls too far below the best, a queue without improvements is dropped as a whole. -/
theorem le_present_of_nextImprovement {queue : List (Edge α)} {best : α}
    (hdelta : ∀ a b : α, ¬ a < b - t.delta)
    (h : nextImprovement t c cell best queue = none) : ∀ d ∈ queue, d.inside ≤ present c cell d := by
  induction queue generalizing best with
  | nil => intro d hd; cases hd
  | cons x xs ih =>
    unfold nextImprovement at h
    rw [if_neg (hdelta _ _)] at h
    dsimp only at h
    split at h
    · next hle =>
      intro d hd
      rcases List.mem_cons.1 hd with rfl | hd
      · exact hle
      · exact ih h d hd
    · cases h

/-- When the cell is done, no rule can improve it. -/
theorem BestFirst.closed (hnonpos : ∀ p ∈ g.productions, p.logProb ≤ 0) (hg : t.grammar = g)
    (hc : c.Sound g) (hmerit : ∀ i j A x, t.merit.score i j A x = x)
    (hdelta : ∀ a b : α, ¬ a < b - t.delta) (h : BestFirst g s c i j st width)
    {b : Backpointer} {x : α}
    (happ : Application g s (c.overlay (commitBest t c width st).cell) b i j A x) :
    x ≤ c.overlay (commitBest t c width st).cell i j A := by
  induction width generalizing st with
  | zero =>
    rcases h.reached b A x happ with hx | ⟨e, he, rfl, hx⟩
    · exact hx
    · -- the cell is full, and its entry of the symbol is at least as good as the edge
      have hproper := h.proper
      have hfull : (st.cell.find? e.nonterminal).isSome = true := by
        refine Scratch.isSome_find?_of_card ?_ ?_
        · rw [hproper.size_eq]
          exact h.room
        · rw [hproper.size_eq]
          exact (h.queued e he).2.bounds.2.2
      obtain ⟨held, hheld⟩ := Option.isSome_iff_exists.1 hfull
      refine Score.le_trans hx ?_
      show _ ≤ c.overlay st.cell i j e.nonterminal
      rw [hproper.overlay_of_find? hheld]
      exact h.capped _ held hheld e he
  | succ width ih =>
    unfold commitBest at happ ⊢
    split at happ
    · next hnone =>
      rcases h.reached b A x happ with hx | ⟨e, he, rfl, hx⟩
      · exact hx
      · exact Score.le_trans hx
          (h.toTimed.le_overlay he (le_present_of_nextImprovement hdelta hnone e he))
    · next e rest best hnext =>
      obtain ⟨dropped, hqueue, hdropped, himp⟩ := nextImprovement_eq_some hnext
      exact ih (h.commitEdge hnonpos hg hc hmerit hqueue hdropped himp best) happ

/-! ## All cells -/

/-- The words of a chart are settled, as far as rules for words go. -/
def WordsSettled (g : Grammar α) (s : Sentence) (c : Chart α) : Prop :=
  ∀ i < s.size, ∀ e ∈ Exhaustive.lexicalEntries g (s.terminal? i),
    e.inside ≤ c.inside i (i + 1) e.nonterminal

omit [MonotoneScore α] in
theorem merit_eq_of_mem_candidates (hmerit : ∀ i j A x, t.merit.score i j A x = x)
    {segments : Nat} (he : e ∈ (candidates t segments c i j).1) : e.merit = e.inside := by
  unfold candidates at he
  split at he
  · obtain ⟨child, -, he⟩ := List.mem_flatMap.1 he
    obtain ⟨p, -, -, rfl⟩ := mem_unaryEdges.1 he
    exact hmerit _ _ _ _
  · obtain ⟨e', -, rfl⟩ := List.mem_map.1 he
    exact hmerit _ _ _ _

omit [MonotoneScore α] in
/-- The unary parents of a word's entries are among the candidates. -/
theorem edge_mem_candidates (hg : t.grammar = g) (hc : c.Sound g) (segments : Nat)
    {p : Production α} {child : NonTerminal} {entry : Entry α} (hp : p ∈ g.productions)
    (hchild : p.children = .unary child) (hentry : c.get? i (i + 1) child = some entry) :
    t.edge i (i + 1) ⟨p.parent, p.logProb + c.inside i (i + 1) child, .unary child⟩ ∈
      (candidates t segments c i (i + 1)).1 := by
  subst hg
  have hnt := hc.nonterminal_eq hentry
  rw [candidates, if_pos (beq_self_eq_true _)]
  refine List.mem_flatMap.2 ⟨entry, (Chart.mem_entries hc).2 (hnt ▸ hentry),
    mem_unaryEdges.2 ⟨p, hp, hnt ▸ hchild, ?_⟩⟩
  rw [hnt, hc.inside_of_get? hentry]

/-- What a rule makes of the chart is among the candidates of a cell, or there already. -/
theorem exists_candidate (hg : t.grammar = g) (hc : c.Grown g s) (segments : Nat) (hij : i < j)
    (hj : j ≤ s.size) (hwords : WordsSettled g s c)
    (hblank : i + 1 < j → ∀ A, c.get? i j A = none) {b : Backpointer} {x : α}
    (happ : Application g s c.inside b i j A x) :
    x ≤ c.inside i j A ∨
      ∃ e ∈ (candidates t segments c i j).1, e.nonterminal = A ∧ x ≤ e.inside := by
  subst hg
  cases b with
  | lexical word =>
    obtain ⟨rfl, e, he, rfl, rfl⟩ := Exhaustive.exists_lexicalEntry happ
    exact .inl (hwords i hj e he)
  | unary child =>
    cases happ with
    | @unary _ _ p _ mem children possible =>
      obtain ⟨entry, hentry⟩ := hc.sound.exists_get?_of_possible possible
      have hone : j = i + 1 := by
        by_contra hne
        rw [hblank (by omega)] at hentry
        cases hentry
      subst hone
      exact .inr ⟨_, edge_mem_candidates rfl hc.sound segments mem children hentry, rfl,
        Score.le_refl _⟩
  | binary left right m =>
    obtain ⟨⟨him, hmj⟩, e, he, rfl, rfl⟩ := Exhaustive.exists_binaryEntry hc.sound happ
    have hgathers := Exhaustive.crossCell_gathers Accumulator.keepsPossible_best
      t.grammar c segments i j
    have hle := hgathers.le_best e he
    rw [(Exhaustive.crossCell_tight t.grammar c segments i j).best_eq] at hle
    cases hfind : (Exhaustive.crossCell t.grammar .best segments c i j).1.find? e.nonterminal with
    | none =>
      rw [Scratch.inside_of_find?_eq_none hfind] at hle
      exact .inl (Score.le_trans hle (Score.impossible_le _))
    | some held =>
      rw [Scratch.inside_of_find? hfind] at hle
      refine .inr ⟨t.edge i j ⟨e.nonterminal, held.inside, held.backpointer⟩, ?_, rfl, hle⟩
      rw [candidates, if_neg (by rw [beq_iff_eq]; omega)]
      exact List.mem_map_of_mem (Scratch.mem_entries.2 (Scratch.get?_eq_some_iff.2
        ⟨held, hfind, rfl⟩))

/-- A cell with room for every symbol, before anything has been committed. -/
theorem bestFirst_start (hg : t.grammar = g) (hmerit : ∀ i j A x, t.merit.score i j A x = x)
    (hc : c.Grown g s) (segments : Nat) (hij : i < j) (hj : j ≤ s.size)
    (hwords : WordsSettled g s c) (hblank : i + 1 < j → ∀ A, c.get? i j A = none)
    (hqueue : st.queue = (Queue.ofList (candidates t segments c i j).1).edges)
    (hcell : st.cell = Scratch.empty i j t.grammar.numNonterminals)
    (hwidth : g.numNonterminals ≤ width) : BestFirst g s c i j st width := by
  have hmem : ∀ e, e ∈ st.queue ↔ e ∈ (candidates t segments c i j).1 := by
    intro e
    rw [hqueue]
    exact Agenda.mem_insertAll.trans (or_iff_left List.not_mem_nil)
  refine
    { toTimed := timed_start hg hc (fun e he => warranted_of_mem_candidates hg hc segments he)
        hqueue hcell
      merit_eq := fun e he => merit_eq_of_mem_candidates hmerit ((hmem e).1 he)
      descending := ?_
      capped := fun A held hA => ?_
      reached := fun b A x happ => ?_
      room := Nat.le_trans hwidth (Nat.le_add_left _ _) }
  · rw [hqueue]
    exact Queue.descending_insertAll List.Pairwise.nil _
  · rw [hcell, Scratch.find?_empty] at hA
    cases hA
  · rw [hcell, overlay_empty] at happ ⊢
    obtain hx | ⟨e, he, hspec⟩ := exists_candidate hg hc segments hij hj hwords hblank happ
    · exact .inl hx
    · exact .inr ⟨e, (hmem e).2 he, hspec⟩

theorem fillCell_settled (hnonpos : ∀ p ∈ g.productions, p.logProb ≤ 0) (hg : t.grammar = g)
    (hmerit : ∀ i j A x, t.merit.score i j A x = x) (hdelta : ∀ a b : α, ¬ a < b - t.delta)
    (hwidth : g.numNonterminals ≤ t.width) (segments : Nat) {st : State α}
    {visited : List (Nat × Nat)} (hc : st.chart.Settled g s visited) (hij : i < j)
    (hj : j ≤ s.size) (hnew : (i, j) ∉ visited)
    (hshort : ∀ k l, (k, l) ∈ visited → l - k ≤ j - i) (hwords : WordsSettled g s st.chart)
    (hfresh : ∀ A e, st.chart.get? i j A = some e → j = i + 1 ∧ e.backpointer.isUnary = false)
    (hfits : (fillCell t segments st (i, j)).chart.Fits) :
    (fillCell t segments st (i, j)).chart.Settled g s (visited ++ [(i, j)]) ∧
      WordsSettled g s (fillCell t segments st (i, j)).chart := by
  have hblank : i + 1 < j → ∀ A, st.chart.get? i j A = none := by
    intro hlong A
    rw [Option.eq_none_iff_forall_ne_some]
    intro e he
    have := (hfresh A e he).1
    omega
  have hstart : BestFirst g s st.chart i j (opened t segments st i j) t.width := bestFirst_start
    hg hmerit hc.toGrown segments hij hj hwords hblank rfl rfl hwidth
  obtain ⟨stamp, now, hcell⟩ := (commitBest_timed hnonpos hg t.width hstart.toTimed).clocked
  refine ⟨hc.commit hnonpos hcell hij hj hnew hshort (fun A e he => (hfresh A e he).2) hfits
    fun b A x happ => hstart.closed hnonpos hg hc.sound hmerit hdelta happ, fun k hk e he => ?_⟩
  have hinside := Chart.inside_commit hc.sound hcell.toProper hcell.above hij (hc.size_eq ▸ hj) hfits
  have hle := Score.le_trans (hwords k hk e he)
    (hcell.above.le_overlay k (k + 1) e.nonterminal)
  rw [← hinside] at hle
  exact hle

/-- A beam search by score with room for every symbol, from which nothing falls too far below the best,
finds all maxima. -/
theorem search_settled (hnonpos : ∀ p ∈ g.productions, p.logProb ≤ 0) {width : Nat} {delta : α}
    (hdelta : ∀ a b : α, ¬ a < b - delta) (hwidth : g.numNonterminals ≤ width) (segments : Nat)
    (summing : Bool) (hc : c.Grown g s) (hblank : ∀ k l A, c.get? k l A = none)
    (hfits : (search g .inside width delta segments summing s c).chart.Fits) :
    (search g .inside width delta segments summing s c).chart.Settled g s (spansUp s.size) := by
  have hworded := commitWords_worded hnonpos hc hblank
  unfold search at hfits ⊢
  refine (spansUp_induction (P := fun visited (st : State α) => st.chart.Fits →
    st.chart.Settled g s visited ∧ WordsSettled g s st.chart ∧
      ∀ k l A e, (k, l) ∉ visited → st.chart.get? k l A = some e →
        l = k + 1 ∧ e.backpointer.isUnary = false)
    (fun hfits => ⟨⟨hworded.grown, fun k l hkl => by cases hkl⟩,
      fun i hi => hworded.words hfits i (List.mem_range.2 hi),
      fun k l A e _ he => hworded.fresh k l A e he⟩)
    (fun visited i j st hij hj hnew _ hshort hv hfits => ?_) hfits).1
  obtain ⟨hsettled, hwords, hfresh⟩ := hv (Chart.fits_of_fits_commit hfits)
  obtain ⟨hnext, hwords'⟩ := fillCell_settled (t :=
    { grammar := g, merit := Merit.inside.forSentence (commitWords g s c).1, width, delta })
    hnonpos rfl (fun _ _ _ _ => rfl) hdelta hwidth segments hsettled hij hj hnew hshort hwords
    (fun A e he => hfresh i j A e hnew he) hfits
  refine ⟨hnext, hwords', fun k l A e hkl he => ?_⟩
  rw [List.mem_append, List.mem_singleton, Prod.mk.injEq, not_or] at hkl
  exact hfresh k l A e hkl.1 ((fillCell_grown (t :=
    { grammar := g, merit := Merit.inside.forSentence (commitWords g s c).1, width, delta })
    hnonpos rfl segments hsettled.toGrown hij hj fun A e he => (hfresh i j A e hnew he).2).2
      k l A e hkl.2 he)

end Beam

end Constituency
