import Constituency.Proofs.Chart.Backpointers
import Constituency.Proofs.Chart.Slots
import Constituency.Proofs.Derivation
import Constituency.Search.Agenda
import Mathlib.Logic.Relation

/-!
# Agenda search finds the best derivations

Whatever edge is taken off the queue next, the search keeps two promises. What a rule makes of the
chart is in the chart already or waits in the queue (`Inv.reached`), and what is in the chart or
waits in the queue is the score of a derivation. Once the queue is empty, no rule can improve the
chart, and every score in it is that of the best derivation.

Entries are overwritten while edges made from their older scores are still in the queue. That the
backpointers do not run in circles after that is seen from a clock: each entry is stamped with the time at
which it came to its present score, and a unary backpointer between equal scores leads to an earlier
stamp (`Justified`).
-/

namespace Constituency

namespace Agenda

variable {α : Type} [Score α] {t : Task α} {s : Sentence} {c : SlotChart α}

/-! ## The queue -/

theorem insertAll_perm (q : Queue α) (edges : List (Edge α)) :
    (q.insertAll edges).edges.Perm (edges ++ q.edges) := by
  induction edges generalizing q with
  | nil => exact .refl _
  | cons e rest ih =>
    refine (ih (q.insert e)).trans ?_
    have hplace : (rest ++ (q.insert e).edges).Perm (rest ++ (e :: q.edges)) :=
      (Queue.place_perm e q.edges).append_left rest
    exact hplace.trans List.perm_middle

theorem mem_insertAll {q : Queue α} {edges : List (Edge α)} {e : Edge α} :
    e ∈ (q.insertAll edges).edges ↔ e ∈ edges ∨ e ∈ q.edges := by
  rw [(insertAll_perm q edges).mem_iff, List.mem_append]

/-! ## The frontier -/

/-- What is queued over an entry is a rule applied to it, and improves the chart. -/
theorem application_of_mem_frontier {i j : Nat} {A : NonTerminal}
    (hpos : Score.impossible < c.inside i j A) {e : Edge α}
    (he : e ∈ frontier t c i j A (c.inside i j A)) :
    Application t.grammar s c.inside e.backpointer e.start e.stop e.nonterminal e.inside ∧
      c.inside e.start e.stop e.nonterminal < e.inside := by
  rw [frontier, List.mem_filter, List.mem_append, List.mem_append] at he
  obtain ⟨he, himp⟩ := he
  refine ⟨?_, of_decide_eq_true himp⟩
  rcases he with (he | he) | he
  · obtain ⟨p, hp, rfl⟩ := List.mem_map.1 he
    obtain ⟨hmem, hc⟩ := Grammar.mem_byUnaryChild.1 hp
    exact .unary hmem hc hpos
  · obtain ⟨p, hp, he⟩ := List.mem_flatMap.1 he
    obtain ⟨hmem, right, hc⟩ := Grammar.mem_byLeftChild.1 hp
    simp only [hc, List.mem_filterMap] at he
    obtain ⟨stop, -, he⟩ := he
    split at he
    · next hright =>
      rw [Option.some.injEq] at he
      exact he ▸ .binary hmem hc hpos hright
    · cases he
  · obtain ⟨p, hp, he⟩ := List.mem_flatMap.1 he
    obtain ⟨hmem, left, hc⟩ := Grammar.mem_byRightChild.1 hp
    simp only [hc, List.mem_filterMap] at he
    obtain ⟨start, -, he⟩ := he
    split at he
    · next hleft =>
      rw [Option.some.injEq] at he
      exact he ▸ .binary hmem hc hleft hpos
    · cases he

section Monotone

variable [MonotoneScore α]

/-- A rule applied to an entry is queued over it, unless it is no improvement. -/
theorem mem_frontier_of_application (hsound : c.Sound t.grammar) (hsize : c.size = t.size)
    {b : Backpointer} {k l : Nat} {P : NonTerminal} {x : α}
    (h : Application t.grammar s c.inside b k l P x) {i j : Nat} {A : NonTerminal}
    (hmem : (i, j, A) ∈ b.places k l) (himp : c.inside k l P < x) :
    ∃ e ∈ frontier t c i j A (c.inside i j A),
      e.start = k ∧ e.stop = l ∧ e.nonterminal = P ∧ e.inside = x := by
  cases h with
  | word => cases hmem
  | @unary _ _ p child mem children _ =>
    simp only [Backpointer.places, List.mem_singleton, Prod.mk.injEq] at hmem
    obtain ⟨rfl, rfl, rfl⟩ := hmem
    refine ⟨t.edge i j ⟨p.parent, p.logProb + c.inside i j A, .unary A⟩, ?_, rfl, rfl, rfl, rfl⟩
    rw [frontier, List.mem_filter, List.mem_append, List.mem_append]
    refine ⟨.inl (.inl ?_), decide_eq_true himp⟩
    exact List.mem_map.2 ⟨p, Grammar.mem_byUnaryChild.2 ⟨mem, children⟩, rfl⟩
  | @binary _ m _ p left right mem children leftPossible rightPossible =>
    refine ⟨t.edge k l ⟨p.parent, p.logProb + c.inside k m left + c.inside m l right,
      .binary left right m⟩, ?_, rfl, rfl, rfl, rfl⟩
    have hleft := hsound.bounds_of_possible leftPossible
    have hright := hsound.bounds_of_possible rightPossible
    rw [frontier, List.mem_filter, List.mem_append, List.mem_append]
    refine ⟨?_, decide_eq_true himp⟩
    simp only [Backpointer.places, List.mem_cons, Prod.mk.injEq, List.not_mem_nil,
      or_false] at hmem
    rcases hmem with ⟨rfl, rfl, rfl⟩ | ⟨rfl, rfl, rfl⟩
    · left; right
      refine List.mem_flatMap.2 ⟨p, Grammar.mem_byLeftChild.2 ⟨mem, right, children⟩, ?_⟩
      simp only [children, List.mem_filterMap]
      exact ⟨l, List.mem_range'_1.2 (by omega), by rw [if_pos rightPossible]⟩
    · right
      refine List.mem_flatMap.2 ⟨p, Grammar.mem_byRightChild.2 ⟨mem, left, children⟩, ?_⟩
      simp only [children, List.mem_filterMap]
      exact ⟨k, List.mem_range.2 hleft.1, by rw [if_pos leftPossible]⟩

end Monotone

/-! ## The invariant -/

/-- The time at which a place came to its present score. -/
abbrev Stamps := Nat → Nat → NonTerminal → Nat

/-- The stamps after the scores have grown. -/
def restamp (inside inside' : Nat → Nat → NonTerminal → α) (stamp : Stamps) (now : Nat) : Stamps :=
  fun i j A => if inside i j A < inside' i j A then now else stamp i j A

/-- An entry or edge has the score of a derivation, and the chart has at least as good a score for
its children; if it goes up from a child with the same score as its own, the child came to that
score earlier. -/
structure Justified (g : Grammar α) (s : Sentence) (inside : Nat → Nat → NonTerminal → α)
    (stamp : Stamps) (i j : Nat) (e : Entry α) : Prop where
  derived : ∃ d, Derives g s i j e.nonterminal d ∧ d.score = e.inside
  below : ∃ x, Application g s inside e.backpointer i j e.nonterminal x ∧ e.inside ≤ x
  earlier : ∀ child, e.backpointer = .unary child → e.inside ≤ inside i j e.nonterminal →
    inside i j e.nonterminal ≤ e.inside → inside i j child ≤ e.inside →
      stamp i j child < stamp i j e.nonterminal

/-- A chart and edges that wait to enter it, under a clock. -/
structure Timed (g : Grammar α) (s : Sentence) (c : SlotChart α) (edges : List (Edge α))
    (stamp : Stamps) (now : Nat) : Prop where
  sound : c.Sound g
  size_eq : c.size = s.size
  stamp_lt : ∀ i j A, stamp i j A < now
  held : ∀ i j A e, c.get? i j A = some e → Justified g s c.inside stamp i j e
  queued : ∀ e ∈ edges, Justified g s c.inside stamp e.start e.stop e.toEntry

/-- What holds of a chart and the edges that wait to enter it. -/
structure Inv (g : Grammar α) (s : Sentence) (c : SlotChart α) (edges : List (Edge α))
    (stamp : Stamps) (now : Nat) : Prop where
  sound : c.Sound g
  size_eq : c.size = s.size
  stamp_lt : ∀ i j A, stamp i j A < now
  held : ∀ i j A e, c.get? i j A = some e → Justified g s c.inside stamp i j e
  queued : ∀ e ∈ edges, Justified g s c.inside stamp e.start e.stop e.toEntry
  reached : ∀ b i j A x, Application g s c.inside b i j A x → x ≤ c.inside i j A ∨
    ∃ e ∈ edges, e.start = i ∧ e.stop = j ∧ e.nonterminal = A ∧ x ≤ e.inside

variable {g : Grammar α} {edges rest : List (Edge α)} {stamp : Stamps}
  {now : Nat} {e : Edge α}

theorem restamp_lt {inside inside' : Nat → Nat → NonTerminal → α}
    (hstamp : ∀ i j A, stamp i j A < now) (i j : Nat) (A : NonTerminal) :
    restamp inside inside' stamp now i j A < now + 1 := by
  unfold restamp
  split
  · exact Nat.lt_succ_self now
  · exact Nat.lt_succ_of_lt (hstamp i j A)

theorem Timed.derived (h : Timed g s c edges stamp now) {i j : Nat} {A : NonTerminal} {e : Entry α}
    (he : c.get? i j A = some e) : ∃ d, Derives g s i j A d ∧ d.score = e.inside := by
  have hd := (h.held _ _ _ _ he).derived
  rwa [h.sound.nonterminal_eq he] at hd

theorem Inv.timed (h : Inv g s c edges stamp now) : Timed g s c edges stamp now :=
  ⟨h.sound, h.size_eq, h.stamp_lt, h.held, h.queued⟩

theorem Inv.congr {edges' : List (Edge α)} (h : Inv g s c edges stamp now)
    (hmem : ∀ e, e ∈ edges' ↔ e ∈ edges) : Inv g s c edges' stamp now where
  sound := h.sound
  size_eq := h.size_eq
  stamp_lt := h.stamp_lt
  held := h.held
  queued e he := h.queued e ((hmem e).1 he)
  reached b i j A x happ := by
    rcases h.reached b i j A x happ with hle | ⟨e, he, hplace⟩
    · exact .inl hle
    · exact .inr ⟨e, (hmem e).2 he, hplace⟩

variable [MonotoneScore α]

/-- The score of a unary rule is at most that of its child. -/
theorem le_of_unary (hnonpos : ∀ p ∈ g.productions, p.logProb ≤ 0)
    {inside : Nat → Nat → NonTerminal → α} {child : NonTerminal} {i j : Nat} {A : NonTerminal}
    {x : α} (h : Application g s inside (.unary child) i j A x) : x ≤ inside i j child := by
  cases h with
  | unary mem => exact Score.add_le_of_nonpos (hnonpos _ mem) _

/-- What is justified stays so when scores grow. -/
theorem Justified.later (hnonpos : ∀ p ∈ g.productions, p.logProb ≤ 0)
    {inside inside' : Nat → Nat → NonTerminal → α} (hstamp : ∀ i j A, stamp i j A < now)
    (hle : ∀ i j A, inside i j A ≤ inside' i j A) {i j : Nat} {e : Entry α}
    (h : Justified g s inside stamp i j e) :
    Justified g s inside' (restamp inside inside' stamp now) i j e := by
  obtain ⟨x, happ, hx⟩ := h.below
  refine ⟨h.derived, ?_, fun child hb hge hle' hchild => ?_⟩
  · obtain ⟨y, happ', hy⟩ := happ.mono hle
    exact ⟨y, happ', Score.le_trans hx hy⟩
  · have hchildLe : inside i j child ≤ e.inside := Score.le_trans (hle _ _ _) hchild
    have hself : inside i j e.nonterminal ≤ e.inside := Score.le_trans (hle _ _ _) hle'
    have hchildGe : e.inside ≤ inside i j child :=
      Score.le_trans hx (le_of_unary hnonpos (hb ▸ happ))
    have hchildKept : ¬ inside i j child < inside' i j child :=
      Score.not_lt.2 (Score.le_trans hchild hchildGe)
    rw [restamp, restamp, if_neg hchildKept]
    split
    · exact hstamp i j child
    · next hkept =>
      exact h.earlier child hb (Score.le_trans hge (Score.not_lt.1 hkept)) hself hchildLe

/-- What is queued over an entry is justified. -/
theorem justified_of_mem_frontier (hg : t.grammar = g)
    (held : ∀ i j A e, c.get? i j A = some e → ∃ d, Derives g s i j A d ∧ d.score = e.inside)
    (hsound : c.Sound g) {i j : Nat} {A : NonTerminal}
    (hpos : Score.impossible < c.inside i j A) (he : e ∈ frontier t c i j A (c.inside i j A)) :
    Justified g s c.inside stamp e.start e.stop e.toEntry := by
  subst hg
  obtain ⟨happ, himp⟩ := application_of_mem_frontier (s := s) hpos he
  refine ⟨happ.derives fun k l B hmem => ?_, ⟨_, happ, Score.le_refl _⟩, fun _ _ hge => ?_⟩
  · obtain ⟨old, hold⟩ := hsound.possible_iff.1 (happ.possible_of_mem_places hmem)
    rw [hsound.inside_of_get? hold]
    exact held _ _ _ _ hold
  · exact absurd himp (Score.not_lt.2 hge)

/-! ## One step -/

/-- An edge that is no improvement is dropped. -/
theorem Inv.drop (h : Inv g s c (e :: rest) stamp now)
    (hle : e.inside ≤ c.inside e.start e.stop e.nonterminal) : Inv g s c rest stamp now where
  sound := h.sound
  size_eq := h.size_eq
  stamp_lt := h.stamp_lt
  held := h.held
  queued e he := h.queued e (List.mem_cons_of_mem _ he)
  reached b i j A x happ := by
    rcases h.reached b i j A x happ with hx | ⟨e', he', rfl, rfl, rfl, hx⟩
    · exact .inl hx
    · rcases List.mem_cons.1 he' with rfl | he'
      · exact .inl (Score.le_trans hx hle)
      · exact .inr ⟨e', he', rfl, rfl, rfl, hx⟩

/-- The clock goes on when an edge enters the chart, and with it the edges over it the queue. -/
theorem Timed.enter (hnonpos : ∀ p ∈ g.productions, p.logProb ≤ 0) (hg : t.grammar = g)
    (h : Timed g s c (e :: rest) stamp now) {c' : SlotChart α}
    (hsound : c'.Sound g) (hsize : c'.size = c.size) (hpos : Score.impossible < e.inside)
    (hle : c.inside e.start e.stop e.nonterminal ≤ e.inside)
    (hget : ∀ k l A, c'.get? k l A =
      if k = e.start ∧ l = e.stop ∧ A = e.nonterminal then some e.toEntry else c.get? k l A) :
    Timed g s c' (frontier t c' e.start e.stop e.nonterminal e.inside ++ rest)
      (restamp c.inside c'.inside stamp now) (now + 1) := by
  have hhere : c'.inside e.start e.stop e.nonterminal = e.inside :=
    hsound.inside_of_get? ((hget _ _ _).trans (if_pos ⟨rfl, rfl, rfl⟩))
  have hgrown := h.sound.inside_le_of_entered hsound hget hle
  have hqueued : ∀ e' ∈ e :: rest, Justified g s c'.inside
      (restamp c.inside c'.inside stamp now) e'.start e'.stop e'.toEntry :=
    fun e' he' => (h.queued e' he').later hnonpos h.stamp_lt hgrown
  have hheld : ∀ i j A e', c'.get? i j A = some e' →
      Justified g s c'.inside (restamp c.inside c'.inside stamp now) i j e' := by
    intro i j A e' he'
    rw [hget] at he'
    split at he'
    · next heq =>
      obtain ⟨rfl, rfl, rfl⟩ := heq
      rw [Option.some.injEq] at he'
      exact he' ▸ hqueued e List.mem_cons_self
    · exact (h.held _ _ _ _ he').later hnonpos h.stamp_lt hgrown
  refine ⟨hsound, hsize.trans h.size_eq, restamp_lt h.stamp_lt, hheld, fun e' he' => ?_⟩
  rcases List.mem_append.1 he' with he' | he'
  · rw [← hhere] at he'
    refine justified_of_mem_frontier hg (fun i j A e hget' => ?_) hsound (hhere ▸ hpos) he'
    have hd := (hheld _ _ _ _ hget').derived
    rwa [hsound.nonterminal_eq hget'] at hd
  · exact hqueued e' (List.mem_cons_of_mem _ he')

/-- An edge that enters the chart is followed by the edges over it. -/
theorem Inv.enter (hnonpos : ∀ p ∈ g.productions, p.logProb ≤ 0) (hg : t.grammar = g)
    (ht : t.size = s.size) (h : Inv g s c (e :: rest) stamp now) {c' : SlotChart α}
    (hsound : c'.Sound g) (hsize : c'.size = c.size) (hpos : Score.impossible < e.inside)
    (hle : c.inside e.start e.stop e.nonterminal ≤ e.inside)
    (hget : ∀ k l A, c'.get? k l A =
      if k = e.start ∧ l = e.stop ∧ A = e.nonterminal then some e.toEntry else c.get? k l A) :
    Inv g s c' (frontier t c' e.start e.stop e.nonterminal e.inside ++ rest)
      (restamp c.inside c'.inside stamp now) (now + 1) := by
  have hinside := h.sound.inside_eq_of_entered hsound hget
  have hhere : c'.inside e.start e.stop e.nonterminal = e.inside :=
    (hinside _ _ _).trans (if_pos ⟨rfl, rfl, rfl⟩)
  obtain ⟨-, hsize', hstamp, hheld, hqueued⟩ :=
    h.timed.enter hnonpos hg hsound hsize hpos hle hget
  refine ⟨hsound, hsize', hstamp, hheld, hqueued, fun b i j A x happ => ?_⟩
  rcases Score.lt_or_ge (c'.inside i j A) x with himp | hx
  · right
    by_cases hmem : (e.start, e.stop, e.nonterminal) ∈ b.places i j
    · -- the new entry is one of the children: the search has just looked at this rule
      subst hg
      obtain ⟨e', he', h1, h2, h3, h4⟩ := mem_frontier_of_application hsound
        (hsize'.trans ht.symm) happ hmem himp
      rw [hhere] at he'
      exact ⟨e', List.mem_append_left _ he', h1, h2, h3, h4 ▸ Score.le_refl _⟩
    · have happ' : Application g s c.inside b i j A x := happ.congr fun k l B hB => by
        rw [hinside, if_neg]
        rintro ⟨rfl, rfl, rfl⟩
        exact hmem hB
      rcases h.reached b i j A x happ' with hx | ⟨e', he', rfl, rfl, rfl, hx⟩
      · exact absurd (Score.le_trans hx (h.sound.inside_le_of_entered hsound hget hle _ _ _))
          (Score.not_le.2 himp)
      · rcases List.mem_cons.1 he' with rfl | he'
        · rw [hhere] at himp
          exact absurd hx (Score.not_le.2 himp)
        · exact ⟨e', List.mem_append_right _ he', rfl, rfl, rfl, hx⟩
  · exact .inl hx

variable {st st' : State α}

omit [MonotoneScore α] in
theorem chart_process (t : Task α) (st : State α) (e : Edge α) :
    (process t st e).chart = (st.chart.install e.start e.stop e.toEntry).2 := by
  have hnote : ∀ (t : Task α) (st : State α), (noteParse t st e).chart = st.chart := by
    intro t st
    unfold noteParse
    split <;> rfl
  simp only [process, countPop]
  split
  · next h => rw [h]
  · next h => simp only [expand, hnote, h]

omit [MonotoneScore α] in
theorem queue_process (t : Task α) (st : State α) (e : Edge α) :
    (process t st e).queue =
      if (st.chart.install e.start e.stop e.toEntry).1 = true then
        st.queue.insertAll (frontier t (st.chart.install e.start e.stop e.toEntry).2 e.start e.stop
          e.nonterminal e.inside)
      else st.queue := by
  have hnote : ∀ (t : Task α) (st : State α), (noteParse t st e).chart = st.chart ∧
      (noteParse t st e).queue = st.queue := by
    intro t st
    unfold noteParse
    split <;> exact ⟨rfl, rfl⟩
  simp only [process, countPop]
  split
  · next h => rw [h]; rfl
  · next h => simp only [expand, hnote, h, if_true]

/-- One edge is taken off the queue, whichever it is, and processed. -/
def Step (t : Task α) (st st' : State α) : Prop :=
  ∃ e rest, st.queue.edges.Perm (e :: rest) ∧ st' = process t { st with queue := ⟨rest⟩ } e

/-- Edges are taken off the queue in any order. -/
abbrev Run (t : Task α) : State α → State α → Prop :=
  Relation.ReflTransGen (Step t)

omit [MonotoneScore α] in
theorem next_le_next_of_step (h : Step t st st') : st.chart.arena.next ≤ st'.chart.arena.next := by
  obtain ⟨e, rest, -, rfl⟩ := h
  rw [chart_process]
  exact SlotChart.next_le_next_install ..

omit [MonotoneScore α] in
theorem next_le_next_of_run (h : Run t st st') : st.chart.arena.next ≤ st'.chart.arena.next := by
  induction h with
  | refl => exact Nat.le_refl _
  | tail _ hstep ih => exact Nat.le_trans ih (next_le_next_of_step hstep)

omit [MonotoneScore α] in
theorem Inv.bounds (h : Inv g s c edges stamp now) (he : e ∈ edges) :
    e.start < e.stop ∧ e.stop ≤ s.size ∧ e.nonterminal < g.numNonterminals := by
  obtain ⟨d, hd, -⟩ := (h.queued e he).derived
  exact ⟨hd.start_lt, hd.stop_le, hd.nt_lt⟩

/-- A step keeps the invariant, as long as the arena has numbers left. -/
theorem step_inv (hnonpos : ∀ p ∈ g.productions, p.logProb ≤ 0) (hg : t.grammar = g)
    (ht : t.size = s.size) (h : Inv g s st.chart st.queue.edges stamp now) (hstep : Step t st st')
    (hfits : st'.chart.arena.next ≤ UInt32.size) :
    ∃ stamp now, Inv g s st'.chart st'.queue.edges stamp now := by
  obtain ⟨e, rest, hperm, rfl⟩ := hstep
  have hcons : Inv g s st.chart (e :: rest) stamp now := h.congr fun e' => hperm.mem_iff.symm
  obtain ⟨hij, hj, hnt⟩ := hcons.bounds List.mem_cons_self
  rw [chart_process] at hfits
  rw [chart_process, queue_process]
  rcases SlotChart.install_cases h.sound hij (h.size_eq ▸ hj) hnt hfits with
    ⟨hsame, hle⟩ | ⟨hdone, hsound, hpos, hle, hget⟩
  · refine ⟨stamp, now, ?_⟩
    rw [hsame, if_neg (by simp)]
    exact hcons.drop hle
  · refine ⟨_, _, Inv.congr (hcons.enter hnonpos hg ht hsound (SlotChart.size_install ..) hpos hle
      hget) fun e' => ?_⟩
    rw [if_pos hdone, mem_insertAll, List.mem_append]

/-- A run keeps the invariant. -/
theorem run_inv (hnonpos : ∀ p ∈ g.productions, p.logProb ≤ 0) (hg : t.grammar = g)
    (ht : t.size = s.size) (h : Inv g s st.chart st.queue.edges stamp now) (hrun : Run t st st')
    (hfits : st'.chart.arena.next ≤ UInt32.size) :
    ∃ stamp now, Inv g s st'.chart st'.queue.edges stamp now := by
  induction hrun with
  | refl => exact ⟨stamp, now, h⟩
  | tail _ hstep ih =>
    obtain ⟨stamp, now, hinv⟩ := ih (Nat.le_trans (next_le_next_of_step hstep) hfits)
    exact step_inv hnonpos hg ht hinv hstep hfits

end Agenda

end Constituency
