import Constituency.Proofs.Chart.Backpointers
import Constituency.Proofs.Chart.Basic
import Constituency.Proofs.Derivation
import Mathlib.Logic.Relation

/-!
# Trees of charts

What a chart needs for its backpointers to be trees: each entry is made by a rule from entries of the
chart (`Linked`), and no chain of unary backpointers within a cell comes back to where it has been
(`Acyclic`). Following the backpointers from an entry then never stops short. If moreover the score
of each entry is at most what its rule makes of the present scores of its children, then the tree is
that of a derivation whose score is no worse than the one the chart reports.
-/

namespace Constituency

namespace Chart

variable {α : Type} [Score α] {g : Grammar α} {s : Sentence} {c : Chart α} {i j : Nat}
  {A B : NonTerminal} {e : Entry α} {R : α → α → Prop}

/-! ## Chains of unary backpointers -/

/-- The entry of the first symbol is derived by a unary rule from the second one. -/
def UnaryLink (c : Chart α) (i j : Nat) (A B : NonTerminal) : Prop :=
  ∃ e, c.get? i j A = some e ∧ e.backpointer = .unary B

/-- No chain of unary backpointers within a cell comes back to a symbol. -/
def Acyclic (c : Chart α) : Prop :=
  ∀ i j A, ¬ Relation.TransGen (c.UnaryLink i j) A A

/-- Steps down in an order never lead back. -/
theorem not_transGen_self {link : NonTerminal → NonTerminal → Prop}
    (lower : NonTerminal → NonTerminal → Bool)
    (htrans : ∀ x y z, lower x y = true → lower y z = true → lower x z = true)
    (hirrefl : ∀ x, lower x x = false) (hlink : ∀ A B, link A B → lower B A = true)
    (A : NonTerminal) : ¬ Relation.TransGen link A A := by
  have hdown : ∀ B, Relation.TransGen link A B → lower B A = true := by
    intro B hB
    induction hB with
    | single h => exact hlink _ _ h
    | tail _ h ih => exact htrans _ _ _ (hlink _ _ h) ih
  intro hA
  have hself := hdown A hA
  rw [hirrefl] at hself
  cases hself

/-- The number of symbols that the unary backpointers lead to from a symbol. -/
noncomputable def depth (c : Chart α) (i j : Nat) (A : NonTerminal) : Nat :=
  depthBelow c.numNonterminals (c.UnaryLink i j) A

omit [Score α] in
theorem depth_le : c.depth i j A ≤ c.numNonterminals := depthBelow_le

omit [Score α] in
theorem depth_lt_of_unaryLink (h : c.Acyclic) (hlink : c.UnaryLink i j A B)
    (hB : B < c.numNonterminals) : c.depth i j B < c.depth i j A :=
  depthBelow_lt_of_link (h i j) hlink hB

/-! ## Entries made from entries -/

/-- Each entry is made by a rule from entries of the chart, whose present scores give a result in some
relation to the score of the entry. -/
structure Linked (g : Grammar α) (s : Sentence) (R : α → α → Prop) (c : Chart α) : Prop where
  sound : c.Sound g
  size_eq : c.size = s.size
  made : ∀ i j A e, c.get? i j A = some e →
    ∃ x, Application g s c.inside e.backpointer i j A x ∧ R e.inside x

namespace Linked

theorem made_of_find? (h : c.Linked g s R) {b : Backpointer}
    (hb : (c.backpointers g.symbols s.words).find? i j A = some b) :
    ∃ e x, c.get? i j A = some e ∧ e.backpointer = b ∧ Application g s c.inside b i j A x ∧
      R (c.inside i j A) x := by
  obtain ⟨e, he, rfl⟩ := Option.map_eq_some_iff.1 hb
  obtain ⟨x, happ, hx⟩ := h.made i j A e he
  exact ⟨e, x, he, rfl, happ, h.sound.inside_of_get? he ▸ hx⟩

variable [MonotoneScore α]

/-- The children of an entry have entries. -/
theorem exists_child (h : c.Linked g s R) {b : Backpointer} {x : α}
    (happ : Application g s c.inside b i j A x) {k l : Nat} (hmem : (k, l, B) ∈ b.places i j) :
    ∃ e, c.get? k l B = some e :=
  h.sound.exists_get?_of_possible (happ.possible_of_mem_places hmem)

/-- Backpointers that do not run in circles lead downwards. -/
theorem ranked (h : c.Linked g s R) (hacyclic : c.Acyclic) :
    (c.backpointers g.symbols s.words).Ranked c.depth := by
  have hfound : ∀ {b i j A x k l B}, Application g s c.inside b i j A x →
      (k, l, B) ∈ b.places i j →
      ((c.backpointers g.symbols s.words).find? k l B).isSome = true := by
    intro b i j A x k l B happ hmem
    obtain ⟨e, he⟩ := h.exists_child happ hmem
    simp [backpointers, he]
  refine
    { rank_le := fun i j A => Nat.le_succ_of_le depth_le
      lexical := fun i j A word hb => ?_
      unary := fun i j A child hb => ?_
      binary := fun i j A left right m hb => ?_ }
  · obtain ⟨e, x, -, -, happ, -⟩ := h.made_of_find? hb
    cases happ with
    | word _ _ terminal => exact ⟨rfl, Sentence.lt_size_of_terminal? terminal⟩
  · obtain ⟨e, x, he, heb, happ, -⟩ := h.made_of_find? hb
    obtain ⟨e', he'⟩ := h.exists_child happ List.mem_cons_self
    refine ⟨hfound happ List.mem_cons_self, depth_lt_of_unaryLink hacyclic ⟨e, he, heb⟩ ?_⟩
    rw [h.sound.numNonterminals_eq]
    exact (h.sound.bounds he').2.2
  · obtain ⟨e, x, -, -, happ, -⟩ := h.made_of_find? hb
    have hright : (m, j, right) ∈ (Backpointer.binary left right m).places i j :=
      List.mem_cons_of_mem _ List.mem_cons_self
    obtain ⟨l, hl⟩ := h.exists_child happ List.mem_cons_self
    obtain ⟨r, hr⟩ := h.exists_child happ hright
    exact ⟨(h.sound.bounds hl).1, (h.sound.bounds hr).1, hfound happ List.mem_cons_self,
      hfound happ hright⟩

/-- There is a tree if and only if the sentence has a parse. -/
theorem isSome_viterbiTree? (h : c.Linked g s R) (hacyclic : c.Acyclic) (root : NonTerminal) :
    (c.viterbiTree? g.symbols s.words root).isSome = true ↔ c.hasParse root = true := by
  rw [viterbiTree?]
  split
  · next hparse =>
    refine ⟨fun _ => hparse, fun _ => ?_⟩
    have hpos : Score.impossible < c.inside 0 c.size root := by
      simp only [hasParse, Bool.and_eq_true, decide_eq_true_iff] at hparse
      exact hparse.2
    obtain ⟨e, he⟩ := h.sound.exists_get?_of_possible hpos
    exact (h.ranked hacyclic).isSome_follow 0 c.size root (by simp [backpointers, he]) _
      ((h.ranked hacyclic).rank_le _ _ _)
  · next hparse => simp [hparse]

/-- The backpointers of an entry describe a derivation, whose score is at least that of the entry. -/
theorem exists_derivation (h : c.Linked g s (· ≤ ·)) (hacyclic : c.Acyclic)
    (hpos : Score.impossible < c.inside i j A) :
    ∃ d, Derives g s i j A d ∧ c.inside i j A ≤ d.score ∧
      ∀ unaries, c.depth i j A ≤ unaries →
        (c.backpointers g.symbols s.words).follow i j A unaries =
          some (d.tree g.symbols.name s.words i) := by
  have hranked := h.ranked hacyclic
  refine hranked.induction (motive := fun i j A => ∃ d, Derives g s i j A d ∧
    c.inside i j A ≤ d.score ∧ ∀ unaries, c.depth i j A ≤ unaries →
      (c.backpointers g.symbols s.words).follow i j A unaries =
        some (d.tree g.symbols.name s.words i)) ?_ ?_ ?_ i j A ?_
  · intro i A word hb
    obtain ⟨e, x, -, -, happ, hle⟩ := h.made_of_find? hb
    cases happ with
    | @word _ p _ mem children terminal =>
      refine ⟨.word p, .word mem children terminal trivial, hle, fun unaries _ => ?_⟩
      exact Backpointers.follow_lexical hb (Sentence.lt_size_of_terminal? terminal) unaries
  · intro i j A child hb ⟨d, hd, hscore, hfollow⟩
    obtain ⟨e, x, -, -, happ, hle⟩ := h.made_of_find? hb
    have hlt := (hranked.unary _ _ _ _ hb).2
    cases happ with
    | @unary _ _ p _ mem children possible =>
      refine ⟨.unary p d, .unary mem children hd trivial,
        Score.le_trans hle (Score.add_le_add_left hscore _), fun unaries hu => ?_⟩
      obtain ⟨unaries, rfl⟩ : ∃ n, unaries = n + 1 := ⟨unaries - 1, by omega⟩
      rw [Backpointers.follow_unary hb, hfollow unaries (by omega)]
      rfl
  · intro i j A left right m hb ⟨d, hd, hleft, hfollowl⟩ ⟨f, hf, hright, hfollowr⟩
    obtain ⟨e, x, -, -, happ, hle⟩ := h.made_of_find? hb
    obtain ⟨hl, hr, -, -⟩ := hranked.binary _ _ _ _ _ _ hb
    cases happ with
    | @binary _ _ _ p _ _ mem children leftPossible rightPossible =>
      refine ⟨.binary p d f, .binary mem children hd hf trivial,
        Score.le_trans hle (MonotoneScore.add_le_add (Score.add_le_add_left hleft _) hright),
        fun unaries _ => ?_⟩
      have hstop := hd.stop_eq
      rw [Backpointers.follow_binary hb hl hr (hfollowl _ (hranked.rank_le _ _ _))
        (hfollowr _ (hranked.rank_le _ _ _)), Derivation.tree, ← hstop]
      rfl
  · obtain ⟨e, he⟩ := h.sound.exists_get?_of_possible hpos
    simp [backpointers, he]

/-- The tree that is read off the chart is that of a derivation of the sentence, whose score is at least
the one that the chart reports. -/
theorem viterbiTree?_eq (h : c.Linked g s (· ≤ ·)) (hacyclic : c.Acyclic) {root : NonTerminal}
    (hparse : c.hasParse root = true) :
    ∃ d, Derives g s 0 s.size root d ∧
      c.viterbiTree? g.symbols s.words root = some (d.tree g.symbols.name s.words 0) ∧
      c.inside 0 s.size root ≤ d.score := by
  have hpos : Score.impossible < c.inside 0 s.size root := by
    simp only [hasParse, h.size_eq, Bool.and_eq_true, decide_eq_true_iff] at hparse
    exact hparse.2
  obtain ⟨d, hd, hscore, hfollow⟩ := h.exists_derivation hacyclic hpos
  refine ⟨d, hd, ?_, hscore⟩
  rw [viterbiTree?, if_pos hparse, h.size_eq]
  exact hfollow _ ((h.ranked hacyclic).rank_le _ _ _)

end Linked

/-! ## Maxima -/

variable [MonotoneScore α]

/-- In a chart whose scores are those of derivations, a score that none exceeds is that of the best
one. -/
theorem isMaximum_of_score_le (hc : c.Sound g)
    (hderived : ∀ i j A e, c.get? i j A = some e →
      Score.impossible < e.inside ∧ ∃ d, Derives g s i j A d ∧ d.score = e.inside)
    (hle : ∀ d, Derives g s i j A d → d.score ≤ c.inside i j A) :
    IsMaximum (Derives g s i j A) (c.inside i j A) := by
  have hfound : c.inside i j A = Score.impossible ∨
      ∃ d, Derives g s i j A d ∧ d.score = c.inside i j A ∧ Score.impossible < d.score := by
    rw [hc.inside_eq]
    cases he : c.get? i j A with
    | none => exact .inl rfl
    | some e =>
      obtain ⟨hpos, d, hd, hscore⟩ := hderived i j A e he
      exact .inr ⟨d, hd, hscore, hscore ▸ hpos⟩
  refine ⟨hle, ?_, fun heq => ?_, fun hnone => ?_⟩
  · rcases hfound with heq | ⟨d, hd, hscore, -⟩
    · exact .inl heq
    · exact .inr ⟨d, hd, hscore⟩
  · rintro ⟨d, hd, hpos⟩
    have hd' := hle d hd
    rw [heq] at hd'
    exact Score.not_le.2 hpos hd'
  · rcases hfound with heq | ⟨d, hd, -, hpos⟩
    · exact heq
    · exact absurd ⟨d, hd, hpos⟩ hnone

/-- In a chart whose scores are those of derivations and that no rule can improve, every score is that of
the best derivation. -/
theorem isMaximum_of_closed (hc : c.Sound g)
    (hderived : ∀ i j A e, c.get? i j A = some e →
      Score.impossible < e.inside ∧ ∃ d, Derives g s i j A d ∧ d.score = e.inside)
    (hclosed : ∀ b i j A x, Application g s c.inside b i j A x → x ≤ c.inside i j A)
    (i j : Nat) (A : NonTerminal) : IsMaximum (Derives g s i j A) (c.inside i j A) :=
  isMaximum_of_score_le hc hderived fun _ hd => Application.score_le_of_closed hclosed hd

end Chart

end Constituency
