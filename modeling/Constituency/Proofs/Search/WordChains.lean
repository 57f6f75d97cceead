import Constituency.Proofs.Search.Acyclic

/-!
# Unary rules over single words

An exhaustive search that sums may run its unary backpointers in circles over several words, but not over
a single one. There a unary rule stands on what the rules for the word give, one score for each symbol,
and takes the place of an entry only if it is better. A rule that is no gain therefore leads from each
symbol to one that the word gives a higher score (`inside_lt_of_unaryPass`), so that in no chart of any
search does a chain of unary backpointers over a word come back to a symbol
(`Parser.search_acyclicWords`).
-/

namespace Constituency

variable {α : Type} [Score α] {g : Grammar α} {acc : Accumulator α} {s : Sentence}
  {c c' : Chart α} {i j : Nat} {A B : NonTerminal}

/-! ## Charts -/

namespace Chart

/-- Over a single word no chain of unary backpointers comes back to a symbol. -/
def AcyclicWords (c : Chart α) : Prop :=
  ∀ i A, ¬ Relation.TransGen (c.UnaryLink i (i + 1)) A A

omit [Score α] in
theorem Acyclic.acyclicWords (h : c.Acyclic) : c.AcyclicWords := fun i => h i (i + 1)

omit [Score α] in
/-- Backpointers may be left out. -/
theorem AcyclicWords.anti (h : c.AcyclicWords)
    (hlink : ∀ i A B, c'.UnaryLink i (i + 1) A B → c.UnaryLink i (i + 1) A B) :
    c'.AcyclicWords :=
  fun i A hcycle => h i A (hcycle.lift id (hlink i))

end Chart

/-- A cell to which each symbol is added once keeps the scores as they are, whether it sums or not. -/
theorem Scratch.Tight.foldl_add_of_nodup {cell : Scratch α} {entries : List (Entry α)}
    (ht : cell.Tight) (hnodup : (entries.map (·.nonterminal)).Nodup)
    (hnew : ∀ e ∈ entries, cell.find? e.nonterminal = none)
    (hnt : ∀ e ∈ entries, e.nonterminal < cell.held.size) :
    (entries.foldl (Scratch.add acc) cell).Tight := by
  induction entries generalizing cell with
  | nil => exact ht
  | cons e rest ih =>
    obtain ⟨hout, hnodup⟩ := List.nodup_cons.1 hnodup
    have hfind : ∀ A, (cell.add acc e).find? A = _ :=
      Scratch.find?_add (hnt e List.mem_cons_self)
    refine ih (fun A h hA => ?_) hnodup (fun e' he' => ?_) fun e' he' => ?_
    · rw [hfind] at hA
      split at hA
      · next heq =>
        rw [heq.1, hnew e List.mem_cons_self] at hA
        obtain rfl := Option.some.inj hA
        rfl
      · exact ht A h hA
    · have hne : e'.nonterminal ≠ e.nonterminal := by
        intro heq
        exact hout (List.mem_map.2 ⟨e', he', heq⟩)
      rw [hfind, if_neg fun heq => hne heq.1]
      exact hnew e' (List.mem_cons_of_mem _ he')
    · rw [Scratch.size_add]
      exact hnt e' (List.mem_cons_of_mem _ he')

namespace Exhaustive

/-! ## Cells of one word -/

omit [Score α] in
/-- The rules for a word give each symbol one entry. -/
theorem nodup_lexicalEntries (g : Grammar α) (terminal : Option Terminal) :
    ((lexicalEntries g terminal).map (·.nonterminal)).Nodup := by
  cases terminal with
  | none => exact List.nodup_nil
  | some word =>
    rw [lexicalEntries, List.map_map]
    refine (Grammar.nodup_byWord g word).map_on fun p hp q hq heq => ?_
    obtain ⟨hp, hpc⟩ := Grammar.mem_byWord.1 hp
    obtain ⟨hq, hqc⟩ := Grammar.mem_byWord.1 hq
    exact Grammar.eq_of_sameRule hp hq heq (hpc.trans hqc.symm)

theorem lexicalCell_tight_of_sum (g : Grammar α) (acc : Accumulator α) (s : Sentence) (i : Nat) :
    (lexicalCell g acc s i).1.Tight := by
  refine (Scratch.tight_empty i (i + 1) g.numNonterminals).foldl_add_of_nodup
    (nodup_lexicalEntries g _) (fun e _ => Scratch.find?_empty _ _ _ _) fun e he => ?_
  rw [Scratch.empty, Array.size_replicate]
  exact parent_lt_of_mem_lexicalEntries he

variable [MonotoneScore α]

/-- Over a word a unary backpointer leads to a symbol that the word gives a higher score. -/
theorem inside_lt_of_unaryPass (hnonpos : ∀ p ∈ g.productions, p.logProb ≤ 0)
    (hacc : acc.KeepsPossible) {held : Held α}
    (hA : (unaryPass g acc (lexicalCell g acc s i).1).1.find? A = some held)
    (hb : held.backpointer = .unary B) :
    (lexicalCell g acc s i).1.inside A < (lexicalCell g acc s i).1.inside B := by
  have hgathers := lexicalCell_gathers hacc g s i
  have htight := lexicalCell_tight_of_sum g acc s i
  have hnt : ∀ e ∈ unaryEntries g (lexicalCell g acc s i).1.entries,
      e.nonterminal < (lexicalCell g acc s i).1.held.size := fun e he =>
    hgathers.size_eq ▸ parent_lt_of_mem_unaryEntries he
  rcases Scratch.backpointer_foldl_add hnt hA with ⟨old, hold, hsame⟩ | ⟨e, he, rfl, hbe, hlt⟩
  · obtain ⟨e, he, -, hlex, -⟩ := hgathers.source A old hold
    obtain ⟨p, word, -, -, -, rfl⟩ := mem_lexicalEntries.1 he
    cases hlex.trans (hsame.trans hb)
  · obtain ⟨child, hchild, p, hp, -, rfl⟩ := mem_unaryEntries.1 he
    obtain ⟨below, hbelow, heq⟩ := Scratch.get?_eq_some_iff.1 (Scratch.mem_entries.1 hchild)
    obtain rfl : child.nonterminal = B := Backpointer.unary.inj (hbe.trans hb)
    have hinside : (lexicalCell g acc s i).1.inside child.nonterminal = child.inside := by
      rw [Scratch.inside_of_find? hbelow, heq]
    rw [htight.best_eq] at hlt
    rw [hinside]
    exact Score.lt_of_lt_of_le hlt (Score.add_le_of_nonpos (hnonpos p hp) _)

/-! ## Charts -/

/-- A chart with some of its cells filled, without circles over words. -/
structure Filling (g : Grammar α) (s : Sentence) (visited : List (Nat × Nat)) (c : Chart α) :
    Prop where
  sound : c.Sound g
  size_eq : c.size = s.size
  acyclicWords : c.AcyclicWords
  blank : ∀ k l A, (k, l) ∉ visited → c.get? k l A = none

theorem fillCell_filling (hnonpos : ∀ p ∈ g.productions, p.logProb ≤ 0)
    (hacc : acc.KeepsPossible) (count : Nat) {stats : Stats} {visited : List (Nat × Nat)}
    (hij : i < j) (hj : j ≤ s.size) (hnew : (i, j) ∉ visited) (h : Filling g s visited c) :
    Filling g s (visited ++ [(i, j)]) (fillCell g acc count s (c, stats) (i, j)).1 := by
  rw [chart_fillCell]
  have hshaped : (unaryPass g acc (baseCell g acc count s c i j)).1.Shaped g i j :=
    ((baseCell_gathers hacc _ _ count s i j).foldl_add hacc
      fun _ => parent_lt_of_mem_unaryEntries).toShaped
  have hj' : j ≤ c.size := h.size_eq ▸ hj
  have hcases := fun {k l A e} => Chart.get?_commit_cases (k := k) (l := l) (A := A) (e := e)
    h.sound hshaped hij hj'
  obtain ⟨hsound, hsize⟩ := Chart.sound_commit h.sound hshaped hij hj'
  refine ⟨hsound, hsize.trans h.size_eq, fun k A => ?_, fun k l A hkl => ?_⟩
  · by_cases hspan : k = i ∧ k + 1 = j
    · obtain ⟨rfl, rfl⟩ := hspan
      have hbase : baseCell g acc count s c k (k + 1) = (lexicalCell g acc s k).1 := by
        rw [baseCell, if_pos (beq_self_eq_true _)]
      refine Chart.not_transGen_self
        (fun x y => decide ((lexicalCell g acc s k).1.inside y <
          (lexicalCell g acc s k).1.inside x)) (fun x y z hxy hyz => ?_) (fun x => ?_)
        (fun A B hlink => ?_) A
      · rw [decide_eq_true_iff] at hxy hyz ⊢
        exact Score.lt_of_lt_of_le hyz (Score.le_of_lt hxy)
      · exact decide_eq_false (Score.lt_irrefl _)
      · obtain ⟨e, he, hb⟩ := hlink
        rcases hcases he with hold | ⟨-, hcell⟩
        · rw [h.blank _ _ _ hnew] at hold
          cases hold
        · obtain ⟨held, hheld, rfl⟩ := Scratch.get?_eq_some_iff.1 hcell
          rw [hbase] at hheld
          exact decide_eq_true (inside_lt_of_unaryPass hnonpos hacc hheld hb)
    · refine fun hcycle => h.acyclicWords k A (hcycle.lift id fun A B hlink => ?_)
      obtain ⟨e, he, hb⟩ := hlink
      exact ⟨e, (hcases he).resolve_right fun hnew => hspan hnew.1, hb⟩
  · rw [List.mem_append, List.mem_singleton, Prod.mk.injEq, not_or] at hkl
    rw [Option.eq_none_iff_forall_ne_some]
    intro e he
    rcases hcases he with hold | ⟨hspan, -⟩
    · rw [h.blank k l A hkl.1] at hold
      cases hold
    · exact hkl.2 hspan

theorem fill_acyclicWords (hnonpos : ∀ p ∈ g.productions, p.logProb ≤ 0)
    (hacc : acc.KeepsPossible) (count : Nat) (hc : c.Sound g) (hsize : c.size = s.size)
    (hblank : ∀ k l A, c.get? k l A = none) : (fill g acc count s c).1.AcyclicWords := by
  refine (spansUp_induction (P := fun visited (state : Chart α × Stats) =>
    Filling g s visited state.1) ⟨hc, hsize, fun k => ?_, fun k l A _ => hblank k l A⟩
    fun visited i j state hij hj hnew _ _ hv =>
      fillCell_filling hnonpos hacc count hij hj hnew hv).acyclicWords
  exact Chart.not_transGen_self (fun _ _ => false) (fun _ _ _ h => by cases h) (fun _ => rfl)
    fun A B ⟨e, he, _⟩ => by rw [hblank] at he; cases he

end Exhaustive

/-! ## Any search -/

/-- In the chart of any search no chain of unary backpointers over a word comes back to a symbol. -/
theorem Parser.search_acyclicWords [MonotoneScore α] (p : Parser α)
    (hnonpos : ∀ r ∈ p.grammar.productions, r.logProb ≤ 0)
    (hsums : p.options.strategy = .exhaustive → p.options.accumulator.KeepsPossible)
    (s : Sentence) : (p.search s).chart.AcyclicWords := by
  cases h : p.options.strategy with
  | exhaustive =>
    rw [search_exhaustive h]
    exact Exhaustive.fill_acyclicWords hnonpos (hsums h) p.options.segments
      (sound_emptyChart _ _ _) (size_emptyChart _ _ _) (get?_emptyChart _ _ _)
  | agenda | beam =>
    refine (p.search_grown hnonpos (fun hother => ?_) s).1.acyclic.acyclicWords
    rw [h] at hother
    cases hother

end Constituency
