import Constituency.Proofs.Grammar.Assembly
import Constituency.Proofs.Grammar.Mention

/-!
# Closed rules

Rules in binary form are closed if all their non-terminals have rules and none of their words does
(`NamedRule.Closed`). When such rules are written down they are their own binary form, and a builder takes
them as they are (`NamedRule.Closed.assemble_writtenFrom`). The binary form of written rules is closed
(`WrittenRule.closed_binaryRules`), and so are the productions that a builder makes of closed rules
(`GrammarBuilder.closed_productions`).
-/

namespace Constituency

open WrittenRule

/-! ## Rules that are written down -/

namespace NamedRule

variable {α : Type} {rules more : List (NamedRule α)} {s : NamedRule α} {first : Nat} {name : String}

/-- All non-terminals behind the arrow have rules, and no word has one. -/
structure Closed (rules : List (NamedRule α)) : Prop where
  nonterminal : ∀ s ∈ rules, ∀ name ∈ s.children.nonterminals, ∃ s' ∈ rules, s'.parent = name
  word : ∀ s ∈ rules, ∀ word ∈ s.children.words, ∀ s' ∈ rules, s'.parent ≠ word

theorem exists_mem_of_heads (h : ∀ x, x ∈ more.map head → x ∈ rules.map head) (hs : s ∈ more) :
    ∃ s' ∈ rules, s'.parent = s.parent ∧ s'.children = s.children := by
  obtain ⟨s', hs', hhead⟩ := List.mem_map.1 (h _ (List.mem_map_of_mem hs))
  obtain ⟨hparent, hchildren⟩ := Prod.mk.inj hhead
  exact ⟨s', hs', hparent, hchildren⟩

/-- Whether rules are closed does not depend on their order and their log probabilities. -/
theorem Closed.of_heads (h : Closed rules) (hheads : ∀ x, x ∈ more.map head ↔ x ∈ rules.map head) :
    Closed more := by
  constructor
  · intro s hs name hname
    obtain ⟨q, hq, -, hchildren⟩ := exists_mem_of_heads (fun x => (hheads x).1) hs
    obtain ⟨q', hq', rfl⟩ := h.nonterminal q hq name (hchildren ▸ hname)
    obtain ⟨s', hs', hparent, -⟩ := exists_mem_of_heads (fun x => (hheads x).2) hq'
    exact ⟨s', hs', hparent⟩
  · intro s hs word hword s' hs'
    obtain ⟨q, hq, -, hchildren⟩ := exists_mem_of_heads (fun x => (hheads x).1) hs
    obtain ⟨q', hq', hparent, -⟩ := exists_mem_of_heads (fun x => (hheads x).1) hs'
    rw [← hparent]
    exact h.word q hq word (hchildren ▸ hword) q' hq'

/-- The rule on a line. -/
def written (s : NamedRule α) (line : Nat) : WrittenRule α :=
  ⟨line, s.parent, s.children.names, s.logProb⟩

/-- The rules on consecutive lines. -/
def writtenFrom (first : Nat) (rules : List (NamedRule α)) : List (WrittenRule α) :=
  (rules.zipIdx first).map fun (s, line) => s.written line

theorem exists_of_mem_writtenFrom {r : WrittenRule α} (hr : r ∈ writtenFrom first rules) :
    ∃ s ∈ rules, ∃ line, r = s.written line := by
  obtain ⟨⟨s, line⟩, hmem, rfl⟩ := List.mem_map.1 hr
  exact ⟨s, List.fst_mem_of_mem_zipIdx hmem, line, rfl⟩

theorem wordTest_writtenFrom : wordTest (writtenFrom first rules) name = rules.all (·.parent != name) := by
  rw [wordTest, writtenFrom, List.all_map]
  conv_rhs => rw [← List.zipIdx_map_fst first rules, List.all_map]
  rfl

theorem Closed.wordTest_nonterminal (h : Closed rules) (hs : s ∈ rules)
    (hname : name ∈ s.children.nonterminals) : wordTest (writtenFrom first rules) name = false := by
  obtain ⟨s', hs', rfl⟩ := h.nonterminal s hs name hname
  rw [wordTest_writtenFrom, List.all_eq_false]
  exact ⟨s', hs', by simp⟩

theorem Closed.wordTest_word (h : Closed rules) (hs : s ∈ rules) (hname : name ∈ s.children.words) :
    wordTest (writtenFrom first rules) name = true := by
  rw [wordTest_writtenFrom, List.all_eq_true]
  exact fun s' hs' => bne_iff_ne.2 (h.word s hs name hname s' hs')

variable [Score α]

/-- A rule in binary form that is written down is its own binary rule. -/
theorem Closed.steps_written (h : Closed rules) (hs : s ∈ rules) (line : Nat) :
    (s.written line).steps (wordTest (writtenFrom first rules)) = [s] := by
  obtain ⟨parent, children, x⟩ := s
  cases children with
  | binary left right => rfl
  | unary child =>
    have hword : wordTest (writtenFrom first rules) child = false :=
      h.wordTest_nonterminal hs (List.mem_singleton.2 rfl)
    have htop : (written ⟨parent, .unary child, x⟩ line).top (wordTest (writtenFrom first rules)) =
        some (.unary child) := top_eq_unary_iff.2 ⟨rfl, hword⟩
    rw [steps, htop]
    rfl
  | lexical word =>
    have hword : wordTest (writtenFrom first rules) word = true :=
      h.wordTest_word hs (List.mem_singleton.2 rfl)
    have htop : (written ⟨parent, .lexical word, x⟩ line).top (wordTest (writtenFrom first rules)) =
        some (.lexical word) := top_eq_lexical_iff.2 ⟨rfl, hword⟩
    rw [steps, htop]
    rfl

theorem Closed.binaryRules_writtenFrom (h : Closed rules) (first : Nat) :
    binaryRules (writtenFrom first rules) = rules := by
  have hsteps : ∀ entry ∈ rules.zipIdx first,
      (entry.1.written entry.2).steps (wordTest (writtenFrom first rules)) = [entry.1] :=
    fun entry hentry => h.steps_written (List.fst_mem_of_mem_zipIdx hentry) entry.2
  calc binaryRules (writtenFrom first rules)
    _ = (rules.zipIdx first).flatMap fun entry =>
          (entry.1.written entry.2).steps (wordTest (writtenFrom first rules)) := List.flatMap_map ..
    _ = (rules.zipIdx first).flatMap fun entry => [entry.1] := List.flatMap_congr hsteps
    _ = rules := by rw [← List.map_eq_flatMap, List.zipIdx_map_fst]

omit [Score α] in
/-- No word stands among the children of a rule with two of them. -/
theorem Closed.findSome?_misplaced? (h : Closed rules) (first : Nat) :
    (writtenFrom first rules).findSome? (misplaced? (wordTest (writtenFrom first rules))) = none := by
  rw [List.findSome?_eq_none_iff]
  intro r hr
  obtain ⟨s, hs, line, rfl⟩ := exists_of_mem_writtenFrom hr
  rw [misplaced?_eq_none_iff]
  intro hlength name hname
  refine h.wordTest_nonterminal hs ?_
  obtain ⟨parent, children, x⟩ := s
  cases children with
  | binary left right => exact hname
  | unary | lexical => exact absurd hlength (by decide : ¬ 2 ≤ 1)

/-- What a builder makes of rules in binary form that are written down. -/
theorem Closed.assemble_writtenFrom (h : Closed rules) (first : Nat) {start : String}
    (hstart : rules.head?.map (·.parent) = some start) :
    assemble (writtenFrom first rules) = (rules.foldl GrammarBuilder.add (.new start)).build := by
  obtain ⟨s, hs, rfl⟩ := Option.map_eq_some_iff.1 hstart
  have hhead : (writtenFrom first rules).head? = some (s.written first) := by
    cases rules with
    | nil => cases hs
    | cons s' rest =>
      obtain rfl := Option.some.inj hs
      rfl
  rw [assemble, hhead, h.findSome?_misplaced?, h.binaryRules_writtenFrom]
  rfl

end NamedRule

namespace WrittenRule

variable {α : Type} [Score α] {rules : List (WrittenRule α)} {r : WrittenRule α} {l : List String}

/-- A parent has a rule in binary form. -/
theorem exists_binaryRule_parent (hr : r ∈ rules) (hne : r.children ≠ []) :
    ∃ s ∈ binaryRules rules, s.parent = r.parent := by
  obtain ⟨children, htop⟩ := exists_top hne (wordTest rules)
  exact ⟨_, List.mem_flatMap.2 ⟨r, hr, mem_steps.2 (.inl ⟨children, htop, rfl⟩)⟩, rfl⟩

/-- So has a symbol that stands for the last symbols of a rule. -/
theorem exists_binaryRule_tailName (hne : ∀ r ∈ rules, r.children ≠ [])
    (hplaced : ∀ r ∈ rules, 2 ≤ r.children.length →
      ∀ c ∈ r.children, ∃ r' ∈ rules, r'.parent = c)
    (hr : r ∈ rules) (hl : l <:+ r.children.tail) (hlist : l ≠ []) :
    ∃ s ∈ binaryRules rules, s.parent = tailName r.parent l := by
  rcases l with - | ⟨c, - | ⟨d, rest⟩⟩
  · exact absurd rfl hlist
  · obtain ⟨r', hr', hparent⟩ := hplaced r hr (two_le_length_of_suffix hl hlist) c
      (mem_children_of_suffix hl List.mem_cons_self)
    obtain ⟨s, hs, hsame⟩ := exists_binaryRule_parent hr' (hne r' hr')
    exact ⟨s, hs, hsame.trans hparent⟩
  · exact ⟨_, List.mem_flatMap.2 ⟨r, hr,
      mem_steps.2 (.inr (mem_spine.2 ⟨c, d, rest, hl, rfl⟩))⟩, rfl⟩

/-- Rules in binary form are closed: a symbol that is made up has the rule that takes its first symbol off,
and no word is the name of one. -/
theorem closed_binaryRules (hne : ∀ r ∈ rules, r.children ≠ [])
    (hplaced : ∀ r ∈ rules, 2 ≤ r.children.length →
      ∀ c ∈ r.children, ∃ r' ∈ rules, r'.parent = c)
    (hunmarked : ∀ r ∈ rules, ∀ name ∈ r.children, isFactoredName name = false) :
    NamedRule.Closed (binaryRules rules) := by
  have hparent : ∀ c, (∃ r ∈ rules, r.parent = c) → ∃ s ∈ binaryRules rules, s.parent = c := by
    rintro c ⟨r, hr, rfl⟩
    exact exists_binaryRule_parent hr (hne r hr)
  constructor
  · intro s hs name hname
    obtain ⟨r, hr, hs⟩ := List.mem_flatMap.1 hs
    rcases mem_steps.1 hs with ⟨children, htop, rfl⟩ | hs
    · cases children with
      | lexical word => cases hname
      | unary child =>
        obtain rfl := List.mem_singleton.1 hname
        exact hparent name (wordTest_eq_false_iff.1 (top_eq_unary_iff.1 htop).2)
      | binary left right =>
        obtain ⟨rest, hrest, hlist, rfl⟩ := top_eq_binary_iff.1 htop
        have htail : rest <:+ r.children.tail := by rw [hrest, List.tail_cons]
        rcases List.mem_pair.1 hname with rfl | rfl
        · exact hparent name (hplaced r hr (two_le_length_of_suffix htail hlist) name
            (by rw [hrest]; exact List.mem_cons_self))
        · exact exists_binaryRule_tailName hne hplaced hr htail hlist
    · obtain ⟨c, d, rest, hsuffix, rfl⟩ := mem_spine.1 hs
      rcases List.mem_pair.1 hname with rfl | rfl
      · exact hparent name (hplaced r hr (two_le_length_of_suffix hsuffix (List.cons_ne_nil _ _)) name
          (mem_children_of_suffix hsuffix List.mem_cons_self))
      · exact exists_binaryRule_tailName hne hplaced hr ((List.suffix_cons c _).trans hsuffix)
          (List.cons_ne_nil _ _)
  · intro s hs word hword s' hs'
    obtain ⟨r, hr, hs⟩ := List.mem_flatMap.1 hs
    -- only the beginning of a rule has a word, and then the word is all there is
    obtain ⟨hchildren, htest⟩ : r.children = [word] ∧ wordTest rules word = true := by
      rcases mem_steps.1 hs with ⟨children, htop, rfl⟩ | hs
      · cases children with
        | lexical word' =>
          obtain rfl := List.mem_singleton.1 hword
          exact top_eq_lexical_iff.1 htop
        | unary | binary => cases hword
      · obtain ⟨c, d, rest, -, rfl⟩ := mem_spine.1 hs
        cases hword
    obtain ⟨r', hr', hs'⟩ := List.mem_flatMap.1 hs'
    rcases mem_steps.1 hs' with ⟨children, -, rfl⟩ | hs'
    · exact wordTest_iff.1 htest r' hr'
    · obtain ⟨c, d, rest, -, rfl⟩ := mem_spine.1 hs'
      rintro rfl
      have hfalse := hunmarked r hr _ (by rw [hchildren]; exact List.mem_cons_self)
      rw [isFactoredName_factoredName] at hfalse
      cases hfalse

end WrittenRule

namespace GrammarBuilder

variable {α : Type} [Score α] {start : String} {rules : List (NamedRule α)} {b : GrammarBuilder α}

/-- The productions in names are closed if the rules are. -/
theorem closed_productions (hb : b = rules.foldl add (new start)) (h : NamedRule.Closed rules)
    (value : α → α) :
    NamedRule.Closed (b.productions.map fun p => (p.named b.nonterminals b.lexicon).map value) := by
  refine h.of_heads fun x => ?_
  rw [← mem_head_productions hb, List.map_map, List.map_map]
  rfl

end GrammarBuilder

end Constituency
