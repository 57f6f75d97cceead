import Constituency.Proofs.Grammar.Binarization
import Constituency.Proofs.Grammar.Reading

/-!
# The grammar of a layout

A builder takes rules in binary form, one after the other, and stops at the first word among several
children (`WrittenRule.assemble`). This is the grammar of some rules, and the grammar that is read from any
text in which they are laid out (`Layout.read_assemble`). The log probabilities that are laid out are at
most zero (`Layout.logProb_le`), and a builder makes no others of them (`WrittenRule.forall_assemble`).
-/

namespace Constituency

namespace WrittenRule

variable {α : Type} [Score α] {rules : List (WrittenRule α)} {r : WrittenRule α}
  {b : GrammarBuilder α} {isWord : String → Bool} {s : NamedRule α} {e : GrammarError}

/-! ## Misplaced words -/

/-- The complaint about the first word among several children. -/
def misplaced? (isWord : String → Bool) (r : WrittenRule α) : Option GrammarError :=
  if 2 ≤ r.children.length then
    (r.children.find? isWord).map fun word =>
      .malformed r.line (.wordAmongChildren word r.children.length)
  else none

/-- What a builder makes of some rules in their order. The parent of the first one is the start symbol. -/
def assemble (rules : List (WrittenRule α)) : Except GrammarError (Grammar α) :=
  match rules.head?, rules.findSome? (misplaced? (wordTest rules)) with
  | none, _ => .error .empty
  | some _, some e => .error e
  | some first, none =>
    ((binaryRules rules).foldl GrammarBuilder.add (GrammarBuilder.new first.parent)).build

omit [Score α] in
theorem misplaced?_eq_none_iff : r.misplaced? isWord = none ↔
    (2 ≤ r.children.length → ∀ c ∈ r.children, isWord c = false) := by
  rw [misplaced?]
  split_ifs with hlength
  · simp [hlength]
  · simp [hlength]

omit [Score α] in
theorem findSome?_misplaced?_eq_none_iff : rules.findSome? (misplaced? (wordTest rules)) = none ↔
    ¬ ∃ r ∈ rules, 2 ≤ r.children.length ∧ ∃ c ∈ r.children, IsWord rules c := by
  simp only [List.findSome?_eq_none_iff, misplaced?_eq_none_iff, ← wordTest_iff, not_exists, not_and,
    Bool.not_eq_true]

omit [Score α] in
theorem exists_malformed_of_findSome? (h : rules.findSome? (misplaced? isWord) = some e) :
    ∃ line fault, e = .malformed line fault := by
  obtain ⟨r, -, hr⟩ := List.exists_of_findSome?_eq_some h
  rw [misplaced?] at hr
  split_ifs at hr
  obtain ⟨word, -, rfl⟩ := Option.map_eq_some_iff.1 hr
  exact ⟨_, _, rfl⟩

/-- A builder takes a rule in binary form, or complains about a word in it. -/
theorem addTo_eq (r : WrittenRule α) (b : GrammarBuilder α) : r.addTo isWord b =
    match r.misplaced? isWord with
    | some e => .error e
    | none => .ok ((r.steps isWord).foldl GrammarBuilder.add b) := by
  cases hmisplaced : r.misplaced? isWord with
  | none => exact addTo_eq_ok_iff.2 ⟨rfl, misplaced?_eq_none_iff.1 hmisplaced⟩
  | some e =>
    rw [misplaced?] at hmisplaced
    split_ifs at hmisplaced with hlength
    obtain ⟨word, hword, rfl⟩ := Option.map_eq_some_iff.1 hmisplaced
    rw [addTo]
    split
    · next child hchild =>
      rw [hchild] at hlength
      simp at hlength
    · rw [hword]

theorem foldlM_addTo_eq (rules : List (WrittenRule α)) (b : GrammarBuilder α) :
    rules.foldlM (addTo isWord) b =
      match rules.findSome? (misplaced? isWord) with
      | some e => .error e
      | none => .ok ((rules.flatMap (steps isWord)).foldl GrammarBuilder.add b) := by
  induction rules generalizing b with
  | nil => rfl
  | cons r rest ih =>
    rw [List.foldlM_cons, addTo_eq, List.findSome?_cons]
    cases hr : r.misplaced? isWord with
    | some e => rfl
    | none =>
      rw [List.flatMap_cons, List.foldl_append]
      exact ih _

/-- The grammar of some rules is what a builder makes of them. -/
theorem ofRules_eq_assemble (rules : List (WrittenRule α)) : Grammar.ofRules rules = assemble rules := by
  cases rules with
  | nil => rfl
  | cons first rest =>
    rw [Grammar.ofRules, assemble, List.head?_cons]
    show (first :: rest).foldlM (addTo (wordTest (first :: rest))) _ >>= GrammarBuilder.build = _
    rw [foldlM_addTo_eq]
    cases (first :: rest).findSome? (misplaced? (wordTest (first :: rest))) <;> rfl

omit [Score α] in
/-- A builder does not read, and finds nothing malformed. -/
theorem build_ne_malformed (b : GrammarBuilder α) (line : Nat) (fault : RuleFault) :
    b.build ≠ .error (.malformed line fault) := by
  rw [GrammarBuilder.build]
  split_ifs
  · exact fun h => nomatch h
  · exact fun h => nomatch h
  · split
    · exact fun h => nomatch h
    · exact fun h => nomatch h

/-- Rules are malformed if a word stands among several children, and for no other reason. -/
theorem assemble_malformed_iff : (∃ line fault, assemble rules = .error (.malformed line fault)) ↔
    ∃ r ∈ rules, 2 ≤ r.children.length ∧ ∃ c ∈ r.children, IsWord rules c := by
  rw [← not_iff_not, ← findSome?_misplaced?_eq_none_iff, assemble]
  cases hrules : rules with
  | nil =>
    refine iff_of_true ?_ rfl
    rintro ⟨line, fault, h⟩
    cases h
  | cons first rest =>
    rw [List.head?_cons]
    cases hfirst : (first :: rest).findSome? (misplaced? (wordTest (first :: rest))) with
    | none =>
      refine iff_of_true ?_ rfl
      rintro ⟨line, fault, h⟩
      exact build_ne_malformed _ line fault h
    | some e =>
      obtain ⟨line, fault, rfl⟩ := exists_malformed_of_findSome? hfirst
      exact iff_of_false (fun h => h ⟨line, fault, rfl⟩) (fun h => nomatch h)

end WrittenRule

/-! ## Log probabilities -/

section Bounds

variable {α : Type} [Score α] {P : α → Prop} {p : Production α} {ps : List (Production α)}
  {b : GrammarBuilder α} {r : NamedRule α} {rules : List (NamedRule α)}

/-- To insert a production brings no log probabilities but its own. -/
theorem Production.forall_insert (h : ∀ q ∈ ps, P q.logProb) (hp : P p.logProb) :
    ∀ q ∈ p.insert ps, P q.logProb := by
  intro q hq
  rcases mem_insert.1 hq with ⟨hq, -⟩ | ⟨old, hold, -, rfl⟩ | ⟨-, rfl⟩
  · exact h q hq
  · rcases Score.best_eq_left_or_right old.logProb p.logProb with hbest | hbest
    · show P (Score.best old.logProb p.logProb)
      rw [hbest]
      exact h old hold
    · show P (Score.best old.logProb p.logProb)
      rw [hbest]
      exact hp
  · exact hp

theorem GrammarBuilder.forall_add (h : ∀ q ∈ b.productions, P q.logProb) (hr : P r.logProb) :
    ∀ q ∈ (b.add r).productions, P q.logProb := by
  unfold add
  split
  · exact Production.forall_insert h hr
  · exact Production.forall_insert h hr
  · exact Production.forall_insert h hr

theorem GrammarBuilder.forall_foldl_add (h : ∀ q ∈ b.productions, P q.logProb)
    (hrules : ∀ r ∈ rules, P r.logProb) : ∀ q ∈ (rules.foldl add b).productions, P q.logProb := by
  induction rules generalizing b with
  | nil => exact h
  | cons r rest ih =>
    obtain ⟨hr, hrest⟩ := List.forall_mem_cons.1 hrules
    exact ih (forall_add h hr) hrest

/-- The binary rules of a rule have its log probability, or none to speak of. -/
theorem WrittenRule.forall_binaryRules {rules : List (WrittenRule α)} (hzero : P 0)
    (h : ∀ r ∈ rules, P r.logProb) : ∀ s ∈ binaryRules rules, P s.logProb := by
  intro s hs
  obtain ⟨r, hr, hs⟩ := List.mem_flatMap.1 hs
  rcases mem_steps.1 hs with ⟨children, -, rfl⟩ | hs
  · exact h r hr
  · obtain ⟨c, d, rest, -, rfl⟩ := mem_spine.1 hs
    exact hzero

theorem WrittenRule.forall_assemble {rules : List (WrittenRule α)} {g : Grammar α} (hzero : P 0)
    (h : ∀ r ∈ rules, P r.logProb) (hg : assemble rules = .ok g) : ∀ p ∈ g.productions, P p.logProb := by
  unfold assemble at hg
  split at hg
  · cases hg
  · cases hg
  · next first _ _ =>
    rw [(GrammarBuilder.of_build hg).2.2.2]
    exact GrammarBuilder.forall_foldl_add (fun q hq => nomatch hq) (forall_binaryRules hzero h)

end Bounds

namespace Layout

open WrittenRule

variable {r : WrittenRule Float32}

/-- The rules that are laid out have probabilities of at most one. -/
theorem logProb_le (l : Layout) (hr : r ∈ l.rules) : r.logProb ≤ 0 := by
  obtain ⟨⟨line, number⟩, -, hr⟩ := List.mem_flatMap.1 hr
  obtain ⟨rule, -, rfl⟩ := List.mem_map.1 hr
  show rule.chance.elim 0 (·.2.logProb) ≤ 0
  cases rule.chance with
  | none => decide
  | some chance => exact chance.2.atMostOne

/-- To read a text of rules, however they are laid out, is to hand them to a builder one by one, in binary
form. The text is malformed if a word stands among several children, and for no other reason. In a grammar
that is read all log probabilities are numbers, and none is positive. -/
theorem read_assemble (l : Layout) :
    Grammar.read (String.ofList l.text) = assemble l.rules ∧
    ((∃ line fault, Grammar.read (String.ofList l.text) = .error (.malformed line fault)) ↔
      ∃ r ∈ l.rules, 2 ≤ r.children.length ∧ ∃ c ∈ r.children, IsWord l.rules c) ∧
    ∀ g, Grammar.read (String.ofList l.text) = .ok g →
      ∀ p ∈ g.productions, p.logProb ≤ 0 ∧ p.logProb.isNaN = false := by
  have hread : Grammar.read (String.ofList l.text) = assemble l.rules := by
    rw [Grammar.read, l.readAll, ← ofRules_eq_assemble]
    rfl
  rw [hread]
  refine ⟨rfl, assemble_malformed_iff, fun g hg p hp => ?_⟩
  have hle := forall_assemble (P := (· ≤ 0)) (by decide) (fun r => l.logProb_le) hg p hp
  exact ⟨hle, Binary32.isNaN_eq_false_of_le hle⟩

/-- A logarithm in brackets. -/
def minusOne : Chance where
  opening := Gap.none
  log := some (Gap.none, Gap.none)
  raw := "-1".toList
  value := -1
  closing := Gap.none
  number := by decide +kernel
  positive h := nomatch h
  atMostOne := by decide +kernel

/-- Two rules on two lines. The first line has an empty statement, a comment and a carriage return. -/
def twoLines : Layout where
  ended := [{
    code.ended := [⟨Gap.none, some (⟨Name.of "S" (by decide), Break.single, Break.single.toGap,
      Name.of "N" (by decide), [(Break.single, Name.of "N" (by decide))],
      some (Break.single.toGap, minusOne)⟩, Gap.none)⟩]
    code.last := ⟨Break.single.toGap, none⟩
    comment := some ⟨" two\r".toList, by decide⟩
    apart := by decide +kernel }]
  last := Line.ofRule ⟨Name.of "N" (by decide), Break.single, Break.single.toGap,
    Name.of "a" (by decide), [], none⟩

theorem read_assemble_twoLines :
    String.ofList twoLines.text = "S -> N N [log=-1]; // two\r\nN -> a" ∧
    ∃ g, Grammar.read (String.ofList twoLines.text) = .ok g ∧ (∃ p ∈ g.productions, p.logProb = -1) ∧
      ∀ p ∈ g.productions, p.logProb ≤ 0 ∧ p.logProb.isNaN = false := by
  have hlegible : Legible twoLines.rules :=
    ⟨by decide, by decide, by decide, apart_of_free (by decide) (by decide)⟩
  obtain ⟨g, hg⟩ := Grammar.exists_ofRules hlegible (by decide) (by decide +kernel)
  obtain ⟨hread, -, hbounded⟩ := read_assemble twoLines
  have hok : Grammar.read (String.ofList twoLines.text) = .ok g :=
    hread.trans ((ofRules_eq_assemble twoLines.rules).symm.trans hg)
  obtain ⟨p, hp, -, hlogProb⟩ := ((Grammar.holds_of_ofRules hg).1.productions "S" (.binary "N" "N")
    (-1)).1 rfl
  exact ⟨by decide, g, hok, ⟨p, hp, hlogProb⟩, hbounded g hok⟩

end Layout

end Constituency
