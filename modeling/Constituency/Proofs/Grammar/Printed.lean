import Constituency.Grammar.Printer
import Constituency.Proofs.Decimal.Reread
import Constituency.Proofs.Grammar.Closed
import Constituency.Proofs.Grammar.Reading

/-!
# The text of a grammar as a layout

A grammar is written as comments and rules on lines of their own (`Layout.exists_layout_text`). The reader
of layouts finds the productions in names there, with the scores that are read again for those that were
written.
-/

namespace Constituency

namespace Layout

open Text Decimal

variable {t : SymbolTable} {p : Production Float32} {x : Float32} {name : String}

/-- The brackets with a score. -/
def Chance.ofScore (h : x ≤ 0) : Chance where
  opening := Gap.none
  log := some (Gap.none, Gap.none)
  raw := (Decimal.ofScore x).toList
  value := reread x
  closing := Gap.none
  number := (number?_ofScore h).1
  positive hlog := nomatch hlog
  atMostOne := (number?_ofScore h).2

/-- A line with nothing but a comment. -/
def Line.ofComment (comment : Comment) : Line :=
  ⟨⟨[], ⟨Gap.none, none⟩⟩, some comment, fun _ hlast => nomatch hlast⟩

/-- A rule with single blanks between its parts, and a score. -/
def Rule.spaced (parent first : Name) (others : List Name) (h : x ≤ 0) : Rule where
  parent
  beforeArrow := Break.single
  behindArrow := Break.single.toGap
  first
  others := others.map (Break.single, ·)
  chance := some (Break.single.toGap, Chance.ofScore h)

theorem Rule.text_spaced (parent first : Name) (others : List Name) (h : x ≤ 0) :
    (Rule.spaced parent first others h).text = parent.text ++ (" -> ".toList ++
      (rowText first (others.map (Break.single, ·)) ++
        (" [log=".toList ++ ((Decimal.ofScore x).toList ++ "]".toList)))) := by
  rfl

theorem rowText_spaced (first : Name) (others : List Name) :
    rowText first (others.map (Break.single, ·)) =
      [' '].intercalate ((first :: others).map Name.text) := by
  induction others generalizing first with
  | nil => simp [rowText]
  | cons next others ih =>
    simp only [List.map_cons, rowText, ih, List.intercalate_cons_cons, List.append_assoc]
    rfl

/-- The text of a production lists its symbols between the parent and the score. -/
theorem text_production (t : SymbolTable) (p : Production Float32) : (p.text t).toList =
    (t.name p.parent).toList ++ (" -> ".toList ++
      ([' '].intercalate ((p.children.named t.nonterminals t.lexicon).names.map String.toList) ++
        (" [log=".toList ++ ((Decimal.ofScore p.logProb).toList ++ "]".toList)))) := by
  have hrow : ∀ row : String, (t.name p.parent ++ " -> " ++ row ++ " [log=" ++
      Decimal.ofScore p.logProb ++ "]").toList = (t.name p.parent).toList ++ (" -> ".toList ++
        (row.toList ++ (" [log=".toList ++ ((Decimal.ofScore p.logProb).toList ++ "]".toList)))) := by
    intro row
    simp only [String.toList_append, List.append_assoc]
  obtain ⟨parent, children, x⟩ := p
  cases children with
  | binary left right =>
    refine (hrow _).trans ?_
    simp [Children.named, List.intercalate_cons_cons, SymbolTable.name]
  | unary child => exact (hrow _).trans (by simp [Children.named, SymbolTable.name])
  | lexical word => exact (hrow _).trans (by simp [Children.named, SymbolTable.name, SymbolTable.word])

/-- A production is written as a rule with the score that will be read. -/
theorem exists_rule_text
    (hnames : ∀ name ∈ (p.named t.nonterminals t.lexicon).names, Writable name) (hx : p.logProb ≤ 0) :
    ∃ rule : Rule, rule.text = (p.text t).toList ∧
      ∀ line, rule.written line = ((p.named t.nonterminals t.lexicon).map reread).written line := by
  obtain ⟨hparent, hchildren⟩ := List.forall_mem_cons.1 hnames
  cases hlist : (p.named t.nonterminals t.lexicon).children.names with
  | nil =>
    cases hc : p.children <;> simp [Production.named, Children.named, hc] at hlist
  | cons first others =>
    rw [hlist] at hchildren
    obtain ⟨hfirst, hothers⟩ := List.forall_mem_cons.1 hchildren
    have htexts : (Name.of first hfirst :: others.pmap Name.of hothers).map Name.text =
        (first :: others).map String.toList := by
      simp [Name.of, List.map_pmap]
    refine ⟨Rule.spaced (Name.of _ hparent) (Name.of _ hfirst) (others.pmap Name.of hothers) hx, ?_,
      fun line => ?_⟩
    · rw [Rule.text_spaced, rowText_spaced, htexts, text_production, ← hlist]
      rfl
    · have hsymbols : (Name.of first hfirst :: ((others.pmap Name.of hothers).map
          (Break.single, ·)).map (·.2)).map (fun name => String.ofList name.text) =
          (p.named t.nonterminals t.lexicon).children.names := by
        simp [hlist, Name.of, List.map_pmap]
      have hparentText : String.ofList (Name.of _ hparent).text =
          (p.named t.nonterminals t.lexicon).parent := String.ofList_toList
      simp only [Rule.written, Rule.spaced, hsymbols, hparentText]
      rfl

/-- The rules of a grammar on consecutive lines. -/
theorem exists_lines_text {ps : List (Production Float32)}
    (hps : ∀ p ∈ ps,
      (∀ name ∈ (p.named t.nonterminals t.lexicon).names, Writable name) ∧ p.logProb ≤ 0) :
    ∃ lines : List Line, lines.map Line.text = ps.map (fun p => (p.text t).toList) ∧
      ∀ first, rulesFrom first lines = NamedRule.writtenFrom first
        (ps.map fun p => (p.named t.nonterminals t.lexicon).map reread) := by
  induction ps with
  | nil => exact ⟨[], rfl, fun first => rfl⟩
  | cons p ps ih =>
    obtain ⟨⟨hnames, hx⟩, hps⟩ := List.forall_mem_cons.1 hps
    obtain ⟨rule, htext, hrule⟩ := exists_rule_text hnames hx
    obtain ⟨lines, htexts, hlines⟩ := ih hps
    refine ⟨Line.ofRule rule :: lines, ?_, fun first => ?_⟩
    · have hline : (Line.ofRule rule).text = (p.text t).toList := by
        rw [← htext]
        show [] ++ ([] ++ (rule.text ++ [])) ++ [] = rule.text
        simp
      rw [List.map_cons, List.map_cons, hline, htexts]
    · show rule.written first :: rulesFrom (first + 1) lines = _
      rw [hrule, hlines]
      rfl

/-- Comments lay out no rules. -/
theorem exists_lines_comments {texts : List String}
    (h : ∀ text ∈ texts, commentMark <+: text.toList ∧ '\n' ∉ text.toList) :
    ∃ lines : List Line, lines.map Line.text = texts.map String.toList ∧
      ∀ first, rulesFrom first lines = [] := by
  induction texts with
  | nil => exact ⟨[], rfl, fun first => rfl⟩
  | cons text texts ih =>
    obtain ⟨⟨⟨comment, hcomment⟩, hinline⟩, htexts⟩ := List.forall_mem_cons.1 h
    obtain ⟨lines, hlines, hnone⟩ := ih htexts
    have hrest : '\n' ∉ comment := fun hmem =>
      hinline (hcomment ▸ List.mem_append_right commentMark hmem)
    refine ⟨Line.ofComment ⟨comment, hrest⟩ :: lines, ?_, fun first => ?_⟩
    · rw [List.map_cons, List.map_cons, hlines, ← hcomment]
      rfl
    · exact hnone (first + 1)

theorem not_newline_of_writable (h : Writable name) : '\n' ∉ name.toList := by
  intro hmem
  have hblank := h.nameChar _ hmem
  revert hblank
  decide

theorem comment_append {label rest : String} (hmark : commentMark <+: label.toList)
    (hlabel : '\n' ∉ label.toList) (hrest : '\n' ∉ rest.toList) :
    commentMark <+: (label ++ rest).toList ∧ '\n' ∉ (label ++ rest).toList := by
  rw [String.toList_append, List.mem_append, not_or]
  exact ⟨hmark.trans (List.prefix_append _ _), hlabel, hrest⟩

/-- The heading is all comments. -/
theorem heading_comments (hnames : ∀ name ∈ t.nonterminals.toList, Writable name) :
    ∀ text ∈ t.heading, commentMark <+: text.toList ∧ '\n' ∉ text.toList := by
  have hinline : ∀ name ∈ t.nonterminals.toList, '\n' ∉ name.toList :=
    fun name hname => not_newline_of_writable (hnames name hname)
  rw [SymbolTable.heading, List.forall_mem_cons, List.forall_mem_cons, List.forall_mem_singleton]
  refine ⟨comment_append (by decide) (by decide) ?_, comment_append (by decide) (by decide)
    (hinline _ (Vocabulary.name_mem_toList t.start_lt)), comment_append (by decide) (by decide) ?_⟩
  · rw [String.toList_join, List.mem_flatMap]
    rintro ⟨text, htext, hmem⟩
    obtain ⟨name, hname, rfl⟩ := List.mem_map.1 htext
    rw [String.toList_append, List.mem_append] at hmem
    exact hmem.elim (by decide) (hinline name hname)
  · intro hmem
    exact absurd (Decimal.isDigit_of_mem_toString _ hmem) (by decide)

/-- The text of a grammar whose symbols can be written lays out its rules, from the fourth line on. -/
theorem exists_layout_text {g : Grammar Float32}
    (hnames : ∀ name ∈ g.symbols.nonterminals.toList, Writable name)
    (hps : ∀ p ∈ g.productions,
      (∀ name ∈ (p.named g.symbols.nonterminals g.symbols.lexicon).names, Writable name) ∧
        p.logProb ≤ 0) :
    ∃ l : Layout, String.ofList l.text = g.text ∧ l.rules = NamedRule.writtenFrom 4
      (g.productions.map fun p => (p.named g.symbols.nonterminals g.symbols.lexicon).map reread) := by
  obtain ⟨heading, hheading, hnone⟩ := exists_lines_comments (heading_comments hnames)
  obtain ⟨lines, hlines, hrules⟩ := exists_lines_text hps
  have hthree : heading.length = 3 := by
    have hlength := congrArg List.length hheading
    rwa [List.length_map, List.length_map] at hlength
  refine ⟨⟨heading ++ lines, Line.empty⟩, ?_, ?_⟩
  · have htext : (⟨heading ++ lines, Line.empty⟩ : Layout).text =
        ((heading ++ lines).map Line.text).flatMap (· ++ ['\n']) := List.append_nil _
    rw [htext, ← String.toList_inj, String.toList_ofList, Grammar.text, String.toList_join, Grammar.lines,
      List.map_append, hheading, hlines]
    simp [List.flatMap_map]
  · have hlast : ∀ first, rulesFrom first [Line.empty] = [] := fun first => rfl
    rw [Layout.rules, rulesFrom_append, rulesFrom_append, hnone, hthree, hrules, hlast, List.append_nil]
    rfl

end Layout

end Constituency
