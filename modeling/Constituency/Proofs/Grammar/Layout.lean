import Constituency.Grammar.Reader
import Constituency.Proofs.Text

/-!
# Layouts of rules

The ways in which rules can be laid out as a text. A layout (`Layout`) has all that the text has: the
symbols and probabilities of the rules, the blanks between them, empty statements and comments. It gives
the text (`Layout.text`), and the rules that it lays out, with the numbers of their lines
(`Layout.rules`).

A statement takes up a part of a line that has no semicolon and no comment mark in it (`Code.cutAt`,
`Code.pieces`). To take the carriage return from the end of a line leaves a line with the same rules
(`Line.chomp`).
-/

namespace Constituency

namespace Layout

open Text WrittenRule

/-- What a comment begins with. -/
def commentMark : List Char := ['/', '/']

/-- The character is no comment mark's, and it ends neither a statement nor a line. -/
def IsInner (c : Char) : Prop := c ∉ commentMark ∧ c ≠ ';' ∧ c ≠ '\n'

/-- The text may be part of a statement. -/
structure Fits (text : List Char) : Prop where
  uncommented : ¬ commentMark <:+: text
  within : ∀ c ∈ text, c ≠ ';' ∧ c ≠ '\n'

/-! ## Blanks and symbols -/

/-- Blanks within a line. -/
structure Gap where
  text : List Char
  blank : ∀ c ∈ text, isBlank c = true
  inline : '\n' ∉ text

/-- Blanks that keep two symbols apart. -/
structure Break extends Gap where
  nonempty : text ≠ []

/-- A symbol. -/
structure Name where
  text : List Char
  nonempty : text ≠ []
  nameChar : ∀ c ∈ text, isNameChar c = true
  uncommented : ¬ commentMark <:+: text

/-! ## Probabilities -/

/-- A probability in brackets. It is at most one, and positive unless it is a logarithm. -/
structure Chance where
  /-- The blanks behind the bracket. -/
  opening : Gap
  /-- The blanks before and behind the equals sign of a logarithm. -/
  log : Option (Gap × Gap)
  /-- The number as it is spelled. -/
  raw : List Char
  value : Float32
  /-- The blanks before the bracket. -/
  closing : Gap
  number : number? raw = some value
  positive : log = none → 0 < value
  atMostOne : (if log.isSome then value else value.log) ≤ 0

namespace Chance

/-- The announcement of a logarithm. -/
def mark (x : Chance) : List Char :=
  match x.log with
  | none => []
  | some (before, behind) => logMark ++ (before.text ++ '=' :: behind.text)

def text (x : Chance) : List Char :=
  '[' :: (x.opening.text ++ (x.mark ++ (x.raw ++ (x.closing.text ++ [']']))))

def logProb (x : Chance) : Float32 := if x.log.isSome then x.value else x.value.log

end Chance

/-! ## Rules -/

/-- The text of symbols in a row. -/
def rowText : Name → List (Break × Name) → List Char
  | name, [] => name.text
  | name, (gap, next) :: others => name.text ++ (gap.text ++ rowText next others)

/-- A rule, with the blanks between its parts. -/
structure Rule where
  parent : Name
  beforeArrow : Break
  behindArrow : Gap
  first : Name
  others : List (Break × Name)
  chance : Option (Gap × Chance)

namespace Rule

def chanceText (r : Rule) : List Char :=
  match r.chance with
  | none => []
  | some (gap, chance) => gap.text ++ chance.text

def text (r : Rule) : List Char :=
  r.parent.text ++ (r.beforeArrow.text ++ (arrow ++ (r.behindArrow.text ++
    (rowText r.first r.others ++ r.chanceText))))

/-- The rule itself. Without a probability it is certain. -/
def written (r : Rule) (line : Nat) : WrittenRule Float32 where
  line
  parent := String.ofList r.parent.text
  children := (r.first :: r.others.map (·.2)).map fun name => String.ofList name.text
  logProb := r.chance.elim 0 (·.2.logProb)

end Rule

/-! ## Lines -/

/-- A statement: blanks, and a rule with more blanks unless it is empty. -/
structure Statement where
  leading : Gap
  rule : Option (Rule × Gap)

namespace Statement

/-- The statement without its leading blanks. -/
def body (s : Statement) : List Char :=
  match s.rule with
  | none => []
  | some (rule, trailing) => rule.text ++ trailing.text

def text (s : Statement) : List Char := s.leading.text ++ s.body

end Statement

/-- Statements with semicolons between them. -/
structure Code where
  /-- The statements before semicolons. -/
  ended : List Statement
  last : Statement

namespace Code

def text (code : Code) : List Char :=
  (code.ended.map Statement.text).flatMap (· ++ [';']) ++ code.last.text

/-- The rules with the blanks behind them. -/
def placed (code : Code) : List (Rule × Gap) :=
  (code.ended ++ [code.last]).filterMap Statement.rule

def rules (code : Code) : List Rule := code.placed.map (·.1)

end Code

/-- Text behind a comment mark. -/
structure Comment where
  text : List Char
  inline : '\n' ∉ text

/-- A line. Its comment stands apart from a slash before it. -/
structure Line where
  code : Code
  comment : Option Comment
  apart : comment.isSome = true → code.text.getLast? ≠ some '/'

def Line.text (line : Line) : List Char :=
  line.code.text ++ match line.comment with
    | none => []
    | some comment => commentMark ++ comment.text

end Layout

/-- A text of rules. -/
structure Layout where
  /-- The lines before line feeds. -/
  ended : List Layout.Line
  last : Layout.Line

namespace Layout

open Text WrittenRule

def text (l : Layout) : List Char :=
  (l.ended.map Line.text).flatMap (· ++ ['\n']) ++ l.last.text

/-- The rules of lines that are numbered from a number on. -/
def rulesFrom (first : Nat) (lines : List Line) : List (WrittenRule Float32) :=
  (lines.zipIdx first).flatMap fun (line, number) => line.code.rules.map (·.written number)

/-- The rules with the numbers of their lines. -/
def rules (l : Layout) : List (WrittenRule Float32) := rulesFrom 1 (l.ended ++ [l.last])

theorem rulesFrom_append (first : Nat) (lines more : List Line) :
    rulesFrom first (lines ++ more) = rulesFrom first lines ++ rulesFrom (first + lines.length) more := by
  rw [rulesFrom, List.zipIdx_append, List.flatMap_append]
  rfl

variable {a b m : List Char}

/-! ## What fits into a statement -/

theorem Fits.append_left (ha : Fits a) (hm : ∀ c ∈ m, IsInner c) : Fits (a ++ m) where
  uncommented := not_infix_append ha.uncommented fun c hc => (hm c hc).1
  within := List.forall_mem_append.2 ⟨ha.within, fun c hc => (hm c hc).2⟩

/-- Texts with other characters than slashes between them fit in together. -/
theorem Fits.join (ha : Fits a) (hb : Fits b) (hm : ∀ c ∈ m, IsInner c) (hne : m ≠ []) :
    Fits (a ++ (m ++ b)) where
  uncommented := not_infix_join ha.uncommented hb.uncommented (fun c hc => (hm c hc).1) hne
  within := List.forall_mem_append.2 ⟨ha.within,
    List.forall_mem_append.2 ⟨fun c hc => (hm c hc).2, hb.within⟩⟩

theorem fits_nil : Fits [] := ⟨by decide, fun _ hc => nomatch hc⟩

theorem isInner_of_isBlank {c : Char} (h : isBlank c = true) (hline : c ≠ '\n') : IsInner c := by
  refine ⟨fun hmem => ?_, ne_of_isBlank h (by decide), hline⟩
  have heq : c = '/' := by simpa [commentMark] using hmem
  exact ne_of_isBlank h (by decide) heq

theorem Gap.isInner (gap : Gap) : ∀ c ∈ gap.text, IsInner c := by
  intro c hc
  refine isInner_of_isBlank (gap.blank c hc) ?_
  rintro rfl
  exact gap.inline hc

theorem Name.fits (name : Name) : Fits name.text := by
  refine ⟨name.uncommented, fun c hc => ⟨?_, ?_⟩⟩
  · rintro rfl
    have hname := name.nameChar _ hc
    revert hname
    decide
  · rintro rfl
    have hname := name.nameChar _ hc
    revert hname
    decide

theorem fits_rowText (name : Name) (others : List (Break × Name)) : Fits (rowText name others) := by
  induction others generalizing name with
  | nil => exact name.fits
  | cons other others ih => exact name.fits.join (ih other.2) other.1.isInner other.1.nonempty

theorem Chance.isInner (x : Chance) : ∀ c ∈ x.text, IsInner c := by
  have hraw : ∀ c ∈ x.raw, IsInner c := by
    intro c hc
    obtain ⟨hblank, hplain⟩ := plain_of_mem_alphabet (mem_alphabet_of_number? x.number hc)
    simp only [foreignMarks, List.mem_cons, not_or] at hplain
    refine ⟨by simp [commentMark, hplain], hplain.2.1, ?_⟩
    rintro rfl
    exact absurd hblank (by decide)
  have hlog : ∀ c ∈ logMark, IsInner c := by simp [logMark, IsInner, commentMark]
  have hmark : ∀ c ∈ x.mark, IsInner c := by
    rw [mark]
    split
    · exact fun c hc => nomatch hc
    · next before behind _ =>
      rw [List.forall_mem_append, List.forall_mem_append, List.forall_mem_cons]
      exact ⟨hlog, before.isInner, by simp [IsInner, commentMark], behind.isInner⟩
  rw [text, List.forall_mem_cons, List.forall_mem_append, List.forall_mem_append,
    List.forall_mem_append, List.forall_mem_append]
  exact ⟨by simp [IsInner, commentMark], x.opening.isInner, hmark, hraw, x.closing.isInner,
    by simp [IsInner, commentMark]⟩

theorem Rule.fits (r : Rule) : Fits r.text := by
  have hchance : ∀ c ∈ r.chanceText, IsInner c := by
    rw [chanceText]
    split
    · exact fun c hc => nomatch hc
    · next gap chance _ => exact List.forall_mem_append.2 ⟨gap.isInner, chance.isInner⟩
  have harrow : ∀ c ∈ r.beforeArrow.text ++ (arrow ++ r.behindArrow.text), IsInner c :=
    List.forall_mem_append.2 ⟨r.beforeArrow.isInner,
      List.forall_mem_append.2 ⟨by simp [arrow, IsInner, commentMark], r.behindArrow.isInner⟩⟩
  have hjoin := r.parent.fits.join ((fits_rowText r.first r.others).append_left hchance) harrow
    (List.append_ne_nil_of_left_ne_nil r.beforeArrow.nonempty _)
  rw [List.append_assoc, List.append_assoc] at hjoin
  exact hjoin

theorem Statement.fits (s : Statement) : Fits s.text := by
  have hbody : Fits s.body := by
    rw [body]
    split
    · exact fits_nil
    · next rule trailing _ => exact rule.fits.append_left trailing.isInner
  rw [text]
  cases hgap : s.leading.text with
  | nil => exact hbody
  | cons c gap =>
    exact fits_nil.join hbody (hgap ▸ s.leading.isInner) (List.cons_ne_nil c gap)

/-! ## What stands before comments -/

namespace Code

theorem pieces (code : Code) :
    Text.pieces (· == ';') code.text = (code.ended ++ [code.last]).map Statement.text := by
  have hfree : ∀ s : Statement, ∀ c ∈ s.text, (c == ';') = false :=
    fun s c hc => beq_eq_false_iff_ne.2 (s.fits.within c hc).1
  have hended : ∀ part ∈ code.ended.map Statement.text, ∀ c ∈ part, (c == ';') = false := by
    rw [List.forall_mem_map]
    exact fun s _ => hfree s
  rw [text, pieces_flatMap hended (hfree code.last) rfl, List.map_append, List.map_singleton]

theorem uncommented (code : Code) : ¬ commentMark <:+: code.text := by
  obtain ⟨ended, last⟩ := code
  rw [text]
  induction ended with
  | nil => exact last.fits.uncommented
  | cons s ended ih =>
    rw [List.map_cons, List.flatMap_cons, List.append_assoc, List.append_assoc]
    exact not_infix_join s.fits.uncommented ih (by simp [commentMark]) (by decide)

theorem inline (code : Code) : '\n' ∉ code.text := by
  have hstatement : ∀ s : Statement, '\n' ∉ s.text := fun s h => (s.fits.within _ h).2 rfl
  rw [text, List.mem_append, not_or, List.mem_flatMap]
  refine ⟨?_, hstatement code.last⟩
  rintro ⟨part, hpart, hmem⟩
  obtain ⟨s, -, rfl⟩ := List.mem_map.1 hpart
  rcases List.mem_append.1 hmem with hmem | hmem
  · exact hstatement s hmem
  · revert hmem
    decide

end Code

namespace Line

theorem inline (line : Line) : '\n' ∉ line.text := by
  have hmark : '\n' ∉ commentMark := by decide
  rw [text, List.mem_append, not_or]
  refine ⟨line.code.inline, ?_⟩
  split
  · exact List.not_mem_nil
  · next comment _ => exact fun h => (List.mem_append.1 h).elim hmark comment.inline

/-- A comment is cut off, and nothing else. -/
theorem cutAt (line : Line) : (Text.cutAt commentMark line.text).1 = line.code.text := by
  rw [text]
  split
  · rw [List.append_nil, cutAt_of_not_infix line.code.uncommented]
  · next comment hcomment =>
    have hapart := line.apart (by rw [hcomment, Option.isSome_some])
    rw [cutAt_append]
    -- a mark that begins sooner begins with a slash at the end of the code
    intro hwithin
    rcases List.infix_concat_iff.1 hwithin with hsuffix | hwithin
    · obtain hnil | ⟨before, hmark, hsuffix⟩ := List.suffix_concat_iff.1 hsuffix
      · cases hnil
      · obtain rfl : ['/'] = before := List.append_inj_left' hmark rfl
        exact hapart (List.singleton_suffix_iff_getLast?_eq_some.1 hsuffix)
    · exact line.code.uncommented hwithin

end Line

/-! ## Carriage returns -/

/-- The text ends, and not in a blank. -/
def Tight (text : List Char) : Prop := ∃ c, text.getLast? = some c ∧ isBlank c = false

theorem Tight.append (hb : Tight b) : Tight (a ++ b) := by
  obtain ⟨c, hlast, hc⟩ := hb
  exact ⟨c, by rw [List.getLast?_append, hlast, Option.some_or], hc⟩

theorem Tight.chomp_append (ha : Tight a) : Text.chomp (a ++ b) = a ++ Text.chomp b := by
  obtain ⟨c, hlast, hc⟩ := ha
  refine Text.chomp_append ?_
  rw [hlast]
  exact fun heq => ne_of_isBlank (by decide) hc (Option.some.inj heq).symm

theorem Name.isBlank_eq_false (name : Name) : ∀ c ∈ name.text, isBlank c = false := by
  intro c hc
  have hname := name.nameChar c hc
  simp only [isNameChar, Bool.not_eq_true', Bool.or_eq_false_iff] at hname
  exact hname.1.1.1

theorem Name.tight (name : Name) : Tight name.text :=
  ⟨_, List.getLast?_eq_some_getLast name.nonempty,
    name.isBlank_eq_false _ (List.getLast_mem name.nonempty)⟩

theorem tight_rowText (name : Name) (others : List (Break × Name)) : Tight (rowText name others) := by
  induction others generalizing name with
  | nil => exact name.tight
  | cons other others ih => exact (ih other.2).append.append

theorem Rule.tight (r : Rule) : Tight r.text := by
  have hbody : Tight (rowText r.first r.others ++ r.chanceText) := by
    rw [chanceText]
    split
    · rw [List.append_nil]
      exact tight_rowText r.first r.others
    · next gap chance _ =>
      have hbracket : Tight [']'] := ⟨']', rfl, by decide⟩
      have hchance : Tight chance.text := by
        rw [Chance.text, ← List.singleton_append]
        exact hbracket.append.append.append.append.append
      exact hchance.append.append
  exact hbody.append.append.append.append

/-- Blanks without a carriage return at their end. -/
def Gap.chomp (gap : Gap) : Gap where
  text := Text.chomp gap.text
  blank c hc := gap.blank c (chomp_subset _ hc)
  inline h := gap.inline (chomp_subset _ h)

/-- The statement without a carriage return at its end. -/
def Statement.chomp (s : Statement) : Statement :=
  match s.rule with
  | none => ⟨s.leading.chomp, none⟩
  | some (rule, trailing) => ⟨s.leading, some (rule, trailing.chomp)⟩

theorem Statement.text_chomp (s : Statement) : s.chomp.text = Text.chomp s.text := by
  obtain ⟨leading, - | ⟨rule, trailing⟩⟩ := s
  · show leading.chomp.text ++ [] = _
    rw [text, body, List.append_nil, List.append_nil, Gap.chomp]
  · show leading.text ++ (rule.text ++ Text.chomp trailing.text) = _
    rw [text, body, ← List.append_assoc, ← List.append_assoc, rule.tight.append.chomp_append]

theorem Statement.rule_chomp (s : Statement) : s.chomp.rule.map (·.1) = s.rule.map (·.1) := by
  obtain ⟨leading, - | ⟨rule, trailing⟩⟩ := s <;> rfl

namespace Code

/-- The code without a carriage return at its end. -/
def chomp (code : Code) : Code where
  ended := code.ended
  last := code.last.chomp

theorem text_chomp (code : Code) : code.chomp.text = Text.chomp code.text := by
  have hended : ((code.ended.map Statement.text).flatMap (· ++ [';'])).getLast? ≠ some '\r' := by
    rcases List.eq_nil_or_concat code.ended with hnil | ⟨ended, s, hconcat⟩
    · simp [hnil]
    · simp [hconcat]
  rw [chomp, text, text, Statement.text_chomp, chomp_append hended]

theorem rules_chomp (code : Code) : code.chomp.rules = code.rules := by
  rw [rules, rules, placed, placed, List.map_filterMap, List.map_filterMap, List.filterMap_append,
    List.filterMap_append, chomp, List.filterMap_cons, List.filterMap_cons, Statement.rule_chomp]

end Code

namespace Line

/-- The line without a carriage return at its end. -/
def chomp (line : Line) : Line :=
  match hcomment : line.comment with
  | none => ⟨line.code.chomp, none, fun h => nomatch h⟩
  | some comment =>
    ⟨line.code, some ⟨Text.chomp comment.text, fun h => comment.inline (chomp_subset _ h)⟩,
      fun _ => line.apart (by rw [hcomment, Option.isSome_some])⟩

theorem text_chomp (line : Line) : line.chomp.text = Text.chomp line.text := by
  obtain ⟨code, - | comment, apart⟩ := line
  · rw [chomp, text, text, List.append_nil, List.append_nil, Code.text_chomp]
  · have hmark : (code.text ++ commentMark).getLast? ≠ some '\r' := by
      rw [List.getLast?_append]
      exact fun h => nomatch h
    rw [chomp, text, text, ← List.append_assoc, ← List.append_assoc, chomp_append hmark]

theorem rules_chomp (line : Line) : line.chomp.code.rules = line.code.rules := by
  obtain ⟨code, - | comment, apart⟩ := line
  · exact code.rules_chomp
  · rfl

end Line

/-! ## Rules that can be laid out -/

/-- A name that can be a symbol. -/
structure Writable (name : String) : Prop where
  nonempty : name.toList ≠ []
  nameChar : ∀ c ∈ name.toList, isNameChar c = true
  uncommented : ¬ commentMark <:+: name.toList

instance Writable.decidable (name : String) : Decidable (Writable name) :=
  decidable_of_iff (name.toList ≠ [] ∧ name.toList.all isNameChar = true ∧
      ¬ commentMark <:+: name.toList)
    ⟨fun h => ⟨h.1, List.all_eq_true.1 h.2.1, h.2.2⟩,
      fun h => ⟨h.nonempty, List.all_eq_true.2 h.nameChar, h.uncommented⟩⟩

/-- A rule with such symbols, at least one of them behind the arrow, and a probability that can be
written, unless it is certain. -/
structure WritableRule (r : WrittenRule Float32) : Prop where
  parent : Writable r.parent
  nonempty : r.children ≠ []
  children : ∀ c ∈ r.children, Writable c
  logProb : r.logProb = 0 ∨ ∃ x : Chance, x.logProb = r.logProb

/-- The symbol of a name. -/
def Name.of (name : String) (h : Writable name) : Name where
  text := name.toList
  nonempty := h.nonempty
  nameChar := h.nameChar
  uncommented := h.uncommented

/-- No blanks. -/
def Gap.none : Gap := ⟨[], fun _ hc => (nomatch hc), List.not_mem_nil⟩

/-- A single blank. -/
def Break.single : Break where
  text := [' ']
  blank := List.forall_mem_singleton.2 rfl
  inline := by decide
  nonempty := List.cons_ne_nil _ _

/-- The line of a rule. -/
def Line.ofRule (r : Rule) : Line := ⟨⟨[], ⟨Gap.none, some (r, Gap.none)⟩⟩, none, fun h => nomatch h⟩

/-- A line on which there is nothing. -/
def Line.empty : Line := ⟨⟨[], ⟨Gap.none, none⟩⟩, none, fun h => nomatch h⟩

theorem exists_rule {r : WrittenRule Float32} (h : WritableRule r) :
    ∃ rule : Rule, ∀ line, rule.written line = { r with line } := by
  obtain ⟨line, parent, children, logProb⟩ := r
  obtain ⟨hparent, hne, hchildren, hlogProb⟩ := h
  obtain ⟨chance, hchance⟩ : ∃ chance : Option (Gap × Chance),
      chance.elim 0 (·.2.logProb) = logProb := by
    rcases hlogProb with hzero | ⟨x, hx⟩
    · exact ⟨none, hzero.symm⟩
    · exact ⟨some (Gap.none, x), hx⟩
  cases children with
  | nil => exact absurd rfl hne
  | cons first others =>
    obtain ⟨hfirst, hothers⟩ := List.forall_mem_cons.1 hchildren
    refine ⟨⟨Name.of parent hparent, Break.single, Gap.none, Name.of first hfirst,
      others.pmap (fun c hc => (Break.single, Name.of c hc)) hothers, chance⟩, fun number => ?_⟩
    simp [Rule.written, hchance, Name.of, List.map_pmap]

theorem exists_lines {rules : List (WrittenRule Float32)} (h : ∀ r ∈ rules, WritableRule r) :
    ∃ lines : List Line, ∀ first,
      rulesFrom first lines = (rules.zipIdx first).map fun (r, line) => { r with line } := by
  induction rules with
  | nil => exact ⟨[], fun first => rfl⟩
  | cons r rest ih =>
    obtain ⟨hr, hrest⟩ := List.forall_mem_cons.1 h
    obtain ⟨rule, hrule⟩ := exists_rule hr
    obtain ⟨lines, hlines⟩ := ih hrest
    refine ⟨Line.ofRule rule :: lines, fun first => ?_⟩
    rw [List.zipIdx_cons, List.map_cons, ← hlines]
    exact congrArg (· :: rulesFrom (first + 1) lines) (hrule first)

/-- Every list of such rules can be laid out. -/
theorem exists_layout {rules : List (WrittenRule Float32)} (h : ∀ r ∈ rules, WritableRule r) :
    ∃ l : Layout, l.rules = (rules.zipIdx 1).map fun (r, line) => { r with line } := by
  obtain ⟨lines, hlines⟩ := exists_lines h
  refine ⟨⟨lines, Line.empty⟩, ?_⟩
  rw [Layout.rules, rulesFrom_append, hlines]
  exact List.append_nil _

end Layout

end Constituency
