import Constituency.Chart.Entry
import Constituency.Proofs.Grammar.Index
import Constituency.Proofs.Score.Order
import Constituency.Sentence
import Constituency.Tree

/-!
# Derivations

What charts are about: the derivations of the words of a span from a non-terminal, with their scores
added up as a search adds them. A derivation may be confined to the nodes that a chart holds.
-/

namespace Constituency

/-- The rules of a derivation, from the top down and from left to right. -/
inductive Derivation (α : Type) where
  | word (rule : Production α)
  | unary (rule : Production α) (child : Derivation α)
  | binary (rule : Production α) (left right : Derivation α)

namespace Derivation

variable {α : Type}

/-- The rule at the top. -/
def rule : Derivation α → Production α
  | word rule | unary rule _ | binary rule _ _ => rule

/-- The symbol at the top. -/
def root (d : Derivation α) : NonTerminal := d.rule.parent

/-- The number of words. -/
def width : Derivation α → Nat
  | word _ => 1
  | unary _ child => child.width
  | binary _ left right => left.width + right.width

/-- The number of rules. -/
def size : Derivation α → Nat
  | word _ => 1
  | unary _ child => child.size + 1
  | binary _ left right => left.size + right.size + 1

/-- The top rule is a unary one. -/
def isUnary : Derivation α → Bool
  | unary _ _ => true
  | word _ | binary _ _ _ => false

/-- The number of words of the left child. -/
def leftWidth : Derivation α → Nat
  | word _ | unary _ _ => 0
  | binary _ left _ => left.width

/-- How the top symbol of a derivation that begins at a position is derived. -/
def backpointer (start : Nat) (d : Derivation α) : Backpointer :=
  match d.rule.children with
  | .lexical w => .lexical w
  | .unary nt => .unary nt
  | .binary left right => .binary left right (start + d.leftWidth)

/-- No unary rule stands directly on top of another one. -/
def SingleUnaries : Derivation α → Prop
  | word _ => True
  | unary _ child => child.isUnary = false ∧ child.SingleUnaries
  | binary _ left right => left.SingleUnaries ∧ right.SingleUnaries

/-- The log probability: at every node that of the rule, then the left child, then the right one. -/
def score [Add α] : Derivation α → α
  | word rule => rule.logProb
  | unary rule child => rule.logProb + child.score
  | binary rule left right => rule.logProb + left.score + right.score

/-- The constituents of a derivation that begins at a position: their spans and symbols. -/
def nodes (start : Nat) : Derivation α → List (Nat × Nat × NonTerminal)
  | word rule => [(start, start + 1, rule.parent)]
  | unary rule child => (start, start + child.width, rule.parent) :: child.nodes start
  | binary rule left right =>
    (start, start + left.width + right.width, rule.parent) ::
      (left.nodes start ++ right.nodes (start + left.width))

/-- The constituents as a tree. -/
def tree (name : NonTerminal → String) (words : List String) (start : Nat) :
    Derivation α → Tree
  | word rule => .join (name rule.parent) [.leaf (words.getD start "") start]
  | unary rule child => .join (name rule.parent) [child.tree name words start]
  | binary rule left right =>
    .join (name rule.parent)
      [left.tree name words start, right.tree name words (start + left.width)]

theorem width_pos (d : Derivation α) : 0 < d.width := by
  induction d with
  | word => exact Nat.one_pos
  | unary _ _ ih => exact ih
  | binary _ _ _ ihl _ => exact Nat.add_pos_left ihl _

theorem backpointer_word {p : Production α} {w : Terminal} (h : p.children = .lexical w)
    (start : Nat) : (word p).backpointer start = .lexical w := by
  rw [backpointer, rule, h]

theorem backpointer_unary {p : Production α} {child : NonTerminal}
    (h : p.children = .unary child) (d : Derivation α) (start : Nat) :
    (unary p d).backpointer start = .unary child := by
  rw [backpointer, rule, h]

theorem backpointer_binary {p : Production α} {left right : NonTerminal}
    (h : p.children = .binary left right) (d e : Derivation α) (start : Nat) :
    (binary p d e).backpointer start = .binary left right (start + d.width) := by
  rw [backpointer, rule, h, leftWidth]

theorem mem_nodes_self (d : Derivation α) (start : Nat) :
    (start, start + d.width, d.root) ∈ d.nodes start := by
  cases d <;> simp [nodes, width, root, rule, Nat.add_assoc]

end Derivation

/-- A score is the best of some derivations: none of them exceeds it, one of them has it, and it is
impossible exactly when all of them are. -/
structure IsMaximum {α : Type} [Score α] (among : Derivation α → Prop) (x : α) : Prop where
  score_le : ∀ d, among d → d.score ≤ x
  attained : x = Score.impossible ∨ ∃ d, among d ∧ d.score = x
  eq_impossible_iff : x = Score.impossible ↔ ¬ ∃ d, among d ∧ Score.impossible < d.score

/-- The rules of a derivation fit together, are rules of the grammar, and derive the words of a span
from a non-terminal, by way of live nodes alone. -/
inductive DerivesIn {α : Type} (g : Grammar α) (s : Sentence)
    (live : Nat → Nat → NonTerminal → Prop) :
    Nat → Nat → NonTerminal → Derivation α → Prop
  | word {start : Nat} {p : Production α} {word : Terminal} (mem : p ∈ g.productions)
      (children : p.children = .lexical word) (terminal : s.terminal? start = some word)
      (alive : live start (start + 1) p.parent) :
      DerivesIn g s live start (start + 1) p.parent (.word p)
  | unary {start stop : Nat} {p : Production α} {child : NonTerminal} {d : Derivation α}
      (mem : p ∈ g.productions) (children : p.children = .unary child)
      (below : DerivesIn g s live start stop child d) (alive : live start stop p.parent) :
      DerivesIn g s live start stop p.parent (.unary p d)
  | binary {start midpoint stop : Nat} {p : Production α} {left right : NonTerminal}
      {d e : Derivation α} (mem : p ∈ g.productions) (children : p.children = .binary left right)
      (leftBelow : DerivesIn g s live start midpoint left d)
      (rightBelow : DerivesIn g s live midpoint stop right e) (alive : live start stop p.parent) :
      DerivesIn g s live start stop p.parent (.binary p d e)

/-- A derivation of the words of a span from a non-terminal. -/
abbrev Derives {α : Type} (g : Grammar α) (s : Sentence) (start stop : Nat) (nt : NonTerminal)
    (d : Derivation α) : Prop :=
  DerivesIn g s (fun _ _ _ => True) start stop nt d

namespace DerivesIn

variable {α : Type} {g : Grammar α} {s : Sentence} {live : Nat → Nat → NonTerminal → Prop}
  {start stop : Nat} {nt : NonTerminal} {p : Production α} {d e : Derivation α}

theorem word_iff :
    DerivesIn g s live start stop nt (.word p) ↔
      p ∈ g.productions ∧ p.parent = nt ∧ stop = start + 1 ∧ live start stop nt ∧
        ∃ word, p.children = .lexical word ∧ s.terminal? start = some word := by
  constructor
  · rintro ⟨mem, children, terminal, alive⟩
    exact ⟨mem, rfl, rfl, alive, _, children, terminal⟩
  · rintro ⟨mem, rfl, rfl, alive, word, children, terminal⟩
    exact .word mem children terminal alive

theorem unary_iff :
    DerivesIn g s live start stop nt (.unary p d) ↔
      p ∈ g.productions ∧ p.parent = nt ∧ live start stop nt ∧
        ∃ child, p.children = .unary child ∧ DerivesIn g s live start stop child d := by
  constructor
  · intro h
    cases h with
    | unary mem children below alive => exact ⟨mem, rfl, alive, _, children, below⟩
  · rintro ⟨mem, rfl, alive, child, children, below⟩
    exact .unary mem children below alive

theorem binary_iff :
    DerivesIn g s live start stop nt (.binary p d e) ↔
      p ∈ g.productions ∧ p.parent = nt ∧ live start stop nt ∧
        ∃ left right midpoint, p.children = .binary left right ∧
          DerivesIn g s live start midpoint left d ∧
          DerivesIn g s live midpoint stop right e := by
  constructor
  · intro h
    cases h with
    | binary mem children leftBelow rightBelow alive =>
      exact ⟨mem, rfl, alive, _, _, _, children, leftBelow, rightBelow⟩
  · rintro ⟨mem, rfl, alive, left, right, midpoint, children, leftBelow, rightBelow⟩
    exact .binary mem children leftBelow rightBelow alive

theorem root_eq (h : DerivesIn g s live start stop nt d) : d.root = nt := by
  cases h <;> rfl

theorem rule_mem (h : DerivesIn g s live start stop nt d) : d.rule ∈ g.productions := by
  cases h <;> assumption

theorem alive (h : DerivesIn g s live start stop nt d) : live start stop nt := by
  cases h <;> assumption

theorem nt_lt (h : DerivesIn g s live start stop nt d) : nt < g.numNonterminals :=
  h.root_eq ▸ Grammar.parent_lt h.rule_mem

theorem stop_eq (h : DerivesIn g s live start stop nt d) : stop = start + d.width := by
  induction h with
  | word => rfl
  | unary _ _ _ _ ih => exact ih
  | binary _ _ _ _ _ ihl ihr => rw [ihr, ihl, Derivation.width, Nat.add_assoc]

theorem start_lt (h : DerivesIn g s live start stop nt d) : start < stop := by
  have := h.stop_eq
  have := d.width_pos
  omega

/-- The rule on top of a derivation leads to the symbols of its parts. -/
theorem of_unary (h : DerivesIn g s live start stop nt (.unary p d)) :
    p ∈ g.productions ∧ p.children = .unary d.root ∧ DerivesIn g s live start stop d.root d := by
  obtain ⟨mem, -, -, child, children, below⟩ := unary_iff.1 h
  obtain rfl := below.root_eq
  exact ⟨mem, children, below⟩

theorem of_binary (h : DerivesIn g s live start stop nt (.binary p d e)) :
    p ∈ g.productions ∧ p.children = .binary d.root e.root ∧
      DerivesIn g s live start (start + d.width) d.root d ∧
      DerivesIn g s live (start + d.width) stop e.root e := by
  obtain ⟨mem, -, -, left, right, midpoint, children, leftBelow, rightBelow⟩ := binary_iff.1 h
  obtain rfl := leftBelow.root_eq
  obtain rfl := rightBelow.root_eq
  obtain rfl := leftBelow.stop_eq
  exact ⟨mem, children, leftBelow, rightBelow⟩

theorem stop_le (h : DerivesIn g s live start stop nt d) : stop ≤ s.size := by
  induction h with
  | word _ _ terminal => exact Sentence.lt_size_of_terminal? terminal
  | unary _ _ _ _ ih => exact ih
  | binary _ _ _ _ _ _ ihr => exact ihr

theorem mono {live' : Nat → Nat → NonTerminal → Prop}
    (hlive : ∀ i j A, live i j A → live' i j A) (h : DerivesIn g s live start stop nt d) :
    DerivesIn g s live' start stop nt d := by
  induction h with
  | word mem children terminal alive => exact .word mem children terminal (hlive _ _ _ alive)
  | unary mem children _ alive ih => exact .unary mem children ih (hlive _ _ _ alive)
  | binary mem children _ _ alive ihl ihr => exact .binary mem children ihl ihr (hlive _ _ _ alive)

/-- A possible derivation is made of possible ones, and so leads through what they lead through. -/
theorem of_possible [Score α] [MonotoneScore α]
    (hlive : ∀ i j A d, Derives g s i j A d → Score.impossible < d.score → live i j A)
    (h : Derives g s start stop nt d) (hpos : Score.impossible < d.score) :
    DerivesIn g s live start stop nt d := by
  induction h with
  | word mem children terminal =>
    exact .word mem children terminal (hlive _ _ _ _ (.word mem children terminal trivial) hpos)
  | unary mem children below _ ih =>
    exact .unary mem children (ih (Score.impossible_lt_of_add hpos).2)
      (hlive _ _ _ _ (.unary mem children below trivial) hpos)
  | binary mem children leftBelow rightBelow _ ihl ihr =>
    obtain ⟨hleft, hright⟩ := Score.impossible_lt_of_add hpos
    exact .binary mem children (ihl (Score.impossible_lt_of_add hleft).2) (ihr hright)
      (hlive _ _ _ _ (.binary mem children leftBelow rightBelow trivial) hpos)

end DerivesIn

/-! ## Rules applied to the scores of a chart -/

/-- The places of the children of an entry over a span. -/
def Backpointer.places (start stop : Nat) : Backpointer → List (Nat × Nat × NonTerminal)
  | .lexical _ => []
  | .unary child => [(start, stop, child)]
  | .binary left right midpoint => [(start, midpoint, left), (midpoint, stop, right)]

/-- A rule applied to what a chart has for its children. The last argument is the score that
results. -/
inductive Application {α : Type} [Score α] (g : Grammar α) (s : Sentence)
    (inside : Nat → Nat → NonTerminal → α) : Backpointer → Nat → Nat → NonTerminal → α → Prop
  | word {start : Nat} {p : Production α} {word : Terminal} (mem : p ∈ g.productions)
      (children : p.children = .lexical word) (terminal : s.terminal? start = some word) :
      Application g s inside (.lexical word) start (start + 1) p.parent p.logProb
  | unary {start stop : Nat} {p : Production α} {child : NonTerminal} (mem : p ∈ g.productions)
      (children : p.children = .unary child)
      (possible : Score.impossible < inside start stop child) :
      Application g s inside (.unary child) start stop p.parent
        (p.logProb + inside start stop child)
  | binary {start midpoint stop : Nat} {p : Production α} {left right : NonTerminal}
      (mem : p ∈ g.productions) (children : p.children = .binary left right)
      (leftPossible : Score.impossible < inside start midpoint left)
      (rightPossible : Score.impossible < inside midpoint stop right) :
      Application g s inside (.binary left right midpoint) start stop p.parent
        (p.logProb + inside start midpoint left + inside midpoint stop right)

namespace Application

variable {α : Type} [Score α] {g : Grammar α} {s : Sentence}
  {inside inside' : Nat → Nat → NonTerminal → α} {b : Backpointer}
  {start stop : Nat} {nt : NonTerminal} {x : α} {d : Derivation α}

/-- The result of a rule only depends on the scores of its children. -/
theorem congr (h : Application g s inside b start stop nt x)
    (heq : ∀ i j A, (i, j, A) ∈ b.places start stop → inside i j A = inside' i j A) :
    Application g s inside' b start stop nt x := by
  cases h with
  | word mem children terminal => exact .word mem children terminal
  | unary mem children possible =>
    have hchild := heq _ _ _ List.mem_cons_self
    rw [hchild] at possible ⊢
    exact .unary mem children possible
  | binary mem children leftPossible rightPossible =>
    have hleft := heq _ _ _ List.mem_cons_self
    have hright := heq _ _ _ (List.mem_cons_of_mem _ List.mem_cons_self)
    rw [hleft] at leftPossible ⊢
    rw [hright] at rightPossible ⊢
    exact .binary mem children leftPossible rightPossible

/-- A rule over children that have derivations makes a derivation. -/
theorem derives (h : Application g s inside b start stop nt x)
    (below : ∀ i j A, (i, j, A) ∈ b.places start stop →
      ∃ d, Derives g s i j A d ∧ d.score = inside i j A) :
    ∃ d, Derives g s start stop nt d ∧ d.score = x := by
  cases h with
  | word mem children terminal =>
    exact ⟨.word _, .word mem children terminal trivial, rfl⟩
  | unary mem children possible =>
    obtain ⟨d, hd, hscore⟩ := below _ _ _ List.mem_cons_self
    exact ⟨.unary _ d, .unary mem children hd trivial, by rw [Derivation.score, hscore]⟩
  | binary mem children leftPossible rightPossible =>
    obtain ⟨d, hd, hleft⟩ := below _ _ _ List.mem_cons_self
    obtain ⟨e, he, hright⟩ := below _ _ _ (List.mem_cons_of_mem _ List.mem_cons_self)
    exact ⟨.binary _ d e, .binary mem children hd he trivial,
      by rw [Derivation.score, hleft, hright]⟩

theorem possible_of_mem_places (h : Application g s inside b start stop nt x) {i j : Nat}
    {A : NonTerminal} (hmem : (i, j, A) ∈ b.places start stop) :
    Score.impossible < inside i j A := by
  cases h <;> simp only [Backpointer.places, List.mem_cons, List.not_mem_nil, or_false,
    Prod.mk.injEq] at hmem
  · obtain ⟨rfl, rfl, rfl⟩ := hmem
    assumption
  · rcases hmem with ⟨rfl, rfl, rfl⟩ | ⟨rfl, rfl, rfl⟩ <;> assumption

variable [MonotoneScore α]

/-- A rule applied to better children has a better result. -/
theorem mono (h : Application g s inside b start stop nt x)
    (hle : ∀ i j A, inside i j A ≤ inside' i j A) :
    ∃ y, Application g s inside' b start stop nt y ∧ x ≤ y := by
  cases h with
  | word mem children terminal => exact ⟨_, .word mem children terminal, Score.le_refl _⟩
  | unary mem children possible =>
    exact ⟨_, .unary mem children (Score.lt_of_lt_of_le possible (hle _ _ _)),
      Score.add_le_add_left (hle _ _ _) _⟩
  | binary mem children leftPossible rightPossible =>
    exact ⟨_, .binary mem children (Score.lt_of_lt_of_le leftPossible (hle _ _ _))
      (Score.lt_of_lt_of_le rightPossible (hle _ _ _)),
      MonotoneScore.add_le_add (Score.add_le_add_left (hle _ _ _) _) (hle _ _ _)⟩

/-- In a chart that no rule can improve, no derivation has a better score than its symbol. -/
theorem score_le_of_closed
    (closed : ∀ b i j A x, Application g s inside b i j A x → x ≤ inside i j A)
    (h : Derives g s start stop nt d) : d.score ≤ inside start stop nt := by
  induction h with
  | word mem children terminal => exact closed _ _ _ _ _ (.word mem children terminal)
  | @unary i j p child d mem children _ _ ih =>
    rcases Score.lt_or_ge Score.impossible (Derivation.unary p d).score with hpos | hle
    · have hchild := Score.lt_of_lt_of_le (Score.impossible_lt_of_add hpos).2 ih
      exact Score.le_trans (Score.add_le_add_left ih _)
        (closed _ _ _ _ _ (.unary mem children hchild))
    · exact Score.le_trans hle (Score.impossible_le _)
  | @binary i m j p left right d e mem children _ _ _ ihl ihr =>
    rcases Score.lt_or_ge Score.impossible (Derivation.binary p d e).score with hpos | hle
    · have hsum := Score.impossible_lt_of_add hpos
      have hleft := Score.lt_of_lt_of_le (Score.impossible_lt_of_add hsum.1).2 ihl
      have hright := Score.lt_of_lt_of_le hsum.2 ihr
      exact Score.le_trans (MonotoneScore.add_le_add (Score.add_le_add_left ihl _) ihr)
        (closed _ _ _ _ _ (.binary mem children hleft hright))
    · exact Score.le_trans hle (Score.impossible_le _)

end Application

end Constituency
