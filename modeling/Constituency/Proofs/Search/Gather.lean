import Constituency.Proofs.Search.Clock
import Constituency.Proofs.Search.Segments

/-!
# What the cells of a search gather

A cell of one word gathers the rules for the word, and a longer one what the rules make of its halves, in
however many segments the halves are crossed. What they gather is warranted by the chart.
-/

namespace Constituency

namespace Exhaustive

variable {α : Type} [Score α] {g : Grammar α} {acc : Accumulator α} {s : Sentence} {c : Chart α}
  {i j : Nat} {e : Entry α} {inside : Nat → Nat → NonTerminal → α}

/-! ## Cells before unary rules -/

/-- The entries that rules other than unary ones give over a span. -/
def baseEntries (g : Grammar α) (s : Sentence) (c : Chart α) (i j : Nat) : List (Entry α) :=
  if j == i + 1 then lexicalEntries g (s.terminal? i) else binaryEntries g c i j fun _ => true

/-- The cell of a span before unary rules. -/
def baseCell (g : Grammar α) (acc : Accumulator α) (count : Nat) (s : Sentence) (c : Chart α)
    (i j : Nat) : Scratch α :=
  (if j == i + 1 then lexicalCell g acc s i else crossCell g acc count c i j).1

theorem chart_fillCell (count : Nat) (stats : Stats) :
    (fillCell g acc count s (c, stats) (i, j)).1 =
      c.commit (unaryPass g acc (baseCell g acc count s c i j)).1 := rfl

/-! ## Cells -/

section Monotone

variable [MonotoneScore α]

theorem filled_gathers (hacc : acc.KeepsPossible) {entries : List (Entry α)}
    (hnt : ∀ e ∈ entries, e.nonterminal < g.numNonterminals) :
    (filled g acc i j entries).Gathers g i j entries := by
  have h := (Scratch.Gathers.empty (α := α) g i j).foldl_add hacc hnt
  rwa [List.nil_append] at h

theorem filled_tight {entries : List (Entry α)}
    (hnt : ∀ e ∈ entries, e.nonterminal < g.numNonterminals) :
    (filled g .best i j entries).Tight := by
  refine (Scratch.tight_empty i j g.numNonterminals).foldl_add fun e he => ?_
  rw [Scratch.empty, Array.size_replicate]
  exact hnt e he

theorem lexicalCell_gathers (hacc : acc.KeepsPossible) (g : Grammar α) (s : Sentence) (i : Nat) :
    (lexicalCell g acc s i).1.Gathers g i (i + 1) (lexicalEntries g (s.terminal? i)) :=
  filled_gathers hacc fun _ => parent_lt_of_mem_lexicalEntries

theorem crossCell_gathers (hacc : acc.KeepsPossible) (g : Grammar α) (c : Chart α)
    (count i j : Nat) :
    (crossCell g acc count c i j).1.Gathers g i j (binaryEntries g c i j fun _ => true) := by
  unfold crossCell
  split
  · exact filled_gathers hacc fun _ => parent_lt_of_mem_binaryEntries
  · next hcount =>
    dsimp only
    suffices hmerged : ∀ (parts : List (List (Entry α))) (entries : List (Entry α))
        (cell : Scratch α), cell.Gathers g i j entries →
        (∀ part ∈ parts, ∀ e ∈ part, e.nonterminal < g.numNonterminals) →
        ((parts.map (filled g acc i j)).foldl (Scratch.merge acc) cell).Gathers g i j
          (entries ++ parts.flatten) by
      refine (hmerged _ _ _ (.empty g i j) fun part hpart e he => ?_).congr fun e => ?_
      · obtain ⟨inSegment, -, rfl⟩ := List.mem_map.1 hpart
        exact parent_lt_of_mem_binaryEntries he
      · rw [List.nil_append, flatten_segments g c i j (by omega),
          (crossOrder_perm (by omega)).mem_iff]
    intro parts
    induction parts with
    | nil =>
      intro entries cell hcell _
      rwa [List.flatten_nil, List.append_nil]
    | cons part rest ih =>
      intro entries cell hcell hparts
      have hpart := filled_gathers (i := i) (j := j) hacc (hparts part List.mem_cons_self)
      have hrest := ih _ _ (hcell.merge hpart hacc) fun p hp =>
        hparts p (List.mem_cons_of_mem _ hp)
      rwa [List.append_assoc] at hrest

theorem lexicalCell_tight (g : Grammar α) (s : Sentence) (i : Nat) :
    (lexicalCell g .best s i).1.Tight :=
  filled_tight fun _ => parent_lt_of_mem_lexicalEntries

theorem crossCell_tight (g : Grammar α) (c : Chart α) (count i j : Nat) :
    (crossCell g .best count c i j).1.Tight := by
  unfold crossCell
  split
  · exact filled_tight fun _ => parent_lt_of_mem_binaryEntries
  · dsimp only
    suffices hmerged : ∀ (parts : List (List (Entry α))) (cell : Scratch α), cell.Tight →
        cell.held.size = g.numNonterminals →
        (∀ part ∈ parts, ∀ e ∈ part, e.nonterminal < g.numNonterminals) →
        ((parts.map (filled g .best i j)).foldl (Scratch.merge .best) cell).Tight by
      refine hmerged _ _ (Scratch.tight_empty _ _ _) Array.size_replicate fun part hpart e he => ?_
      obtain ⟨inSegment, -, rfl⟩ := List.mem_map.1 hpart
      exact parent_lt_of_mem_binaryEntries he
    intro parts
    induction parts with
    | nil =>
      intro cell hcell _ _
      exact hcell
    | cons part rest ih =>
      intro cell hcell hsize hparts
      have hnt := hparts part List.mem_cons_self
      have hpart := (filled_gathers (i := i) (j := j) Accumulator.keepsPossible_best hnt).size_eq
      refine ih _ (hcell.merge (filled_tight hnt) (hsize.trans hpart.symm)) ?_
        fun p hp => hparts p (List.mem_cons_of_mem _ hp)
      rw [Scratch.size_merge, hsize, hpart, Nat.min_self]

/-! ## Warrants -/

theorem warranted_of_mem_lexicalEntries (he : e ∈ lexicalEntries g (s.terminal? i)) :
    Warranted g s inside i (i + 1) e := by
  obtain ⟨p, word, hp, hc, hterm, rfl⟩ := mem_lexicalEntries.1 he
  exact ⟨⟨.word p, .word hp hc hterm trivial, rfl⟩, _, .word hp hc hterm, Score.le_refl _⟩

omit [MonotoneScore α] in
/-- A binary rule over the halves of a span is applied to the scores of the chart. -/
theorem application_of_mem_binaryEntries (h : c.Sound g) (hpos : c.Possible)
    {inSegment : NonTerminal → Bool} (he : e ∈ binaryEntries g c i j inSegment) :
    Application g s c.inside e.backpointer i j e.nonterminal e.inside := by
  obtain ⟨m, p, left, right, l, r, -, -, -, hp, hpc, hl, hr, rfl⟩ := (mem_binaryEntries h).1 he
  have hleft := h.inside_of_get? hl
  have hright := h.inside_of_get? hr
  have happ : Application g s c.inside (.binary left right m) i j p.parent
      (p.logProb + c.inside i m left + c.inside m j right) :=
    .binary hp hpc (hleft ▸ hpos _ _ _ _ hl) (hright ▸ hpos _ _ _ _ hr)
  rwa [hleft, hright] at happ

omit [MonotoneScore α] in
/-- A rule for the word of a span is found among the entries of the word. -/
theorem exists_lexicalEntry {word : Terminal} {A : NonTerminal} {x : α}
    (happ : Application g s inside (.lexical word) i j A x) :
    j = i + 1 ∧ ∃ e ∈ lexicalEntries g (s.terminal? i), e.nonterminal = A ∧ e.inside = x := by
  cases happ with
  | word mem children terminal =>
    exact ⟨rfl, _, mem_lexicalEntries.2 ⟨_, _, mem, children, terminal, rfl⟩, rfl, rfl⟩

/-- A binary rule applied to the scores of the chart is found among the entries of the halves. -/
theorem exists_binaryEntry (h : c.Sound g) {left right : NonTerminal} {m : Nat} {A : NonTerminal}
    {x : α} (happ : Application g s c.inside (.binary left right m) i j A x) :
    (i < m ∧ m < j) ∧
      ∃ e ∈ binaryEntries g c i j fun _ => true, e.nonterminal = A ∧ e.inside = x := by
  cases happ with
  | binary mem children leftPossible rightPossible =>
    obtain ⟨l, hl⟩ := h.exists_get?_of_possible leftPossible
    obtain ⟨r, hr⟩ := h.exists_get?_of_possible rightPossible
    have him := (h.bounds hl).1
    have hmj := (h.bounds hr).1
    refine ⟨⟨him, hmj⟩, _, (mem_binaryEntries h).2
      ⟨m, _, left, right, l, r, him, hmj, rfl, mem, children, hl, hr, rfl⟩, rfl, ?_⟩
    rw [h.inside_of_get? hl, h.inside_of_get? hr]

/-! ## A cell before unary rules -/

omit [MonotoneScore α] in
theorem isUnary_of_mem_baseEntries (h : c.Sound g) (he : e ∈ baseEntries g s c i j) :
    e.backpointer.isUnary = false := by
  unfold baseEntries at he
  split at he
  · obtain ⟨p, word, -, -, -, rfl⟩ := mem_lexicalEntries.1 he
    rfl
  · obtain ⟨m, p, left, right, l, r, -, -, -, -, -, -, -, rfl⟩ := (mem_binaryEntries h).1 he
    rfl

theorem baseCell_gathers (hacc : acc.KeepsPossible) (g : Grammar α) (c : Chart α) (count : Nat)
    (s : Sentence) (i j : Nat) : (baseCell g acc count s c i j).Gathers g i j (baseEntries g s c i j) := by
  unfold baseCell baseEntries
  split
  · next hone =>
    rw [beq_iff_eq] at hone
    subst hone
    exact lexicalCell_gathers hacc g s i
  · exact crossCell_gathers hacc g c count i j

theorem baseCell_tight (g : Grammar α) (c : Chart α) (count : Nat) (s : Sentence) (i j : Nat) :
    (baseCell g .best count s c i j).Tight := by
  unfold baseCell
  split
  · exact lexicalCell_tight g s i
  · exact crossCell_tight g c count i j

omit [MonotoneScore α] in
theorem application_of_mem_baseEntries (h : c.Sound g) (hpos : c.Possible)
    (he : e ∈ baseEntries g s c i j) :
    Application g s c.inside e.backpointer i j e.nonterminal e.inside := by
  unfold baseEntries at he
  split at he
  · next hone =>
    rw [beq_iff_eq] at hone
    subst hone
    obtain ⟨p, word, hp, hc, hterm, rfl⟩ := mem_lexicalEntries.1 he
    exact .word hp hc hterm
  · exact application_of_mem_binaryEntries h hpos he

theorem warranted_of_mem_baseEntries (h : c.Grown g s) (he : e ∈ baseEntries g s c i j) :
    Warranted g s c.inside i j e := by
  have happ := application_of_mem_baseEntries h.sound
    (fun _ _ _ _ he => (h.derived _ _ _ _ he).1) he
  exact .of_application happ fun k l B hmem =>
    h.exists_score_eq (happ.possible_of_mem_places hmem)

/-- Rules that are not unary are found among the entries of a cell before unary rules. -/
theorem exists_baseEntry (h : c.Sound g) {b : Backpointer} {A : NonTerminal} {x : α}
    (hb : b.isUnary = false) (happ : Application g s c.inside b i j A x) :
    ∃ e ∈ baseEntries g s c i j, e.nonterminal = A ∧ e.inside = x := by
  unfold baseEntries
  cases b with
  | lexical word =>
    obtain ⟨rfl, hentry⟩ := exists_lexicalEntry happ
    rwa [if_pos (beq_self_eq_true _)]
  | binary left right m =>
    obtain ⟨⟨him, hmj⟩, hentry⟩ := exists_binaryEntry h happ
    rwa [if_neg (by rw [beq_iff_eq]; omega)]
  | unary child => cases hb

end Monotone

end Exhaustive

end Constituency
