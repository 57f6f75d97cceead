import Constituency.Proofs.Decode.RuleTree
import Constituency.Proofs.Grammar.Builder
import Constituency.Proofs.Score.Bottom
import Constituency.Proofs.Search.Named

/-!
# Coarse categories without splits

Where no name marks a split, the coarse categories are the non-terminals over again
(`SymbolTable.Unsplit`), and each of them has one split at most in a cell. To sum over it, to look for the
most probable one and to rank it then all come to the same entry, so that decoding over coarse categories is
decoding over non-terminals (`splitSum_eq_goodman`). Nothing is asked of the scores in the chart, which may
be no numbers at all.
-/

namespace Constituency

/-! ## Vocabularies -/

namespace Vocabulary

variable {v w : Vocabulary} {name : String} {id : Nat}

theorem nodup_toList (v : Vocabulary) : v.toList.Nodup := by
  rw [List.nodup_iff_getElem?_ne_getElem?]
  intro i j hij hj heq
  have hget : ∀ {k}, v.toList[k]? = v.get? k := Array.getElem?_toList
  obtain ⟨name, hname⟩ : ∃ name, v.get? i = some name := by
    have hi : i < v.names.size := Nat.lt_trans hij hj
    exact ⟨_, Array.getElem?_eq_getElem hi⟩
  rw [hget, hget, hname] at heq
  exact Nat.ne_of_lt hij (id_eq_of_get? hname heq.symm)

theorem find?_eq_none_of_not_mem (h : name ∉ v.toList) : v.find? name = none :=
  find?_eq_none fun hmem => h (Array.mem_toList_iff.2 hmem)

theorem toList_intern_of_not_mem (h : name ∉ v.toList) :
    (v.intern name).2.toList = v.toList ++ [name] := by
  have hnone := find?_eq_none_of_not_mem h
  unfold intern
  split
  · next id hid =>
    rw [hnone] at hid
    cases hid
  · exact Array.toList_push

/-- Distinct names keep their order. -/
theorem toList_ofList {names : List String} (h : names.Nodup) : (ofList names).toList = names := by
  suffices ∀ v : Vocabulary, (v.toList ++ names).Nodup →
      (names.foldl (fun v name => (v.intern name).2) v).toList = v.toList ++ names from
    this empty h
  clear h
  induction names with
  | nil => exact fun v _ => (List.append_nil _).symm
  | cons name rest ih =>
    intro v h
    have hnew : name ∉ v.toList := fun hmem =>
      (List.nodup_append.1 h).2.2 name hmem name List.mem_cons_self rfl
    have hstep := toList_intern_of_not_mem hnew
    rw [List.append_cons, ← hstep] at h
    rw [List.foldl_cons, ih _ h, hstep, ← List.append_cons]

/-- The vocabulary of distinct names. -/
def ofDistinct (names : List String) (h : names.Nodup) : Vocabulary where
  names := names.toArray
  index := (ofList names).index
  index_eq_iff := by
    have hnames : (ofList names).names = names.toArray := Array.toList_inj.1 (toList_ofList h)
    exact hnames ▸ (ofList names).index_eq_iff

theorem ofDistinct_eq_ofList {names : List String} (h : names.Nodup) :
    ofDistinct names h = ofList names := by
  have hnames : names.toArray = (ofList names).names := Array.toList_inj.1 (toList_ofList h).symm
  unfold ofDistinct
  congr 1

/-- Names in the same order have the same numbers. -/
theorem name_eq_of_toList_eq (h : v.toList = w.toList) : v.name = w.name := by
  funext id
  rw [name, name, Array.toList_inj.1 h]

end Vocabulary

/-! ## Symbol tables -/

namespace SymbolTable

variable {t : SymbolTable} {A : NonTerminal}

/-- The coarse categories of the table have been read off the names. -/
structure Derived (t : SymbolTable) : Prop where
  bases_eq : t.bases = .ofList (t.nonterminals.toList.map baseCategory)
  baseIndex_eq : t.baseIndex =
    t.nonterminals.names.map fun name => (t.bases.find? (baseCategory name)).getD 0

/-- Each non-terminal is its own coarse category. -/
structure Unsplit (t : SymbolTable) : Prop where
  numBases_eq : t.numBases = t.numNonterminals
  base_eq : ∀ A < t.numNonterminals, t.base A = A
  baseName_eq : t.baseName = t.name

theorem Unsplit.baseStart_eq (h : t.Unsplit) : t.baseStart = t.start := h.base_eq _ t.start_lt

theorem Unsplit.isBaseFactored_eq (h : t.Unsplit) : t.isBaseFactored = t.isFactored := by
  funext base
  rw [isBaseFactored, h.baseName_eq, isFactored]

/-- If no name marks a split, each non-terminal is its own coarse category. -/
theorem Derived.unsplit (h : t.Derived)
    (hname : ∀ A < t.numNonterminals, baseCategory (t.name A) = t.name A) : t.Unsplit := by
  have hid : ∀ name ∈ t.nonterminals.toList, baseCategory name = name := by
    intro name hmem
    obtain ⟨A, hA, rfl⟩ := List.mem_iff_getElem.1 hmem
    have hA' : A < t.nonterminals.size := hA
    have hspelled : t.name A = t.nonterminals.toList[A] :=
      Vocabulary.name_eq_of_get? (Array.getElem?_eq_getElem hA')
    exact hspelled ▸ hname A hA'
  have hlist : t.bases.toList = t.nonterminals.toList := by
    rw [h.bases_eq, List.map_congr_left hid, List.map_id',
      Vocabulary.toList_ofList t.nonterminals.nodup_toList]
  have hnames : t.bases.names = t.nonterminals.names := Array.toList_inj.1 hlist
  refine ⟨congrArg Array.size hnames, fun A hA => ?_, Vocabulary.name_eq_of_toList_eq hlist⟩
  have hget : t.nonterminals.names[A]? = some t.nonterminals.names[A] := Array.getElem?_eq_getElem hA
  have hfind : t.bases.find? t.nonterminals.names[A] = some A := by
    rw [Vocabulary.find?_eq_some_iff, Vocabulary.get?, hnames, hget]
  rw [base, h.baseIndex_eq, Array.getD_eq_getD_getElem?, Array.getElem?_map, hget, Option.map_some,
    Option.getD_some, hid _ (Array.mem_toList_iff.2 (Array.getElem_mem hA)), hfind, Option.getD_some]

/-- The table of distinct names, of which the first is that of the start symbol, with each symbol as a coarse
category of its own. -/
def ofNames (start : String) (rest : List String) (h : (start :: rest).Nodup) (lexicon : Vocabulary) :
    SymbolTable where
  nonterminals := .ofDistinct (start :: rest) h
  lexicon
  bases := .ofDistinct (start :: rest) h
  baseIndex := (List.range (rest.length + 1)).toArray
  start := 0
  start_lt := Nat.zero_lt_succ _
  baseIndex_size := by
    rw [List.size_toArray, List.length_range]
    rfl
  baseIndex_lt base hbase := List.mem_range.1 (List.mem_toArray.1 hbase)

theorem derived_ofNames {start : String} {rest : List String} (h : (start :: rest).Nodup)
    (lexicon : Vocabulary) (hname : ∀ name ∈ start :: rest, baseCategory name = name) :
    (ofNames start rest h lexicon).Derived where
  bases_eq := by
    show Vocabulary.ofDistinct (start :: rest) h = .ofList ((start :: rest).map baseCategory)
    rw [List.map_congr_left hname, List.map_id', Vocabulary.ofDistinct_eq_ofList]
  baseIndex_eq := by
    have hfind : ∀ (A : Nat) (hA : A < (start :: rest).length),
        ((ofNames start rest h lexicon).bases.find? (baseCategory (start :: rest)[A])).getD 0 = A := by
      intro A hA
      have hget : (ofNames start rest h lexicon).bases.get? A = some (start :: rest)[A] := by
        show (start :: rest).toArray[A]? = some (start :: rest)[A]
        rw [List.getElem?_toArray, List.getElem?_eq_getElem hA]
      rw [hname _ (List.getElem_mem hA), Vocabulary.find?_eq_some_iff.2 hget, Option.getD_some]
    show (List.range (rest.length + 1)).toArray = (start :: rest).toArray.map _
    rw [List.map_toArray]
    congr 1
    refine List.ext_getElem (by simp) fun A hA hA' => ?_
    rw [List.getElem_range, List.getElem_map]
    exact (hfind A _).symm

end SymbolTable

/-- The coarse categories of any grammar that is built have been read off the names. -/
theorem GrammarBuilder.derived_of_build {α : Type} {b : GrammarBuilder α} {g : Grammar α}
    (h : b.build = .ok g) : g.symbols.Derived := by
  unfold build at h
  split_ifs at h
  split at h
  · cases h
  · obtain rfl := Except.ok.inj h
    exact ⟨rfl, rfl⟩

/-! ## Rows -/

namespace PackedChart

variable {α : Type} {n : Nat} {row : List (PackedEntry α)} {A : NonTerminal}

/-- The entries of a row for a symbol are the one that is found. -/
theorem filter_eq_toList_find? (h : RowSound n row) (A : NonTerminal) :
    row.filter (·.nonterminal == A) = (find? row A).toList := by
  induction row with
  | nil => rfl
  | cons x rest ih =>
    have hhead := (List.pairwise_cons.1 h.ascending).1
    have hrest : RowSound n rest := ⟨(List.pairwise_cons.1 h.ascending).2,
      fun y hy => h.nonterminal_lt y (List.mem_cons_of_mem x hy)⟩
    rw [find?, List.find?_cons, List.filter_cons]
    by_cases hx : x.nonterminal = A
    · have hnone : rest.filter (·.nonterminal == A) = [] := by
        rw [List.filter_eq_nil_iff]
        intro y hy
        rw [beq_iff_eq]
        exact Nat.ne_of_gt (hx ▸ hhead y hy)
      rw [beq_iff_eq.2 hx, if_pos rfl, hnone]
      rfl
    · rw [beq_eq_false_iff_ne.2 hx, if_neg Bool.false_ne_true]
      exact ih hrest

/-- A row lists what is found for each symbol in turn. -/
theorem filterMap_find? (h : RowSound n row) : (List.range n).filterMap (find? row) = row := by
  have hascending : ((List.range n).filterMap (find? row)).Pairwise
      fun a b => a.nonterminal < b.nonterminal := by
    rw [List.pairwise_filterMap]
    refine List.pairwise_lt_range.imp fun {A B} hAB x hx y hy => ?_
    obtain ⟨-, rfl⟩ := (find?_eq_some_iff h).1 hx
    obtain ⟨-, rfl⟩ := (find?_eq_some_iff h).1 hy
    exact hAB
  have hnodup : ∀ {xs : List (PackedEntry α)},
      (xs.Pairwise fun a b => a.nonterminal < b.nonterminal) → xs.Nodup := fun hxs =>
    hxs.imp fun {a b} (hab : a.nonterminal < b.nonterminal) (heq : a = b) =>
      Nat.ne_of_lt hab (congrArg (·.nonterminal) heq)
  refine List.Perm.eq_of_pairwise (fun a b _ _ hab hba => absurd hba (Nat.lt_asymm hab))
    hascending h.ascending ((List.perm_ext_iff_of_nodup (hnodup hascending) (hnodup h.ascending)).2
      fun x => ?_)
  rw [List.mem_filterMap]
  constructor
  · rintro ⟨A, -, hx⟩
    exact ((find?_eq_some_iff h).1 hx).1
  · intro hx
    exact ⟨x.nonterminal, List.mem_range.2 (h.nonterminal_lt x hx),
      (find?_eq_some_iff h).2 ⟨hx, rfl⟩⟩

end PackedChart

/-! ## The two decoders -/

namespace ConstituentTask

variable {α : Type} [Score α] {g : Grammar α} {c : PackedChart α} {o : Options α}
  {words : List String} {i j : Nat} {A : NonTerminal}

omit [Score α] in
theorem unaryChild?_eq_some {b : Backpointer} (h : b.unaryChild? = some A) : b = .unary A := by
  cases b <;> simp_all [Backpointer.unaryChild?]

omit [Score α] in
theorem unaryChain_eq_none {t : ConstituentTask α} (h : t.chart.get? i (i + 1) A = none)
    (unaries : Nat) : t.unaryChain i unaries A = none := by
  unfold unaryChain
  rw [h]

/-- The tree by some choices depends on the labels and on the trees over words. -/
theorem treeOf_congr {t t' : ConstituentTask α} (hname : t.name = t'.name)
    (hlabel : t.labelOf = t'.labelOf) (hword : t.wordTree = t'.wordTree) (choices : Choices α)
    (i j : Nat) : t.treeOf choices i j = t'.treeOf choices i j := by
  suffices ∀ width i j, j - i = width → t.treeOf choices i j = t'.treeOf choices i j from
    this _ i j rfl
  intro width
  induction width using Nat.strongRecOn with
  | _ width ih =>
    intro i j hwidth
    rw [treeOf, treeOf]
    cases choices.get i j with
    | none => rfl
    | some cell =>
      dsimp only
      rw [hword]
      split
      · rfl
      · split
        · next hm =>
          rw [ih _ (by omega) i cell.midpoint rfl, ih _ (by omega) cell.midpoint j rfl, hlabel, hname]
        · rfl

/-- A chart for a grammar without splits, in which no entry is derived by a unary rule from itself or from what
is no symbol of the grammar. -/
structure Plain (g : Grammar α) (c : PackedChart α) : Prop where
  unsplit : g.symbols.Unsplit
  sound : c.Sound g
  unary : ∀ i j A e B, c.get? i j A = some e → e.backpointer = .unary B →
    B ≠ A ∧ B < g.numNonterminals

theorem mostProbable_singleton (x : PackedEntry α) : mostProbable [x] = some x := by
  simp only [mostProbable, List.foldl_cons, List.foldl_nil]
  split <;> rfl

namespace Plain

variable (h : Plain g c)
include h

/-- The splits of a category in a cell are its entry, if it has one. -/
theorem splits_eq (i j : Nat) (A : NonTerminal) :
    (c.row i j).filter (g.symbols.base ·.nonterminal == A) =
      (PackedChart.find? (c.row i j) A).toList := by
  rw [← PackedChart.filter_eq_toList_find? (h.sound.rows i j)]
  refine List.filter_congr fun x hx => ?_
  rw [h.unsplit.base_eq _ ((h.sound.rows i j).nonterminal_lt x hx)]

/-- An entry is the parent of the same unary rule among the categories. -/
theorem coarse_unaryChild {x : PackedEntry α} (hx : x ∈ c.row i j) :
    (x.backpointer.unaryChild?.map g.symbols.base).filter (· != x.nonterminal) =
      x.backpointer.unaryChild? := by
  cases hchild : x.backpointer.unaryChild? with
  | none => rfl
  | some B =>
    have hget := (PackedChart.get?_eq_some_iff h.sound).2 ⟨x, hx, rfl, rfl⟩
    obtain ⟨hne, hlt⟩ := h.unary _ _ _ _ B hget (unaryChild?_eq_some hchild)
    rw [Option.map_some, h.unsplit.base_eq B hlt, Option.filter_some, if_pos (by simpa using hne)]

theorem baseCandidates_eq [SoleBottomScore α] (o : Options α) (words : List String) (i j : Nat) :
    (o.constituentTask g c words true).baseCandidates i j =
      (o.constituentTask g c words false).splitCandidates i j := by
  have hrow := h.sound.rows i j
  -- each category in turn has the candidate of the entry that is found for it
  have hbase : ∀ A, (mostProbable ((c.row i j).filter (g.symbols.base ·.nonterminal == A))).map
      (fun best => ({
        label := A
        gain := (o.constituentTask g c words true).gain i j (g.symbols.isBaseFactored A)
          ((((c.row i j).filter (g.symbols.base ·.nonterminal == A)).map
            fun e => e.inside + e.outside).foldl o.sums.combine Score.impossible)
        unaryChild := (best.backpointer.unaryChild?.map g.symbols.base).filter (· != A) } :
          Candidate α)) =
      (PackedChart.find? (c.row i j) A).map fun e => ({
        label := e.nonterminal
        gain := (o.constituentTask g c words false).gain i j (g.symbols.isFactored e.nonterminal)
          (e.inside + e.outside)
        unaryChild := e.backpointer.unaryChild? } : Candidate α) := by
    intro A
    rw [h.splits_eq]
    cases hfind : PackedChart.find? (c.row i j) A with
    | none => rfl
    | some x =>
      obtain ⟨hx, rfl⟩ := (PackedChart.find?_eq_some_iff hrow).1 hfind
      rw [Option.toList_some, mostProbable_singleton, Option.map_some, Option.map_some,
        List.map_singleton, List.foldl_cons, List.foldl_nil, h.unsplit.isBaseFactored_eq,
        h.coarse_unaryChild hx, Options.sums, Accumulator.sum_combine_impossible]
      rfl
  unfold baseCandidates splitCandidates
  dsimp only [Options.constituentTask] at hbase ⊢
  rw [List.filterMap_congr fun A _ => hbase A, ← List.map_filterMap, h.unsplit.numBases_eq]
  exact congrArg _ (PackedChart.filterMap_find? hrow)

theorem choices_eq [SoleBottomScore α] (o : Options α) (words : List String) :
    (o.constituentTask g c words true).choices = (o.constituentTask g c words false).choices := by
  have hcandidates : (o.constituentTask g c words true).candidates =
      (o.constituentTask g c words false).candidates := by
    funext i j
    have hcoarse : (o.constituentTask g c words true).candidates i j =
        if j - i == c.size then
          ((o.constituentTask g c words true).baseCandidates i j).filter
            (·.label == g.symbols.baseStart)
        else (o.constituentTask g c words true).baseCandidates i j := rfl
    rw [hcoarse, h.baseCandidates_eq, h.unsplit.baseStart_eq]
    rfl
  have hchoose : (o.constituentTask g c words true).choose =
      (o.constituentTask g c words false).choose := by
    funext choices i j
    rw [choose, choose, hcandidates]
  unfold choices
  rw [hchoose]
  rfl

/-- The chains of unary rules over a word read alike. -/
theorem unaryChain_eq (o : Options α) (words : List String) (i unaries : Nat) (A : NonTerminal) :
    (o.constituentTask g c words true).unaryChain i unaries A =
      (o.constituentTask g c words false).unaryChain i unaries A := by
  have hname : ∀ {A e}, c.get? i (i + 1) A = some e →
      g.symbols.baseName (g.symbols.base A) = g.symbols.name A := by
    intro A e he
    rw [h.unsplit.base_eq A (h.sound.bounds he).2.2, h.unsplit.baseName_eq]
  induction unaries generalizing A with
  | zero =>
    unfold unaryChain
    dsimp only [Options.constituentTask, name]
    cases he : c.get? i (i + 1) A with
    | none => rfl
    | some e =>
      obtain ⟨_, _, b⟩ := e
      cases b with
      | lexical => simp only [if_true, Bool.false_eq_true, if_false, hname he]
      | unary | binary => rfl
  | succ unaries ih =>
    unfold unaryChain
    dsimp only [Options.constituentTask, name] at ih ⊢
    cases he : c.get? i (i + 1) A with
    | none => rfl
    | some e =>
      obtain ⟨_, _, b⟩ := e
      cases b with
      | lexical => simp only [if_true, Bool.false_eq_true, if_false, hname he]
      | unary child => simp only [if_true, Bool.false_eq_true, if_false, hname he, ih]
      | binary => rfl

/-- The one split of a label is read off as the label. -/
theorem wordTree_eq (o : Options α) (words : List String) (i : Nat) (A : NonTerminal) :
    (o.constituentTask g c words true).wordTree i A =
      (o.constituentTask g c words false).wordTree i A := by
  have htop : (o.constituentTask g c words true).topSplit? i (i + 1) A =
      (PackedChart.find? (c.row i (i + 1)) A).map (·.nonterminal) := by
    unfold topSplit?
    dsimp only [Options.constituentTask]
    rw [h.splits_eq]
    cases PackedChart.find? (c.row i (i + 1)) A <;> rfl
  have hfine : (o.constituentTask g c words false).wordTree i A =
      (o.constituentTask g c words false).unaryChain i (g.numNonterminals + 1) A := rfl
  have hcoarse : (o.constituentTask g c words true).wordTree i A =
      ((o.constituentTask g c words true).topSplit? i (i + 1) A).bind
        ((o.constituentTask g c words true).unaryChain i (g.numNonterminals + 1)) := rfl
  rw [hfine, hcoarse, htop]
  cases hfind : PackedChart.find? (c.row i (i + 1)) A with
  | none =>
    have hget : c.get? i (i + 1) A = none := by rw [PackedChart.get?_eq h.sound, hfind, Option.map_none]
    rw [Option.map_none, Option.bind_none, unaryChain_eq_none hget]
  | some x =>
    obtain ⟨-, rfl⟩ := (PackedChart.find?_eq_some_iff (h.sound.rows i (i + 1))).1 hfind
    rw [Option.map_some, Option.bind_some, h.unaryChain_eq]

/-- Over coarse categories the decoder gives the same result. -/
theorem tree?_eq [SoleBottomScore α] (o : Options α) (words : List String) :
    (o.constituentTask g c words true).tree? = (o.constituentTask g c words false).tree? := by
  have hname : (o.constituentTask g c words true).name =
      (o.constituentTask g c words false).name := h.unsplit.baseName_eq
  have hlabel : (o.constituentTask g c words true).labelOf =
      (o.constituentTask g c words false).labelOf := by
    funext i j cell
    rw [labelOf, labelOf, hname]
    rfl
  have hword : (o.constituentTask g c words true).wordTree =
      (o.constituentTask g c words false).wordTree := by
    funext i A
    exact h.wordTree_eq o words i A
  unfold tree?
  rw [h.choices_eq, treeOf_congr hname hlabel hword]
  rfl

end Plain

/-- Split-sum is Goodman where nothing is split: for any grammar whose names carry no marks of latent splits,
any chart over its symbols in which no entry is derived by a unary rule from its own symbol, and any options,
the two decoders give the same tree or none. -/
theorem splitSum_eq_goodman [SoleBottomScore α] (g : Grammar α) (hderived : g.symbols.Derived)
    (hname : ∀ A < g.numNonterminals, baseCategory (g.symbols.name A) = g.symbols.name A)
    (c : PackedChart α) (hc : c.Sound g)
    (hunary : ∀ i j A e B, c.get? i j A = some e → e.backpointer = .unary B →
      B ≠ A ∧ B < g.numNonterminals) (o : Options α) (words : List String) :
    (o.constituentTask g c words true).tree? = (o.constituentTask g c words false).tree? :=
  Plain.tree?_eq ⟨hderived.unsplit hname, hc, hunary⟩ o words

end ConstituentTask

/-! ## Searched charts -/

/-- If no unary rule leads from a symbol to itself, then neither does a backpointer in the chart of any search,
with whatever weights. -/
theorem Chart.Named.unary_ne {α : Type} [Score α] {g : Grammar α} {s : Sentence} {c : Chart α}
    (h : c.Named g s) (hrule : ∀ r ∈ g.productions, r.children ≠ .unary r.parent)
    {weighed : PackedChart α} (hweighed : PackedChart.Reweighed (c.toPacked g) weighed) {i j : Nat}
    {A B : NonTerminal} {e : Entry α} (he : weighed.get? i j A = some e)
    (hb : e.backpointer = .unary B) : B ≠ A ∧ B < g.numNonterminals := by
  obtain ⟨hpacked, -, hget⟩ := Chart.toPacked_spec h.sound
  obtain ⟨e', he', hb'⟩ := hweighed.exists_get? hpacked he
  obtain ⟨r, hr, rfl, hchildren⟩ := (h.named i j A e' (hget i j A ▸ he')).rule
  rw [hb', hb] at hchildren
  refine ⟨?_, Grammar.unary_lt hr hchildren⟩
  rintro rfl
  exact hrule r hr hchildren

namespace Chain

/-- `S → A`, `A → B B`, `A → b` and `B → b` in single precision, over a table whose coarse categories have been
read off the names. -/
def namedPairs : Grammar Float32 :=
  .ofProductions (.ofVocabularies nonterminals lexicon 0 symbols.start_lt) code (by decide)
    [⟨0, .unary 1, -1⟩, ⟨1, .binary 2 2, 0⟩, ⟨1, .lexical 0, -1⟩, ⟨2, .lexical 0, 0⟩]
    (by
      have hsize : nonterminals.size = 3 ∧ lexicon.size = 1 := by decide
      show ∀ p ∈ _, Production.InRange nonterminals.size lexicon.size p
      rw [hsize.1, hsize.2]
      simp [Production.InRange, Children.InRange])
    (by simp [Production.sameRule])

/-- The weighed chart of two words. -/
def namedPair : PackedChart Float32 :=
  Parser.weighed Options.standard.sums namedPairs pair
    (((⟨namedPairs, .standard, .inside⟩ : Parser Float32).search pair).chart.toPacked namedPairs)

theorem namedPair_splitSum_eq_goodman :
    (Options.standard.constituentTask namedPairs namedPair ["b", "b"] true).tree? =
      (Options.standard.constituentTask namedPairs namedPair ["b", "b"] false).tree? := by
  have hnamed := ((⟨namedPairs, .standard, .inside⟩ : Parser Float32).search_named pair).1
  have hpacked := (Chart.toPacked_spec hnamed.sound).1
  have hweighed := PackedChart.reweighed_weighed Options.standard.sums pair hpacked
  refine ConstituentTask.splitSum_eq_goodman namedPairs ⟨rfl, rfl⟩ ?_ namedPair
    (hweighed.sound hpacked) (fun i j A e B he hb => hnamed.unary_ne ?_ hweighed he hb) _ _
  · show ∀ A < 3, baseCategory (nonterminals.name A) = nonterminals.name A
    decide
  · simp [namedPairs, Grammar.ofProductions]

end Chain

end Constituency
