import Constituency.Proofs.Grammar.Calls

/-!
# Names in the order of mention

A builder numbers names as its rules mention them, and a rule that it has taken before mentions no new ones.
The productions that are left, each listed once, therefore mention the names in the same order
(`GrammarBuilder.internAll_productions`). A builder that is given these productions again, in names, makes
the same of them, whatever their log probabilities have become (`GrammarBuilder.retake`).
-/

namespace Constituency

/-! ## Names that are interned again -/

namespace Vocabulary

variable {v : Vocabulary} {name : String} {names : List String} {id : Nat}

/-- The vocabulary with some names, in their order. -/
def internAll (v : Vocabulary) (names : List String) : Vocabulary :=
  names.foldl (fun v name => (v.intern name).2) v

theorem internAll_append (v : Vocabulary) (names more : List String) :
    v.internAll (names ++ more) = (v.internAll names).internAll more :=
  List.foldl_append

theorem intern_of_isSome (h : (v.find? name).isSome = true) : (v.intern name).2 = v := by
  unfold intern
  split
  · rfl
  · next hnone =>
    rw [hnone] at h
    cases h

/-- Names that are there change nothing. -/
theorem internAll_of_isSome (h : ∀ name ∈ names, (v.find? name).isSome = true) :
    v.internAll names = v := by
  induction names with
  | nil => rfl
  | cons name names ih =>
    obtain ⟨hname, hnames⟩ := List.forall_mem_cons.1 h
    rw [internAll, List.foldl_cons, intern_of_isSome hname]
    exact ih hnames

/-- What mentions its names for a second time adds none of them. -/
theorem internAll_flatMap_eraseDups {β : Type} [BEq β] [LawfulBEq β] (v : Vocabulary)
    (mentions : β → List String) (xs : List β) :
    v.internAll (xs.eraseDups.flatMap mentions) = v.internAll (xs.flatMap mentions) := by
  induction xs using List.reverseRecOn with
  | nil => rfl
  | append_singleton xs x ih =>
    rw [eraseDups_concat, List.flatMap_append, List.flatMap_singleton, internAll_append]
    split
    · next hmem =>
      have hthere : ∀ name ∈ mentions x,
          ((v.internAll (xs.flatMap mentions)).find? name).isSome = true := fun name hname =>
        find?_foldl_intern_isSome _ v name (.inl (List.mem_flatMap.2 ⟨x, hmem, hname⟩))
      rw [ih, internAll_of_isSome hthere]
    · rw [List.flatMap_append, List.flatMap_singleton, internAll_append, ih]

/-- Only what is interned is new. -/
theorem mem_intern {other : String} (h : other ∈ (v.intern name).2.toList) :
    other ∈ v.toList ∨ other = name := by
  unfold intern at h
  split at h
  · exact .inl h
  · have hpush : other ∈ (v.names.push name).toList := h
    rw [Array.toList_push, List.mem_append, List.mem_singleton] at hpush
    exact hpush

theorem mem_internAll {other : String} (h : other ∈ (v.internAll names).toList) :
    other ∈ v.toList ∨ other ∈ names := by
  induction names generalizing v with
  | nil => exact .inl h
  | cons name names ih =>
    rcases ih h with hv | hnames
    · exact (mem_intern hv).imp_right fun (heq : other = name) => heq ▸ List.mem_cons_self
    · exact .inr (List.mem_cons_of_mem _ hnames)

theorem name_mem_toList (h : id < v.size) : v.name id ∈ v.toList :=
  Array.mem_toList_iff.2 (Array.mem_of_getElem? (get?_eq_some_of_lt h))

theorem name_of_find? (h : v.find? name = some id) : v.name id = name :=
  name_eq_of_get? (find?_eq_some_iff.1 h)

theorem find?_name (h : id < v.size) : v.find? (v.name id) = some id :=
  find?_eq_some_iff.2 (get?_eq_some_of_lt h)

end Vocabulary

/-! ## Productions in names -/

namespace NamedChildren

/-- The non-terminals of a right-hand side. -/
def nonterminals : NamedChildren → List String
  | binary left right => [left, right]
  | unary child => [child]
  | lexical _ => []

/-- The words of a right-hand side. -/
def words : NamedChildren → List String
  | binary _ _ | unary _ => []
  | lexical word => [word]

/-- All symbols of a right-hand side. -/
def names (c : NamedChildren) : List String :=
  c.nonterminals ++ c.words

@[simp]
theorem names_binary (left right : String) : (binary left right).names = [left, right] := rfl

@[simp]
theorem names_unary (child : String) : (unary child).names = [child] := rfl

@[simp]
theorem names_lexical (word : String) : (lexical word).names = [word] := rfl

end NamedChildren

namespace NamedRule

variable {α : Type}

/-- The non-terminals in the order in which the rule mentions them. -/
def nonterminals (r : NamedRule α) : List String :=
  r.parent :: r.children.nonterminals

/-- The words that the rule mentions. -/
def words (r : NamedRule α) : List String :=
  r.children.words

/-- All symbols of a rule. -/
def names (r : NamedRule α) : List String :=
  r.parent :: r.children.names

/-- The rule without its log probability. -/
def head (r : NamedRule α) : String × NamedChildren :=
  (r.parent, r.children)

/-- The call that gives a rule to a builder. -/
def call (r : NamedRule α) : GrammarBuilder.Call α :=
  match r.children with
  | .binary left right => .binary r.parent left right r.logProb
  | .unary child => .unary r.parent child r.logProb
  | .lexical word => .lexical r.parent word r.logProb

/-- The rule with another log probability. -/
def map {β : Type} (value : α → β) (r : NamedRule α) : NamedRule β :=
  ⟨r.parent, r.children, value r.logProb⟩

end NamedRule

/-- A right-hand side in names. -/
def Children.named (nonterminals lexicon : Vocabulary) : Children → NamedChildren
  | .binary left right => .binary (nonterminals.name left) (nonterminals.name right)
  | .unary child => .unary (nonterminals.name child)
  | .lexical word => .lexical (lexicon.name word)

namespace Production

variable {α : Type} {v w : Vocabulary} {p : Production α} {r : NamedRule α}
  {given : List (Production α)}

/-- A production in names. -/
def named (v w : Vocabulary) (p : Production α) : NamedRule α :=
  ⟨v.name p.parent, p.children.named v w, p.logProb⟩

/-- A rule over numbers, in names. -/
def head (v w : Vocabulary) (rule : NonTerminal × Children) : String × NamedChildren :=
  (v.name rule.1, rule.2.named v w)

/-- The production with another log probability. -/
def map {β : Type} (value : α → β) (p : Production α) : Production β :=
  ⟨p.parent, p.children, value p.logProb⟩

/-- A rule that is given is the production in names. -/
theorem named_of_production? (h : r.call.production? v w = some p) : p.named v w = r := by
  obtain ⟨parent, children, x⟩ := r
  cases children with
  | binary left right =>
    simp only [NamedRule.call, GrammarBuilder.Call.production?, Option.pure_def, Option.bind_eq_bind,
      Option.bind_eq_some_iff] at h
    obtain ⟨A, hA, B, hB, C, hC, hp⟩ := h
    obtain rfl := Option.some.inj hp
    rw [named, Children.named, Vocabulary.name_of_find? hA, Vocabulary.name_of_find? hB,
      Vocabulary.name_of_find? hC]
  | unary child =>
    simp only [NamedRule.call, GrammarBuilder.Call.production?, Option.pure_def, Option.bind_eq_bind,
      Option.bind_eq_some_iff] at h
    obtain ⟨A, hA, B, hB, hp⟩ := h
    obtain rfl := Option.some.inj hp
    rw [named, Children.named, Vocabulary.name_of_find? hA, Vocabulary.name_of_find? hB]
  | lexical word =>
    simp only [NamedRule.call, GrammarBuilder.Call.production?, Option.pure_def, Option.bind_eq_bind,
      Option.bind_eq_some_iff] at h
    obtain ⟨A, hA, t, ht, hp⟩ := h
    obtain rfl := Option.some.inj hp
    rw [named, Children.named, Vocabulary.name_of_find? hA, Vocabulary.name_of_find? ht]

/-- The production in names gives the production. -/
theorem production?_named (hp : p.InRange v.size w.size) :
    (p.named v w).call.production? v w = some p := by
  obtain ⟨parent, children, x⟩ := p
  obtain ⟨hparent, hchildren⟩ := hp
  have hfound := Vocabulary.find?_name hparent
  cases children with
  | binary left right =>
    simp only [named, Children.named, NamedRule.call, GrammarBuilder.Call.production?, hfound,
      Vocabulary.find?_name hchildren.1, Vocabulary.find?_name hchildren.2]
    rfl
  | unary child =>
    simp only [named, Children.named, NamedRule.call, GrammarBuilder.Call.production?, hfound,
      Vocabulary.find?_name hchildren]
    rfl
  | lexical word =>
    simp only [named, Children.named, NamedRule.call, GrammarBuilder.Call.production?, hfound,
      Vocabulary.find?_name hchildren]
    rfl

/-- Different rules are not merged. -/
theorem merged_eq_self [Score α] (h : given.Pairwise fun p q => p.sameRule q = false) :
    merged given = given := by
  induction given using List.reverseRecOn with
  | nil => rfl
  | append_singleton given p ih =>
    obtain ⟨hgiven, -, hbefore⟩ := List.pairwise_append.1 h
    have hnone : ¬ (merged given).any (·.sameRule p) = true := by
      rw [ih hgiven, List.any_eq_true]
      rintro ⟨q, hq, hsame⟩
      rw [hbefore q hq p List.mem_cons_self] at hsame
      cases hsame
    rw [merged_append_singleton, insert, if_neg hnone, ih hgiven]

end Production

/-! ## Builders -/

namespace GrammarBuilder

variable {α : Type} [Score α] {start : String} {rules : List (NamedRule α)} {b b' : GrammarBuilder α}

theorem callAll?_map_call (b : GrammarBuilder α) (rules : List (NamedRule α)) :
    b.callAll? (rules.map NamedRule.call) = some (rules.foldl add b) := by
  induction rules generalizing b with
  | nil => rfl
  | cons r rules ih =>
    have hcall : b.call? r.call = some (b.add r) := by
      obtain ⟨parent, children, x⟩ := r
      cases children <;> rfl
    rw [callAll?, List.map_cons, List.foldlM_cons, hcall]
    exact ih (b.add r)

theorem nonterminals_add_eq (b : GrammarBuilder α) (r : NamedRule α) :
    (b.add r).nonterminals = b.nonterminals.internAll r.nonterminals := by
  obtain ⟨parent, children, x⟩ := r
  cases children <;> rfl

theorem lexicon_add_eq (b : GrammarBuilder α) (r : NamedRule α) :
    (b.add r).lexicon = b.lexicon.internAll r.words := by
  obtain ⟨parent, children, x⟩ := r
  cases children <;> rfl

theorem nonterminals_foldl_add_eq (b : GrammarBuilder α) (rules : List (NamedRule α)) :
    (rules.foldl add b).nonterminals =
      b.nonterminals.internAll (rules.flatMap NamedRule.nonterminals) := by
  induction rules generalizing b with
  | nil => rfl
  | cons r rules ih =>
    rw [List.foldl_cons, ih, nonterminals_add_eq, List.flatMap_cons, Vocabulary.internAll_append]

theorem lexicon_foldl_add_eq (b : GrammarBuilder α) (rules : List (NamedRule α)) :
    (rules.foldl add b).lexicon = b.lexicon.internAll (rules.flatMap NamedRule.words) := by
  induction rules generalizing b with
  | nil => rfl
  | cons r rules ih =>
    rw [List.foldl_cons, ih, lexicon_add_eq, List.flatMap_cons, Vocabulary.internAll_append]

/-- The rules that a builder has taken, in numbers. -/
def given (b : GrammarBuilder α) (rules : List (NamedRule α)) : List (Production α) :=
  rules.filterMap fun r => r.call.production? b.nonterminals b.lexicon

theorem took_rules (hb : b = rules.foldl add (new start)) : b.Took (rules.map NamedRule.call) := by
  have htook := (took_new start).callAll (callAll?_map_call (new start) rules)
  rwa [← hb, List.nil_append] at htook

theorem productions_eq_merged (hb : b = rules.foldl add (new start)) :
    b.productions = Production.merged (b.given rules) := by
  rw [(took_rules hb).productions_eq, List.filterMap_map]
  rfl

theorem map_named_given (hb : b = rules.foldl add (new start)) :
    (b.given rules).map (·.named b.nonterminals b.lexicon) = rules := by
  have hnamed : ∀ r ∈ rules,
      (r.call.production? b.nonterminals b.lexicon).map (·.named b.nonterminals b.lexicon) = some r := by
    intro r hr
    have hrule : r.call.logProb?.isSome = true := by
      obtain ⟨parent, children, x⟩ := r
      cases children <;> rfl
    obtain ⟨p, hp⟩ := Option.isSome_iff_exists.1
      ((took_rules hb).named r.call (List.mem_map_of_mem hr) hrule)
    rw [hp, Option.map_some, Production.named_of_production? hp]
  rw [given, List.map_filterMap, List.filterMap_congr hnamed, List.filterMap_some]

/-- The productions in names are the rules, each where it was first given. -/
theorem map_rule_productions (hb : b = rules.foldl add (new start)) :
    b.productions.map (·.rule) = ((b.given rules).map (·.rule)).eraseDups := by
  rw [productions_eq_merged hb, Production.map_rule_merged]

theorem map_head_given (hb : b = rules.foldl add (new start)) :
    ((b.given rules).map (·.rule)).map (Production.head b.nonterminals b.lexicon) =
      rules.map NamedRule.head := by
  conv_rhs => rw [← map_named_given hb]
  rw [List.map_map, List.map_map]
  rfl

theorem mem_head_productions (hb : b = rules.foldl add (new start)) (x : String × NamedChildren) :
    x ∈ (b.productions.map (·.rule)).map (Production.head b.nonterminals b.lexicon) ↔
      x ∈ rules.map NamedRule.head := by
  rw [map_rule_productions hb, ← map_head_given hb, List.mem_map, List.mem_map]
  simp only [List.mem_eraseDups]

/-- The first rule comes first. -/
theorem head?_productions (hb : b = rules.foldl add (new start)) :
    (b.productions.map (·.rule)).head?.map (Production.head b.nonterminals b.lexicon) =
      rules.head?.map NamedRule.head := by
  rw [map_rule_productions hb, ← List.head?_map (f := NamedRule.head), ← map_head_given hb]
  cases (b.given rules).map (·.rule) with
  | nil => rfl
  | cons rule rest => rw [List.eraseDups_cons, List.head?_cons, List.map_cons, List.head?_cons]; rfl

/-- The productions mention names in the order in which the rules do. -/
theorem internAll_productions (hb : b = rules.foldl add (new start))
    (mentions : String × NamedChildren → List String) (v : Vocabulary) :
    v.internAll (b.productions.flatMap fun p => mentions (p.named b.nonterminals b.lexicon).head) =
      v.internAll (rules.flatMap fun r => mentions r.head) := by
  have hproductions : (b.productions.flatMap fun p =>
      mentions (p.named b.nonterminals b.lexicon).head) = (b.productions.map (·.rule)).flatMap fun rule =>
        mentions (Production.head b.nonterminals b.lexicon rule) := by
    rw [List.flatMap_map]
    rfl
  have hrules : (rules.flatMap fun r => mentions r.head) = ((b.given rules).map (·.rule)).flatMap
      fun rule => mentions (Production.head b.nonterminals b.lexicon rule) := by
    rw [← List.flatMap_map (f := NamedRule.head), ← map_head_given hb, List.flatMap_map]
  rw [hproductions, map_rule_productions hb, Vocabulary.internAll_flatMap_eraseDups, hrules]

/-- What holds of the symbols of the rules holds of the names of the productions. -/
theorem forall_names_productions {P : String → Prop} (hb : b = rules.foldl add (new start))
    (h : ∀ s ∈ rules, ∀ name ∈ s.names, P name) :
    ∀ p ∈ b.productions, ∀ name ∈ (p.named b.nonterminals b.lexicon).names, P name := by
  intro p hp
  have hmem := (mem_head_productions hb _).1 (List.mem_map_of_mem (List.mem_map_of_mem hp))
  obtain ⟨s, hs, hhead⟩ := List.mem_map.1 hmem
  obtain ⟨hparent, hchildren⟩ := Prod.mk.inj hhead
  have hsame : s.names = (p.named b.nonterminals b.lexicon).names := by
    rw [NamedRule.names, hparent, hchildren]
    rfl
  exact hsame ▸ h s hs

theorem forall_nonterminals {P : String → Prop} (hb : b = rules.foldl add (new start))
    (hstart : P start) (h : ∀ s ∈ rules, ∀ name ∈ s.names, P name) :
    ∀ name ∈ b.nonterminals.toList, P name := by
  intro name hname
  rw [hb, nonterminals_foldl_add_eq] at hname
  rcases Vocabulary.mem_internAll hname with hnew | hmention
  · rcases Vocabulary.mem_intern hnew with hempty | rfl
    · cases hempty
    · exact hstart
  · obtain ⟨s, hs, hmem⟩ := List.mem_flatMap.1 hmention
    refine h s hs name ?_
    rcases List.mem_cons.1 hmem with rfl | hmem
    · exact List.mem_cons_self
    · exact List.mem_cons_of_mem _ (List.mem_append_left _ hmem)

/-- The first production is over the start symbol if the first rule is. -/
theorem head?_parent_productions (hb : b = rules.foldl add (new start)) (value : α → α) :
    (b.productions.map fun p => (p.named b.nonterminals b.lexicon).map value).head?.map (·.parent) =
      rules.head?.map (·.parent) := by
  have hhead := congrArg (Option.map Prod.fst) (head?_productions hb)
  rw [List.head?_map, Option.map_map, Option.map_map, Option.map_map] at hhead
  rw [List.head?_map, Option.map_map]
  exact hhead

/-- A builder that takes its own productions, in names and with other log probabilities, has the same names
with the same numbers and the same productions in the same order. -/
theorem retake (hb : b = rules.foldl add (new start)) (value : α → α)
    (hb' : b' = (b.productions.map fun p =>
      (p.named b.nonterminals b.lexicon).map value).foldl add (new start)) :
    b'.nonterminals = b.nonterminals ∧ b'.lexicon = b.lexicon ∧
      b'.productions = b.productions.map (·.map value) := by
  have hnonterminals : b'.nonterminals = b.nonterminals := by
    rw [hb', nonterminals_foldl_add_eq, List.flatMap_map]
    refine (internAll_productions hb (fun head => head.1 :: head.2.nonterminals) _).trans ?_
    rw [hb, nonterminals_foldl_add_eq]
    rfl
  have hlexicon : b'.lexicon = b.lexicon := by
    rw [hb', lexicon_foldl_add_eq, List.flatMap_map]
    refine (internAll_productions hb (fun head => head.2.words) _).trans ?_
    rw [hb, lexicon_foldl_add_eq]
    rfl
  refine ⟨hnonterminals, hlexicon, ?_⟩
  have hgiven : b'.given (b.productions.map fun p => (p.named b.nonterminals b.lexicon).map value) =
      b.productions.map (·.map value) := by
    have hnumbered : ∀ p ∈ b.productions,
        ((p.named b.nonterminals b.lexicon).map value).call.production? b.nonterminals b.lexicon =
          some (p.map value) := fun p hp => by
      have hrange : (p.map value).InRange b.nonterminals.size b.lexicon.size := b.inRange p hp
      exact Production.production?_named hrange
    rw [given, hnonterminals, hlexicon, List.filterMap_map, ← List.filterMap_eq_map]
    exact List.filterMap_congr hnumbered
  have hdistinct : (b.productions.map (·.map value)).Pairwise fun p q => p.sameRule q = false :=
    List.pairwise_map.2 b.distinct
  rw [productions_eq_merged hb', hgiven, Production.merged_eq_self hdistinct]

omit [Score α] in
/-- The log probabilities are no reason to build or not to build a grammar. -/
theorem build_map {g : Grammar α} {value : α → α} (hbuild : b.build = .ok g)
    (hnonterminals : b'.nonterminals = b.nonterminals) (hlexicon : b'.lexicon = b.lexicon)
    (hproductions : b'.productions = b.productions.map (·.map value)) :
    ∃ g', b'.build = .ok g' ∧ g'.symbols = g.symbols ∧ g'.code = g.code ∧
      g'.productions = g.productions.map (·.map value) := by
  obtain ⟨start, v, w, ps, hne, hin, hdis⟩ := b
  obtain ⟨start', v', w', ps', hne', hin', hdis'⟩ := b'
  obtain rfl : v' = v := hnonterminals
  obtain rfl : w' = w := hlexicon
  obtain rfl : ps' = ps.map (·.map value) := hproductions
  unfold build at hbuild ⊢
  split_ifs at hbuild with hempty hstart
  rw [if_neg, if_neg]
  · split at hbuild
    · cases hbuild
    · next code hcode =>
      obtain rfl := Except.ok.inj hbuild
      split
      · next hnone =>
        rw [hnone] at hcode
        cases hcode
      · next code' hcode' =>
        obtain rfl := Option.some.inj (hcode'.symm.trans hcode)
        exact ⟨_, rfl, rfl, rfl, rfl⟩
  · rw [List.all_map]
    exact hstart
  · rw [List.isEmpty_map]
    exact hempty

end GrammarBuilder

end Constituency
