import Constituency.Grammar.Reader
import Constituency.Proofs.Grammar.Builder
import Constituency.Proofs.Score.Exact
import Constituency.Tree
import Mathlib

/-!
# Rules as they are written

The derivation trees of written rules, before any of them is split into binary rules, and the log
probabilities of these trees (`WrittenRule.Expands`, `Tree.weight`). A list of symbols that comes to stand
behind the first symbols of a rule gets a name of its own, which joins the symbols; different lists must
not get the same name (`WrittenRule.Apart`), and they do not if no symbol contains the separator
(`WrittenRule.apart_of_free`).
-/

namespace Constituency

namespace Tree

/-- The word of a leaf, or the label of a branch. -/
def symbol : Tree → String
  | leaf word _ => word
  | branch label _ _ _ => label

end Tree

namespace WrittenRule

variable {α : Type} {rules : List (WrittenRule α)} {r : WrittenRule α}
  {words names names' : List String} {trees trees' : List Tree} {t : Tree} {i m j : Nat}
  {name : String}

/-! ## Rules that are read -/

/-- The rule with its log probability in another form. -/
def map {β : Type} (value : α → β) (r : WrittenRule α) : WrittenRule β :=
  ⟨r.line, r.parent, r.children, value r.logProb⟩

/-- The parts of a rule that is read: its first symbol, the symbols behind the arrow, which are up to a
bracket, and the probability from there on. -/
theorem of_read {line : Nat} {text : List Char} {r : WrittenRule Float32} (h : read line text = .ok r) :
    r.parent = String.ofList (text.takeWhile isNameChar) ∧ text.takeWhile isNameChar ≠ [] ∧
      ∃ body, body <:+ text ∧ r.children =
          (Text.words (body.takeWhile fun c => !(c == '[' || c == ']'))).map String.ofList ∧
        r.children ≠ [] ∧
        finalProbability line (body.dropWhile fun c => !(c == '[' || c == ']')) = .ok r.logProb := by
  unfold read at h
  simp only [bind, Except.bind, pure, Except.pure, throw, throwThe, MonadExceptOf.throw] at h
  split at h
  · cases h
  next hparent =>
  split at h
  · split at h
    · cases h
    · next logProb hlogProb =>
      split at h
      · cases h
      · next hchildren =>
        obtain rfl := Except.ok.inj h
        refine ⟨rfl, fun hnil => hparent (by rw [hnil]; rfl), _, ?_, rfl,
          fun hnil => hchildren (List.isEmpty_iff.2 hnil), hlogProb⟩
        exact (List.drop_suffix _ _).trans ((List.dropWhile_suffix _).trans (List.dropWhile_suffix _))
  · cases h

/-- A rule that is read has children. -/
theorem children_ne_nil_of_read {line : Nat} {text : List Char} {r : WrittenRule Float32}
    (h : read line text = .ok r) : r.children ≠ [] := by
  obtain ⟨-, -, -, -, -, hne, -⟩ := of_read h
  exact hne

theorem exists_of_mem_mapM {β γ ε : Type} {f : β → Except ε γ} {xs : List β} {ys : List γ}
    (h : xs.mapM f = .ok ys) {y : γ} (hy : y ∈ ys) : ∃ x ∈ xs, f x = .ok y := by
  induction xs generalizing ys with
  | nil =>
    obtain rfl := Except.ok.inj h
    cases hy
  | cons x rest ih =>
    rw [List.mapM_cons] at h
    cases hx : f x with
    | error e =>
      rw [hx] at h
      cases h
    | ok z =>
      cases hrest : rest.mapM f with
      | error e =>
        rw [hx, hrest] at h
        cases h
      | ok zs =>
        rw [hx, hrest] at h
        obtain rfl := Except.ok.inj h
        rcases List.mem_cons.1 hy with rfl | hy
        · exact ⟨x, List.mem_cons_self, hx⟩
        · obtain ⟨x', hx', heq⟩ := ih hrest hy
          exact ⟨x', List.mem_cons_of_mem _ hx', heq⟩

theorem children_ne_nil_of_readAll {text : String} {written : List (WrittenRule Float32)}
    (h : readAll text = .ok written) {r : WrittenRule Float32} (hr : r ∈ written) :
    r.children ≠ [] := by
  obtain ⟨⟨line, statement⟩, -, hread⟩ := exists_of_mem_mapM h hr
  exact children_ne_nil_of_read hread

/-! ## Derivation trees -/

/-- No rule expands the name. -/
def IsWord (rules : List (WrittenRule α)) (name : String) : Prop := ∀ r ∈ rules, r.parent ≠ name

/-- Trees that stand next to each other over a span, one for each name: the word itself for a word, and for
a symbol the children of one of its rules. -/
inductive Expands (rules : List (WrittenRule α)) (words : List String) :
    Nat → Nat → List String → List Tree → Prop
  | nil (i : Nat) : Expands rules words i i [] []
  | word {i j : Nat} {name : String} {names : List String} {trees : List Tree}
      (isWord : IsWord rules name) (read : words[i]? = some name)
      (rest : Expands rules words (i + 1) j names trees) :
      Expands rules words i j (name :: names) (.leaf name i :: trees)
  | rule {i m j : Nat} {r : WrittenRule α} {names : List String} {children trees : List Tree}
      (mem : r ∈ rules) (below : Expands rules words i m r.children children)
      (rest : Expands rules words m j names trees) :
      Expands rules words i j (r.parent :: names) (.branch r.parent i m children :: trees)

theorem Expands.map_symbol (h : Expands rules words i j names trees) :
    trees.map Tree.symbol = names := by
  induction h with
  | nil => rfl
  | word _ _ _ ih => exact congrArg (List.cons _) ih
  | rule _ _ _ _ ih => exact congrArg (List.cons _) ih

theorem Expands.append (h : Expands rules words i m names trees)
    (h' : Expands rules words m j names' trees') :
    Expands rules words i j (names ++ names') (trees ++ trees') := by
  induction h with
  | nil => exact h'
  | word isWord read _ ih => exact .word isWord read (ih h')
  | rule mem below _ _ ih => exact .rule mem below (ih h')

/-- The tree of a symbol stands for one of its rules. -/
theorem Expands.exists_rule (h : Expands rules words i j [name] [t])
    (hname : ∃ r ∈ rules, r.parent = name) :
    ∃ r ∈ rules, r.parent = name ∧ ∃ children, t = .branch name i j children ∧
      Expands rules words i j r.children children := by
  cases h with
  | word isWord _ _ =>
    obtain ⟨r, hr, hparent⟩ := hname
    exact absurd hparent (isWord r hr)
  | rule mem below rest =>
    cases rest
    exact ⟨_, mem, rfl, _, rfl, below⟩

/-- Without a symbol that has the null label, and without marks of binarization, nothing is hidden. -/
theorem Expands.spliceAll_eq (h : Expands rules words i j names trees)
    (hshown : ∀ r ∈ rules, Tree.isHidden r.parent = false) : Tree.spliceAll trees = trees := by
  induction h with
  | nil => rfl
  | word _ _ _ ih => rw [Tree.spliceAll, Tree.splice, ih, List.singleton_append]
  | rule mem _ _ ihb ih =>
    rw [Tree.spliceAll, Tree.splice, ih, ihb]
    simp [hshown _ mem]

theorem Expands.unfactor_eq (h : Expands rules words i j [name] [t])
    (hshown : ∀ r ∈ rules, Tree.isHidden r.parent = false) : t.unfactor = t := by
  cases h with
  | word => rfl
  | rule _ below _ => rw [Tree.unfactor, below.spliceAll_eq hshown]

/-! ## Log probabilities -/

section Score

variable [Score α]

/-- The log probability of a rule: the best one if it is given several times. -/
def chance (rules : List (WrittenRule α)) (parent : String) (children : List String) : α :=
  (NamedRule.merge ((rules.filter fun r => r.parent == parent && r.children == children).map
    (·.logProb))).getD Score.impossible

/-- A rule that is given several times has the highest of its log probabilities. -/
theorem isGreatest_chance [MonotoneScore α] (hr : r ∈ rules) :
    IsGreatest {x | ∃ q ∈ rules, q.parent = r.parent ∧ q.children = r.children ∧ q.logProb = x}
      (chance rules r.parent r.children) := by
  have hmem : ∀ x, (∃ q ∈ rules, q.parent = r.parent ∧ q.children = r.children ∧ q.logProb = x) ↔
      x ∈ (rules.filter fun q => q.parent == r.parent && q.children == r.children).map
        (·.logProb) := by
    simp [and_assoc]
  cases hxs : (rules.filter fun q => q.parent == r.parent && q.children == r.children).map
      (·.logProb) with
  | nil =>
    have hself := (hmem r.logProb).1 ⟨r, hr, rfl, rfl, rfl⟩
    rw [hxs] at hself
    cases hself
  | cons x rest =>
    rw [hxs] at hmem
    rw [chance, hxs]
    obtain ⟨hfound, hle⟩ := Score.isGreatest_foldl_best x rest
    exact ⟨(hmem _).2 hfound, fun y hy => hle ((hmem y).1 hy)⟩

end Score

end WrittenRule

namespace Tree

variable {α : Type} [Score α]

mutual

/-- The log probabilities of the rules of a tree, added up. -/
def weight (rules : List (WrittenRule α)) : Tree → α
  | leaf _ _ => 0
  | branch label _ _ children =>
    WrittenRule.chance rules label (children.map symbol) + weightAll rules children

/-- The log probabilities of the rules of several trees, added up. -/
def weightAll (rules : List (WrittenRule α)) : List Tree → α
  | [] => 0
  | tree :: rest => tree.weight rules + weightAll rules rest

end

theorem weightAll_append [ExactScore α] (rules : List (WrittenRule α)) (trees more : List Tree) :
    weightAll rules (trees ++ more) = weightAll rules trees + weightAll rules more := by
  induction trees with
  | nil => exact (ExactScore.zero_add _).symm
  | cons t rest ih => rw [List.cons_append, weightAll, ih, weightAll, ExactScore.add_assoc]

theorem weightAll_singleton [ExactScore α] (rules : List (WrittenRule α)) (t : Tree) :
    weightAll rules [t] = t.weight rules := Score.add_zero _

end Tree

namespace WrittenRule

variable {α : Type} {rules : List (WrittenRule α)} {r r' : WrittenRule α} {l l' : List String}

/-! ## Names of lists -/

/-- The lists of symbols of a rule that get a name of their own: two or more behind the first ones. -/
def parts (r : WrittenRule α) : List (List String) :=
  r.children.tail.tails.filter (2 ≤ ·.length)

theorem mem_parts : l ∈ r.parts ↔ l <:+ r.children.tail ∧ 2 ≤ l.length := by
  simp [parts]

/-- Different lists have different names. -/
def Apart (rules : List (WrittenRule α)) : Prop :=
  ∀ r ∈ rules, ∀ r' ∈ rules, ∀ l ∈ r.parts, ∀ l' ∈ r'.parts,
    factoredName r.parent l = factoredName r'.parent l' → l = l'

theorem toList_factoredName (parent : String) (hl : l ≠ []) :
    (factoredName parent l).toList =
      ['|'].intercalate ((factoredMark :: parent.toList) :: l.map String.toList) := by
  cases l with
  | nil => exact absurd rfl hl
  | cons c rest =>
    rw [factoredName, String.toList_append, String.toList_append, String.toList_append,
      String.toList_intercalate]
    simp [List.intercalate]

theorem isFactoredName_factoredName (parent : String) (l : List String) :
    isFactoredName (factoredName parent l) = true := by
  rw [isFactoredName, factoredName, String.toList_append, String.toList_append,
    String.toList_append, String.toList_singleton]
  rfl

/-- Lists whose symbols do not contain the separator are told apart by their names. -/
theorem apart_of_free (hparent : ∀ r ∈ rules, '|' ∉ r.parent.toList)
    (hchildren : ∀ r ∈ rules, ∀ c ∈ r.children.tail, '|' ∉ c.toList) : Apart rules := by
  have hsplit : ∀ r ∈ rules, ∀ l ∈ r.parts, List.splitOn '|' (factoredName r.parent l).toList =
      (factoredMark :: r.parent.toList) :: l.map String.toList := by
    intro r hr l hl
    obtain ⟨hsuffix, hlength⟩ := mem_parts.1 hl
    rw [toList_factoredName r.parent (List.ne_nil_of_length_pos (by omega))]
    refine List.splitOn_intercalate '|' (fun x hx => ?_) (List.cons_ne_nil _ _)
    rcases List.mem_cons.1 hx with rfl | hx
    · rw [List.mem_cons, not_or]
      exact ⟨by decide, hparent r hr⟩
    · obtain ⟨c, hc, rfl⟩ := List.mem_map.1 hx
      exact hchildren r hr c (hsuffix.subset hc)
  intro r hr r' hr' l hl l' hl' hname
  have heq := (hsplit r hr l hl).symm.trans (hname ▸ hsplit r' hr' l' hl')
  exact List.map_injective_iff.2 (fun _ _ => String.toList_inj.1) (List.cons.inj heq).2

end WrittenRule

end Constituency
