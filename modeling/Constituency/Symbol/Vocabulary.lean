import Std.Data.HashMap

/-!
# Vocabularies

A vocabulary numbers names in the order of their first appearance.
-/

namespace Constituency

/-- Distinct names with their positions. -/
structure Vocabulary where
  names : Array String
  index : Std.HashMap String Nat
  /-- The index finds exactly the positions of the names. -/
  index_eq_iff : ∀ (name : String) (id : Nat), index[name]? = some id ↔ names[id]? = some name

namespace Vocabulary

/-- The vocabulary without names. -/
def empty : Vocabulary where
  names := #[]
  index := ∅
  index_eq_iff := by simp

/-- The position of a name. -/
def find? (v : Vocabulary) (name : String) : Option Nat :=
  v.index[name]?

/-- The name at a position. -/
def get? (v : Vocabulary) (id : Nat) : Option String :=
  v.names[id]?

/-- The name at a position, empty behind the last one. -/
def name (v : Vocabulary) (id : Nat) : String :=
  v.names.getD id ""

/-- The number of names. -/
def size (v : Vocabulary) : Nat :=
  v.names.size

/-- The names in order. -/
def toList (v : Vocabulary) : List String :=
  v.names.toList

/-- The vocabulary with one more name at its end. -/
def push (v : Vocabulary) (name : String) (h : v.find? name = none) : Vocabulary where
  names := v.names.push name
  index := v.index.insert name v.names.size
  index_eq_iff := by
    intro other id
    have h' : ∀ i, v.names[i]? ≠ some name := fun i hi => by
      have := (v.index_eq_iff name i).2 hi
      simp [find?] at h
      simp [h] at this
    have key := v.index_eq_iff other id
    grind

/-- The position of a name, which is added at the end if it is new. -/
def intern (v : Vocabulary) (name : String) : Nat × Vocabulary :=
  match h : v.find? name with
  | some id => (id, v)
  | none => (v.size, v.push name h)

/-- The distinct names of a list in the order of their first appearance. -/
def ofList (names : List String) : Vocabulary :=
  names.foldl (fun v name => (v.intern name).2) empty

/-! ## Lemmas -/

theorem find?_eq_some_iff {v : Vocabulary} {name : String} {id : Nat} :
    v.find? name = some id ↔ v.get? id = some name :=
  v.index_eq_iff name id

theorem lt_size_of_find? {v : Vocabulary} {name : String} {id : Nat}
    (h : v.find? name = some id) : id < v.size := by
  rw [find?_eq_some_iff, get?, Array.getElem?_eq_some_iff] at h
  exact h.1

theorem size_le_intern (v : Vocabulary) (name : String) : v.size ≤ (v.intern name).2.size := by
  unfold intern
  split
  · exact Nat.le_refl _
  · simp [size, push]

theorem intern_lt (v : Vocabulary) (name : String) :
    (v.intern name).1 < (v.intern name).2.size := by
  unfold intern
  split
  · next h => exact lt_size_of_find? h
  · simp [size, push]

theorem find?_intern_isSome (v : Vocabulary) (name other : String)
    (h : name = other ∨ (v.find? other).isSome) : ((v.intern name).2.find? other).isSome := by
  unfold intern
  split
  · next id hid =>
    rcases h with rfl | h
    · simp [hid]
    · exact h
  · simp only [find?, push, Std.HashMap.getElem?_insert] at h ⊢
    by_cases hn : name = other
    · simp [hn]
    · simpa [hn] using h

theorem find?_foldl_intern_isSome (names : List String) (v : Vocabulary) (other : String)
    (h : other ∈ names ∨ (v.find? other).isSome) :
    ((names.foldl (fun v name => (v.intern name).2) v).find? other).isSome := by
  induction names generalizing v with
  | nil => simpa using h
  | cons name rest ih =>
    refine ih _ ?_
    rw [List.mem_cons] at h
    rcases h with (h | h) | h
    · exact .inr (find?_intern_isSome v name other (.inl h.symm))
    · exact .inl h
    · exact .inr (find?_intern_isSome v name other (.inr h))

theorem find?_ofList_isSome {names : List String} {name : String} (h : name ∈ names) :
    ((ofList names).find? name).isSome :=
  find?_foldl_intern_isSome names empty name (.inl h)

end Vocabulary

end Constituency
