/-
# Tables of named things

A table maps names to things.  It is a list of pairs in which every name is kept at the place of
its first insertion; all that matters of it is what `get?` finds.
-/

import LineScript.Token

namespace LineScript

/-- A finite map from names. -/
structure Table (α : Type) where
  /-- The pairs of a name and its thing. -/
  entries : List (Text × α)
deriving DecidableEq, Repr

namespace Table

variable {α : Type}

/-- The table without entries. -/
def empty : Table α := ⟨[]⟩

/-- Binds a name in a list of pairs, in place of its former thing if it has one. -/
def insertEntry (name : Text) (a : α) : List (Text × α) → List (Text × α)
  | [] => [(name, a)]
  | (n, b) :: es => if n = name then (name, a) :: es else (n, b) :: insertEntry name a es

/-- Binds a name, in place of its former thing if it has one. -/
def insert (t : Table α) (name : Text) (a : α) : Table α :=
  ⟨insertEntry name a t.entries⟩

/-- The thing that a name is bound to in a list of pairs. -/
def findEntry? (name : Text) : List (Text × α) → Option α
  | [] => none
  | (n, b) :: es => if n = name then some b else findEntry? name es

/-- The thing that a name is bound to. -/
def get? (t : Table α) (name : Text) : Option α :=
  findEntry? name t.entries

@[simp] theorem get?_empty (name : Text) : (empty : Table α).get? name = none := rfl

theorem findEntry?_insertEntry (name : Text) (a : α) (es : List (Text × α)) (other : Text) :
    findEntry? other (insertEntry name a es)
      = if other = name then some a else findEntry? other es := by
  induction es with
  | nil => simp [insertEntry, findEntry?, eq_comm]
  | cons e es ih =>
    obtain ⟨n, b⟩ := e
    by_cases hn : n = name
    · subst hn
      by_cases h : other = n
      · simp [insertEntry, findEntry?, h]
      · simp [insertEntry, findEntry?, h, Ne.symm h]
    · by_cases h : other = n
      · subst h
        simp [insertEntry, findEntry?, hn]
      · simp [insertEntry, findEntry?, hn, Ne.symm h, ih]

/-- A name is found as last bound, and the others are as before. -/
theorem get?_insert (t : Table α) (name : Text) (a : α) (other : Text) :
    (t.insert name a).get? other = if other = name then some a else t.get? other :=
  findEntry?_insertEntry name a t.entries other

@[simp] theorem get?_insert_self (t : Table α) (name : Text) (a : α) :
    (t.insert name a).get? name = some a := by
  simp [get?_insert]

theorem get?_insert_of_ne (t : Table α) (a : α) {name other : Text} (h : other ≠ name) :
    (t.insert name a).get? other = t.get? other := by
  simp [get?_insert, h]

end Table
end LineScript
