import Stylesheet.Text.Basic

/-!
# Tables

A table maps names to values and remembers the order in which the names
first came. Setting a name that is there changes its value and leaves it
in its place; erasing a name closes the gap. No name stands twice, which
is part of the type.
-/

set_option autoImplicit false

namespace Stylesheet

/-- Names with values, in order of arrival. -/
structure Table (α : Type) where
  entries : List (Text × α)
  distinct : (entries.map Prod.fst).Nodup

namespace Table

variable {α : Type}

/-- The table without names. -/
def empty : Table α := ⟨[], by simp⟩

instance : Inhabited (Table α) := ⟨empty⟩

/-- The names in order. -/
def names (t : Table α) : List Text := t.entries.map Prod.fst

/-- The value of a name. -/
def get? (t : Table α) (name : Text) : Option α := t.entries.lookup name

/-- Whether a name has a value. -/
def contains (t : Table α) (name : Text) : Bool := (t.get? name).isSome

/-- How many names there are. -/
def length (t : Table α) : Nat := t.entries.length

/-- Sets a name among entries. -/
def setEntry (name : Text) (value : α) : List (Text × α) → List (Text × α)
  | [] => [(name, value)]
  | (n, v) :: rest => if n = name then (n, value) :: rest else (n, v) :: setEntry name value rest

/-- Setting a value keeps the names in order, and a new name comes last. -/
theorem fst_setEntry (name : Text) (value : α) (es : List (Text × α)) :
    (setEntry name value es).map Prod.fst
      = if name ∈ es.map Prod.fst then es.map Prod.fst else es.map Prod.fst ++ [name] := by
  induction es with
  | nil => simp [setEntry]
  | cons e es ih =>
    obtain ⟨n, v⟩ := e
    by_cases h : n = name
    · simp [setEntry, h]
    · have h' : ¬ name = n := fun h' => h h'.symm
      simp only [setEntry, h, if_false, List.map_cons, ih, List.mem_cons, h', false_or]
      split <;> simp

/-- Gives a name a value. -/
def set (t : Table α) (name : Text) (value : α) : Table α where
  entries := setEntry name value t.entries
  distinct := by
    rw [fst_setEntry]
    split
    · exact t.distinct
    · rename_i h
      rw [List.nodup_append]
      refine ⟨t.distinct, by simp, ?_⟩
      intro a ha b hb
      rw [List.mem_singleton.mp hb]
      rintro rfl
      exact h ha

/-- Takes a name out. -/
def erase (t : Table α) (name : Text) : Table α where
  entries := t.entries.filter fun e => e.1 != name
  distinct := t.distinct.sublist (List.filter_sublist.map _)

/-- Sets several names, one after the other. -/
def extend (t : Table α) (pairs : List (Text × α)) : Table α :=
  pairs.foldl (fun t (name, value) => t.set name value) t

/-- Sets several names, one after the other, and tells what each of them
was before it was set, the last one first. -/
def shadow (t : Table α) (pairs : List (Text × α)) : Table α × List (Text × Option α) :=
  pairs.foldl (fun (t, saved) (name, value) => (t.set name value, (name, t.get? name) :: saved))
    (t, [])

/-- Makes a name what it was before. -/
def putBack (t : Table α) (name : Text) : Option α → Table α
  | some value => t.set name value
  | none => t.erase name

/-- Makes several names what they were before, one after the other. -/
def restore (t : Table α) (saved : List (Text × Option α)) : Table α :=
  saved.foldl (fun t (name, previous) => t.putBack name previous) t

/-- The table of some pairs, later ones overriding. -/
def ofPairs (pairs : List (Text × α)) : Table α := empty.extend pairs

end Table

end Stylesheet
