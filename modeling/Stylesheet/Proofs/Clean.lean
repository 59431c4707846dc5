import Stylesheet.Proofs.Brackets
import Stylesheet.Proofs.Collapse
import Stylesheet.Proofs.Pieces

/-!
# Clean stylesheets

A forest of nodes can hold any text, and most of them would not be read
back as what they are: a value with a semicolon would be two statements.
Clean nodes are those whose texts keep to their place.

A clean text is collapsed, its literals are closed, its brackets balanced,
and outside literals it has no braces and no semicolon. Headers, names and
statements do not begin with a comment either, because there a comment is
a node of its own; in values and media it is not. The rest of `IsClean`
says which statement a text is: a name does not begin with an at-sign and
has no colon, and a statement begins with an at-sign or has no colon. A
name may be empty.
-/

set_option autoImplicit false

namespace Stylesheet

namespace Text

/-- A text that takes nothing in of what follows, and does not end the
segment that it is in. -/
structure IsContained (t : Text) : Prop where
  closed : ∀ p ∈ pieces t, p.closed = true
  balanced : openBehind 0 (pieces t) = some 0
  inert : ∀ p ∈ pieces t, p ≠ .plain '{' ∧ p ≠ .plain '}' ∧ p ≠ .plain ';'

/-- A text as it is written in a stylesheet. -/
structure IsClean (t : Text) : Prop extends IsContained t where
  collapsed : collapse t = t

instance (t : Text) : Decidable (IsContained t) :=
  decidable_of_iff
    ((∀ p ∈ pieces t, p.closed = true) ∧ openBehind 0 (pieces t) = some 0
      ∧ ∀ p ∈ pieces t, p ≠ .plain '{' ∧ p ≠ .plain '}' ∧ p ≠ .plain ';')
    ⟨fun h => ⟨h.1, h.2.1, h.2.2⟩, fun h => ⟨h.closed, h.balanced, h.inert⟩⟩

instance (t : Text) : Decidable (IsClean t) :=
  decidable_of_iff (IsContained t ∧ collapse t = t)
    ⟨fun h => ⟨h.1, h.2⟩, fun h => ⟨h.toIsContained, h.collapsed⟩⟩

/-- Whether a text begins with a comment. -/
def beginsComment (t : Text) : Bool := ['/', '*'].isPrefixOf t

/-- Whether a text begins with the keyword of an import, in letters of
either case. -/
def beginsImport (t : Text) : Bool := (afterLetters? "@import".toList t).isSome

/-- One comment, from its opening mark to the first closing one. -/
def IsComment (t : Text) : Prop :=
  ∃ body, t = '/' :: '*' :: (body ++ ['*', '/']) ∧ ¬ ['*', '/'] <:+: body ++ ['*']

instance (t : Text) : Decidable (IsComment t) :=
  haveI : Decidable (['*', '/'] <:+: (t.drop 2).dropLast.dropLast ++ ['*']) :=
    List.instDecidableIsInfixOfDecidableEq _ _
  decidable_of_iff
    (t = '/' :: '*' :: ((t.drop 2).dropLast.dropLast ++ ['*', '/'])
      ∧ ¬ ['*', '/'] <:+: (t.drop 2).dropLast.dropLast ++ ['*'])
    ⟨fun h => ⟨_, h⟩, by rintro ⟨body, rfl, hbody⟩; simpa using hbody⟩

/-- A target that needs no more than the quotes around it. -/
def IsTarget (url : Text) : Prop :=
  url ≠ [] ∧ ∀ c ∈ url, c.toNat < 128 ∧ isQuote c = false ∧ c ≠ '\\' ∧ isBlank c = false

instance (url : Text) : Decidable (IsTarget url) :=
  haveI : Decidable (∀ c ∈ url, c.toNat < 128 ∧ isQuote c = false ∧ c ≠ '\\' ∧ isBlank c = false) :=
    List.decidableBAll _ url
  inferInstanceAs (Decidable (_ ∧ _))

end Text

namespace Node

/-- The texts of a node keep to their place; for a rule, its header
does. -/
def IsClean : Node → Prop
  | comment t => Text.IsComment t
  | importUrl url media => Text.IsTarget url ∧ Text.IsClean media
  | declaration name value =>
    Text.IsClean name ∧ Text.beginsComment name = false ∧ name.head? ≠ some '@'
      ∧ hasTop ':' 0 (pieces name) = false ∧ Text.IsClean value
  | statement t =>
    Text.IsClean t ∧ Text.beginsComment t = false
      ∧ (t.head? = some '@' ∧ Text.beginsImport t = false ∨ hasTop ':' 0 (pieces t) = false)
  | rule header _ => Text.IsClean header ∧ Text.beginsComment header = false

instance : (n : Node) → Decidable n.IsClean
  | comment t => inferInstanceAs (Decidable (Text.IsComment t))
  | importUrl _ _ => inferInstanceAs (Decidable (_ ∧ _))
  | declaration _ _ => inferInstanceAs (Decidable (_ ∧ _))
  | statement _ => inferInstanceAs (Decidable (_ ∧ _))
  | rule _ _ => inferInstanceAs (Decidable (_ ∧ _))

mutual

/-- A node and all nodes inside it, in document order. -/
def withDescendants : Node → List Node
  | rule header children => rule header children :: descendants children
  | n => [n]

/-- The nodes of a forest at every depth, in document order. -/
def descendants : List Node → List Node
  | [] => []
  | n :: rest => withDescendants n ++ descendants rest

end

/-- What is in two forests. -/
theorem descendants_append (nodes nodes' : List Node) :
    descendants (nodes ++ nodes') = descendants nodes ++ descendants nodes' := by
  induction nodes with
  | nil => rfl
  | cons n rest ih => rw [List.cons_append, descendants, descendants, ih, List.append_assoc]

/-- A forest of clean nodes. -/
def AllClean (nodes : List Node) : Prop := ∀ n ∈ descendants nodes, n.IsClean

instance (nodes : List Node) : Decidable (AllClean nodes) :=
  inferInstanceAs (Decidable (∀ n ∈ descendants nodes, n.IsClean))

end Node

end Stylesheet
