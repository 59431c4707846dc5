import Mathlib.Data.Int.Range
import Stylesheet.Loop
import Stylesheet.Proofs.Collapse
import Stylesheet.Proofs.Run
import Stylesheet.Proofs.Statement
import Stylesheet.Proofs.Substitution
import Stylesheet.Proofs.Unquoted

/-!
# Loops mean what their nesting says

`expandLoops` works from the inside out. In each round of a loop it first
expands the loops in the body and then fills all placeholders of what it
has, so the text of an inner loop is filled again in every loop around it.
All of them write their variables into one table, from which nothing is
taken back. The meaning is told without a table: a body is read once for
every value of its variable, and a placeholder stands for the value of the
loop around it, or for what the table had at the start.
`expandLoops_expanded` says that the two agree.

A text that is made of pieces, placeholders and loops is given as a
`Template`. While its loops run, the table has all that a template may
refer to (`Agrees`), because loops set no name that anything outside of them
refers to (`fresh_rounds`). What has been filled once has no `$` any more,
so filling it again changes nothing (`not_mem_filled`, `cut_expanded`).
-/

set_option autoImplicit false

namespace Stylesheet

open Text

namespace Loop

/-! ### Headers -/

/-- What a loop variable can be called. -/
def IsVariable (x : Text) : Prop := x ≠ [] ∧ ∀ c ∈ x, isVariableChar c = true

instance (x : Text) : Decidable (IsVariable x) :=
  decidable_of_iff (x ≠ [] ∧ x.all isVariableChar = true) (by simp [IsVariable])

/-- A text that can be read as a bound: no blanks, no braces, no semicolon. -/
def IsSolid (t : Text) : Prop := t ≠ [] ∧ ∀ c ∈ t, isBlank c = false ∧ isBoundChar c = true

/-- The header of a loop, as it is written. -/
def headerOf (name lower upper : Text) : Text :=
  "@for $".toList ++ (name ++ (" from ".toList ++ (lower ++ (" to ".toList ++ (upper ++ [' '])))))

/-- The keyword as a list of characters, for rewriting. -/
theorem for_chars : "@for".toList = ['@', 'f', 'o', 'r'] := by decide +kernel

/-- The word before the lower bound as a list of characters. -/
theorem from_chars : "from".toList = ['f', 'r', 'o', 'm'] := by decide +kernel

/-- The word before the upper bound as a list of characters. -/
theorem to_chars : "to".toList = ['t', 'o'] := by decide +kernel

/-- The header as a list of characters, for rewriting. -/
theorem headerOf_eq (name lower upper : Text) :
    headerOf name lower upper
      = '@' :: 'f' :: 'o' :: 'r' :: ' ' :: '$' :: (name ++ ' ' :: 'f' :: 'r' :: 'o' :: 'm' :: ' ' ::
          (lower ++ ' ' :: 't' :: 'o' :: ' ' :: (upper ++ [' ']))) := by
  have hfor : "@for $".toList = ['@', 'f', 'o', 'r', ' ', '$'] := by decide +kernel
  have hfrom : " from ".toList = [' ', 'f', 'r', 'o', 'm', ' '] := by decide +kernel
  have hto : " to ".toList = [' ', 't', 'o', ' '] := by decide +kernel
  unfold headerOf
  rw [hfor, hfrom, hto]
  rfl

/-- A header begins with `@`. -/
theorem header_cons {c : Char} (hc : c ≠ '@') (r : Text) : header (c :: r) = none := by
  have hlow : c.toLower ≠ '@' := fun h => hc (toLower_eq_at h)
  have hvariable : takeVariable? (c :: r) = none := by
    rw [takeVariable?, for_chars]
    simp [afterLetters?, hlow]
  rw [header, hvariable]

/-- There is no header at the end of a text. -/
theorem header_nil : header [] = none := by
  have hvariable : takeVariable? [] = none := by
    rw [takeVariable?, for_chars]
    rfl
  rw [header, hvariable]

/-- The variable of a header is read up to the blank behind it. -/
theorem takeVariable?_append {name : Text} (hname : IsVariable name) (rest : Text) :
    takeVariable? ('@' :: 'f' :: 'o' :: 'r' :: ' ' :: '$' :: (name ++ ' ' :: rest))
      = some (name, ' ' :: rest) := by
  have hblank : isBlank '$' = false := by decide
  have hspace : isBlank ' ' = true := by decide
  have hend : isVariableChar ' ' = false := by decide
  have htake : (name ++ ' ' :: rest).takeWhile isVariableChar = name := by
    rw [List.takeWhile_append_of_pos hname.2]
    simp [hend]
  have hdrop : (name ++ ' ' :: rest).dropWhile isVariableChar = ' ' :: rest := by
    rw [List.dropWhile_append_of_pos hname.2]
    simp [hend]
  have hafter : ∀ r, afterLetters? ['@', 'f', 'o', 'r'] ('@' :: 'f' :: 'o' :: 'r' :: r) = some r :=
    fun _ => rfl
  rw [takeVariable?, for_chars, hafter]
  simp [hblank, hspace, htake, hdrop, hname.1]

/-- An upper bound takes all up to the brace, the blank in front of it
included. -/
theorem upper?_append {upper : Text} (hupper : IsSolid upper) (rest : Text) :
    upper? (' ' :: 't' :: 'o' :: ' ' :: (upper ++ ' ' :: '{' :: rest))
      = some (upper ++ [' '], upper.length + 5) := by
  have ht : isBlank 't' = false := by decide
  have hspace : isBlank ' ' = true := by decide
  have hbrace : isBoundChar '{' = false := by decide
  have hspace' : isBoundChar ' ' = true := by decide
  have htake : (upper ++ ' ' :: '{' :: rest).takeWhile isBoundChar = upper ++ [' '] := by
    rw [List.takeWhile_append_of_pos fun c hc => (hupper.2 c hc).2]
    simp [hbrace, hspace']
  have hafter : ∀ r, afterLetters? ['t', 'o'] ('t' :: 'o' :: r) = some r := fun _ => rfl
  obtain ⟨c, r, rfl⟩ := List.exists_cons_of_ne_nil hupper.1
  have hc := (hupper.2 c List.mem_cons_self).1
  rw [List.cons_append] at htake ⊢
  rw [upper?, to_chars]
  simp [hspace, ht, hafter, hc, htake]
  omega

/-- Inside a lower bound no upper bound begins. -/
theorem upper?_cons {c : Char} (hc : isBlank c = false) (r : Text) : upper? (c :: r) = none := by
  rw [upper?]
  split
  · rfl
  · simp [hc]

/-- Both bounds are read. The lower one is found by trying every length, and it
ends where the first upper bound can be read: a solid bound has no blank in it,
so that is behind all of it. -/
theorem bounds?_append {lower upper : Text} (hlower : IsSolid lower) (hupper : IsSolid upper)
    (rest : Text) :
    bounds? (lower ++ ' ' :: 't' :: 'o' :: ' ' :: (upper ++ ' ' :: '{' :: rest))
      = some (lower, upper ++ [' '], lower.length + upper.length + 5) := by
  obtain ⟨hne, hall⟩ := hlower
  induction lower with
  | nil => exact absurd rfl hne
  | cons c lower ih =>
      obtain ⟨hc, hrest⟩ := List.forall_mem_cons.mp hall
      have hline : c ≠ '\n' := by
        rintro rfl
        exact absurd hc.1 (by decide)
      rw [List.cons_append, bounds?, if_neg hline]
      -- The shortest lower bound is taken. An upper bound begins with a blank, so no shorter one fits.
      cases lower with
      | nil =>
          rw [List.nil_append, upper?_append hupper]
          simp
          omega
      | cons d lower =>
          have hd := (hrest d List.mem_cons_self).1
          have hupper? : upper? (d :: lower ++ ' ' :: 't' :: 'o' :: ' ' :: (upper ++ ' ' :: '{' :: rest))
              = none := upper?_cons hd _
          rw [hupper?, ih (by simp) hrest]
          simp
          omega

/-- The header of a loop is found where it is written, with its three groups.
The brace must follow, since the upper bound is read up to it. -/
theorem header_headerOf {name lower upper : Text} (hname : IsVariable name)
    (hlower : IsSolid lower) (hupper : IsSolid upper) (rest : Text) :
    header (headerOf name lower upper ++ '{' :: rest)
      = some ⟨(headerOf name lower upper).length, [some name, some lower, some (upper ++ [' '])]⟩ := by
  have hspace : isBlank ' ' = true := by decide
  have hf : isBlank 'f' = false := by decide
  have hfrom : ∀ r, afterLetters? ['f', 'r', 'o', 'm'] ('f' :: 'r' :: 'o' :: 'm' :: r) = some r :=
    fun _ => rfl
  have hbounds := bounds?_append hlower hupper rest
  obtain ⟨c, r, rfl⟩ := List.exists_cons_of_ne_nil hlower.1
  have hc := (hlower.2 c List.mem_cons_self).1
  rw [headerOf_eq]
  simp only [List.cons_append, List.append_assoc, List.nil_append] at hbounds ⊢
  rw [header, takeVariable?_append hname, from_chars]
  simp [hspace, hf, hfrom, pastBlanks?, hc, hbounds]
  omega

/-! ### Bounds -/

/-- The variables of the loops around a place with their values, innermost
first. -/
abbrev Env := List (Text × Int)

/-- The values belong to the loops around a place, and are numbers of 64
bits. -/
structure Env.Fits (enclosing : List Text) (env : Env) : Prop where
  names : env.map Prod.fst = enclosing
  isInt64 : ∀ p ∈ env, Decimal.IsInt64 p.2

/-- A loop is entered with a value that is a number of 64 bits. -/
theorem Env.Fits.cons {enclosing : List Text} {env : Env} (h : env.Fits enclosing) (name : Text)
    {i : Int} (hi : Decimal.IsInt64 i) : Env.Fits (name :: enclosing) ((name, i) :: env) :=
  ⟨by simp [h.names], List.forall_mem_cons.mpr ⟨hi, h.isInt64⟩⟩

/-- The variable of a loop around has a value. -/
theorem Env.Fits.exists_lookup {enclosing : List Text} {env : Env} (h : env.Fits enclosing)
    {name : Text} (hname : name ∈ enclosing) :
    ∃ i, env.lookup name = some i ∧ Decimal.IsInt64 i := by
  rw [← h.names] at hname
  obtain ⟨p, hp, rfl⟩ := List.mem_map.mp hname
  cases hlookup : env.lookup p.1 with
  | none =>
      rw [List.lookup_eq_none_iff] at hlookup
      simpa using hlookup p hp
  | some i =>
      obtain ⟨before, after, henv, -⟩ := List.lookup_eq_some_iff.mp hlookup
      exact ⟨i, rfl, h.isInt64 (p.1, i) (by simp [henv])⟩

/-- A bound of a loop: a number, or the variable of a loop around it. -/
inductive Bound where
  | number (sign digits : Text)
  | outer (name : Text)

namespace Bound

/-- The bound as it is written. -/
def write : Bound → Text
  | number sign digits => sign ++ digits
  | outer name => '$' :: name

/-- The value of a bound. -/
def value (env : Env) : Bound → Int
  | number sign digits => Decimal.ofSigned sign digits
  | outer name => (env.lookup name).getD 0

/-- A number has 64 bits, and a variable belongs to a loop around. -/
def WellFormed (enclosing : List Text) : Bound → Prop
  | number sign digits => Decimal.IsLiteral sign digits
  | outer name => IsName name ∧ name ∈ enclosing

instance (enclosing : List Text) : (b : Bound) → Decidable (b.WellFormed enclosing)
  | number sign digits => inferInstanceAs (Decidable (Decimal.IsLiteral sign digits))
  | outer name => inferInstanceAs (Decidable (IsName name ∧ name ∈ enclosing))

variable {enclosing : List Text} {b : Bound}

/-- The characters of bounds. -/
def isWritten (c : Char) : Bool := isNameChar c || c == '$' || c == '+'

/-- A bound has no other characters than those of numbers and variables. -/
theorem isWritten_of_mem_write (hb : b.WellFormed enclosing) {c : Char} (hc : c ∈ b.write) :
    isWritten c = true := by
  cases b with
  | number sign digits =>
      rcases hb.isNameChar_or hc with hname | rfl
      · simp [isWritten, hname]
      · decide
  | outer name =>
      rcases List.mem_cons.mp hc with rfl | hc
      · decide
      · simp [isWritten, hb.1.2 c hc]

/-- A bound can be read as one: it has no blanks, braces and semicolons. -/
theorem isSolid_write (hb : b.WellFormed enclosing) : IsSolid b.write := by
  refine ⟨?_, ?_⟩
  · cases b with
    | number sign digits => simp [write, hb.ne_nil]
    | outer name => simp [write]
  · intro c hc
    have hwritten := isWritten_of_mem_write hb hc
    refine ⟨?_, ?_⟩
    · simp only [isWritten, Bool.or_eq_true, beq_iff_eq] at hwritten
      rcases hwritten with (hname | rfl) | rfl
      · exact isBlank_of_isNameChar hname
      · decide
      · decide
    · simp only [isBoundChar, Bool.and_eq_true, bne_iff_ne, ne_eq]
      refine ⟨⟨?_, ?_⟩, ?_⟩ <;> rintro rfl <;> exact absurd hwritten (by decide)

/-- The value of a bound is a number of 64 bits, be it written out or that of a
variable. -/
theorem isInt64_value (hb : b.WellFormed enclosing) {env : Env} (henv : env.Fits enclosing) :
    Decimal.IsInt64 (b.value env) := by
  cases b with
  | number sign digits => exact hb.isInt64
  | outer name =>
      obtain ⟨i, hlookup, hi⟩ := henv.exists_lookup hb.2
      simpa [value, hlookup] using hi

end Bound

/-! ### Templates -/

/-- A text made of pieces, placeholders in braces and loops, which hold
templates again. -/
inductive Template where
  | done
  | text (t : Text) (rest : Template)
  | hole (name : Text) (rest : Template)
  | loop (name : Text) (lower upper : Bound) (body rest : Template)

/-- What a name stands for inside loops: the value of a variable, or what
the table has. -/
def valueOf (table : Table Text) (env : Env) (name : Text) : Text :=
  match env.lookup name with
  | some i => Decimal.ofInt i
  | none => (table.get? name).getD []

namespace Template

/-- The template as it is written. -/
def write : Template → Text
  | done => []
  | text t rest => t ++ rest.write
  | hole name rest => '{' :: '$' :: (name ++ '}' :: rest.write)
  | loop name lower upper body rest =>
    headerOf name lower.write upper.write ++ '{' :: (body.write ++ '}' :: rest.write)

/-- Pieces of text have no `@`, no `$`, no quotes and no slashes, and bodies
are balanced. A loop variable is neither in the table nor a variable of a
loop around. A placeholder inside a loop refers to the table or to a loop
around it; outside of loops it may refer to anything. -/
def WellFormed (table : Table Text) (enclosing : List Text) : Template → Prop
  | done => True
  | text t rest => FreeOf ('@' :: '$' :: literalMarks) t ∧ rest.WellFormed table enclosing
  | hole name rest =>
    IsName name ∧ (enclosing ≠ [] → name ∈ enclosing ∨ table.contains name = true)
      ∧ rest.WellFormed table enclosing
  | loop name lower upper body rest =>
    (IsVariable name ∧ name ∉ enclosing ∧ table.contains name = false)
      ∧ lower.WellFormed enclosing ∧ upper.WellFormed enclosing
      ∧ Balanced body.write ∧ body.WellFormed table (name :: enclosing)
      ∧ rest.WellFormed table enclosing

instance decidableWellFormed (table : Table Text) (enclosing : List Text) :
    (T : Template) → Decidable (T.WellFormed table enclosing)
  | done => inferInstanceAs (Decidable True)
  | text t rest =>
    have := decidableWellFormed table enclosing rest
    inferInstanceAs (Decidable (FreeOf ('@' :: '$' :: literalMarks) t ∧ _))
  | hole name rest =>
    have := decidableWellFormed table enclosing rest
    inferInstanceAs (Decidable (IsName name ∧
      (enclosing ≠ [] → name ∈ enclosing ∨ table.contains name = true) ∧ _))
  | loop name lower upper body rest =>
    have := decidableWellFormed table (name :: enclosing) body
    have := decidableWellFormed table enclosing rest
    inferInstanceAs (Decidable
      ((IsVariable name ∧ name ∉ enclosing ∧ table.contains name = false) ∧
        lower.WellFormed enclosing ∧ upper.WellFormed enclosing ∧ Balanced body.write ∧ _ ∧ _))

/-- The template with values for its placeholders, and with each loop
replaced by its body for every value of the variable in turn. -/
def filled (table : Table Text) (env : Env) : Template → Text
  | done => []
  | text t rest => t ++ rest.filled table env
  | hole name rest => valueOf table env name ++ rest.filled table env
  | loop name lower upper body rest =>
    (Int.range (lower.value env) (upper.value env + 1)).flatMap
        (fun i => body.filled table ((name, i) :: env))
      ++ rest.filled table env

/-- The same, where the placeholders that are not in a loop of the template
are left as they are. -/
def expanded (table : Table Text) (env : Env) : Template → Text
  | done => []
  | text t rest => t ++ rest.expanded table env
  | hole name rest => '{' :: '$' :: (name ++ '}' :: rest.expanded table env)
  | loop name lower upper body rest =>
    (Int.range (lower.value env) (upper.value env + 1)).flatMap
        (fun i => body.filled table ((name, i) :: env))
      ++ rest.expanded table env

/-- The rounds of all loops in the order in which they take place, each
given by the variable and its value. -/
def rounds (env : Env) : Template → List (Text × Int)
  | done => []
  | text _ rest => rest.rounds env
  | hole _ rest => rest.rounds env
  | loop name lower upper body rest =>
    (Int.range (lower.value env) (upper.value env + 1)).flatMap
        (fun i => (name, i) :: body.rounds ((name, i) :: env))
      ++ rest.rounds env

variable {table : Table Text} {enclosing : List Text} {T : Template}

/-- Nothing in a well formed template begins a literal. -/
theorem WellFormed.freeOf (hT : T.WellFormed table enclosing) : FreeOf literalMarks T.write := by
  induction T generalizing enclosing with
  | done => exact freeOf_nil _
  | text t rest ih =>
      exact freeOf_append.mpr ⟨hT.1.mono fun c hc => by simp [hc], ih hT.2⟩
  | hole name rest ih =>
      have hname : FreeOf literalMarks name := freeOf_of_forall (by decide) hT.1.2
      simp only [write, freeOf_cons, freeOf_append]
      exact ⟨by decide, by decide, hname, by decide, ih hT.2.2⟩
  | loop name lower upper body rest ihbody ihrest =>
      obtain ⟨⟨hname, -⟩, hlower, hupper, -, hbody, hrest⟩ := hT
      have hname' : FreeOf literalMarks name := freeOf_of_forall (by decide) hname.2
      have hbound : ∀ {b : Bound}, b.WellFormed enclosing → FreeOf literalMarks b.write :=
        fun hb => freeOf_of_forall (by decide) fun c hc => Bound.isWritten_of_mem_write hb hc
      have hheader : FreeOf literalMarks (headerOf name lower.write upper.write) := by
        rw [headerOf_eq]
        simp only [freeOf_cons, freeOf_append, freeOf_nil, hname', hbound hlower, hbound hupper,
          and_true, true_and]
        decide
      simp only [write, freeOf_append, freeOf_cons]
      exact ⟨hheader, by decide, ihbody hbody, by decide, ihrest hrest⟩

/-- Loops only set variables that nothing outside of them refers to. -/
theorem WellFormed.fresh_rounds (hT : T.WellFormed table enclosing) (env : Env) :
    ∀ p ∈ T.rounds env, p.1 ∉ enclosing ∧ table.contains p.1 = false := by
  induction T generalizing enclosing env with
  | done => simp [Template.rounds]
  | text t rest ih => exact ih hT.2 env
  | hole name rest ih => exact ih hT.2.2 env
  | loop name lower upper body rest ihbody ihrest =>
      obtain ⟨⟨-, hname, htable⟩, -, -, -, hbody, hrest⟩ := hT
      intro p hp
      rcases List.mem_append.mp hp with hp | hp
      · obtain ⟨i, -, hp⟩ := List.mem_flatMap.mp hp
        rcases List.mem_cons.mp hp with rfl | hp
        · exact ⟨hname, htable⟩
        · have hfresh := ihbody hbody ((name, i) :: env) p hp
          exact ⟨fun hmem => hfresh.1 (List.mem_cons_of_mem _ hmem), hfresh.2⟩
      · exact ihrest hrest env p hp

end Template

/-! ### Tables while loops run -/

/-- A table that has the values of the variables around, and otherwise all
that another table has. -/
def Agrees (table : Table Text) (env : Env) (constants : Table Text) : Prop :=
  ∀ name, name ∈ env.map Prod.fst ∨ table.contains name = true →
    constants.get? name = some (valueOf table env name)

namespace Agrees

variable {table constants : Table Text} {env : Env}

/-- Outside of loops every table agrees with itself. -/
theorem refl (table : Table Text) : Agrees table [] table := by
  intro name hname
  have hcontains : table.contains name = true := by simpa using hname
  obtain ⟨v, hv⟩ := Option.isSome_iff_exists.mp hcontains
  simp [valueOf, hv]

/-- All names that a placeholder in a loop may refer to have values. -/
theorem contains (h : Agrees table env constants) {name : Text}
    (hname : name ∈ env.map Prod.fst ∨ table.contains name = true) :
    constants.contains name = true := by
  simp [Table.contains, h name hname]

/-- A round begins. -/
theorem set (h : Agrees table env constants) (name : Text) (i : Int) :
    Agrees table ((name, i) :: env) (constants.set name (Decimal.ofInt i)) := by
  intro x hx
  rw [Table.get?_set]
  by_cases hname : x = name
  · simp [hname, valueOf]
  · have hbeq : (x == name) = false := by simpa using hname
    have hx' : x ∈ env.map Prod.fst ∨ table.contains x = true := by simpa [hname] using hx
    rw [if_neg hname, h x hx', valueOf, valueOf, List.lookup_cons, hbeq]

/-- Other names may be set. -/
theorem extend (h : Agrees table env constants) {pairs : List (Text × Text)}
    (hpairs : ∀ p ∈ pairs, p.1 ∉ env.map Prod.fst ∧ table.contains p.1 = false) :
    Agrees table env (constants.extend pairs) := by
  intro name hname
  have hnone : pairs.reverse.lookup name = none := by
    rw [List.lookup_eq_none_iff]
    intro p hp
    have hfresh := hpairs p (List.mem_reverse.mp hp)
    rw [bne_iff_ne]
    rintro rfl
    rcases hname with hname | hname
    · exact hfresh.1 hname
    · simp [hfresh.2] at hname
  rw [Table.get?_extend, hnone, Option.none_or, h name hname]

end Agrees

/-! ### Filling the placeholders of a body -/

namespace Template

variable {table : Table Text} {enclosing : List Text} {T : Template}

/-- Values have no `$` in them, so filling a placeholder makes no new one.
Numbers have none; for the table it is assumed. -/
theorem not_mem_valueOf (htable : ∀ x v, table.get? x = some v → '$' ∉ v) (env : Env)
    (name : Text) : '$' ∉ valueOf table env name := by
  rw [valueOf]
  split
  · intro hmem
    exact absurd (Decimal.isNameChar_of_mem_ofInt hmem) (by decide)
  · cases h : table.get? name with
    | none => simp
    | some v => exact htable name v h

/-- Where all placeholders are filled, no `$` is left. -/
theorem WellFormed.not_mem_filled (htable : ∀ x v, table.get? x = some v → '$' ∉ v)
    (hT : T.WellFormed table enclosing) (env : Env) : '$' ∉ T.filled table env := by
  induction T generalizing enclosing env with
  | done => simp [filled]
  | text t rest ih =>
      have ht : '$' ∉ t := fun hmem => hT.1 _ hmem (by simp)
      simp [filled, ht, ih hT.2 env]
  | hole name rest ih =>
      simp [filled, not_mem_valueOf htable env name, ih hT.2.2 env]
  | loop name lower upper body rest ihbody ihrest =>
      obtain ⟨-, -, -, -, hbody, hrest⟩ := hT
      simp only [filled, List.mem_append, List.mem_flatMap, not_or, not_exists, not_and]
      exact ⟨fun i _ => ihbody hbody _, ihrest hrest env⟩

/-- The rounds of a loop. -/
theorem WellFormed.not_mem_loop (htable : ∀ x v, table.get? x = some v → '$' ∉ v)
    (hT : T.WellFormed table enclosing) (name : Text) (env : Env) (values : List Int) :
    '$' ∉ values.flatMap fun i => T.filled table ((name, i) :: env) := by
  simp only [List.mem_flatMap, not_exists, not_and]
  exact fun i _ => hT.not_mem_filled htable _

/-- No name of the short form begins where something is left to fill. -/
theorem WellFormed.head?_expanded (htable : ∀ x v, table.get? x = some v → '$' ∉ v)
    (hT : T.WellFormed table enclosing) (env : Env) :
    (T.expanded table env).head? ≠ some '$' := by
  induction T with
  | done => simp [expanded]
  | text t rest ih =>
      exact Placeholder.head?_append_ne (fun hmem => hT.1 _ hmem (by simp)) (ih hT.2)
  | hole name rest ih => simp [expanded]
  | loop name lower upper body rest _ ih =>
      obtain ⟨-, -, -, -, hbody, hrest⟩ := hT
      exact Placeholder.head?_append_ne (hbody.not_mem_loop htable name env _) (ih hrest)

/-- The placeholders that are left in an expanded body all have values, and
these fill it. -/
theorem WellFormed.cut_expanded (htable : ∀ x v, table.get? x = some v → '$' ∉ v)
    (hT : T.WellFormed table enclosing) (hne : enclosing ≠ []) {env : Env}
    (henv : env.Fits enclosing) {constants : Table Text} (h : Agrees table env constants) :
    (∀ name ∈ (Placeholder.cut (T.expanded table env)).items, constants.contains name = true)
    ∧ (Placeholder.cut (T.expanded table env)).fill (fun name => (constants.get? name).getD [])
      = T.filled table env := by
  induction T with
  | done => simp [expanded, filled, Placeholder.cut]
  | text t rest ih =>
      have ht : '$' ∉ t := fun hmem => hT.1 _ hmem (by simp)
      obtain ⟨hitems, hfill⟩ := ih hT.2
      rw [expanded, Placeholder.cut_text ht (hT.2.head?_expanded htable env)]
      refine ⟨by simpa using hitems, ?_⟩
      rw [Cut.fill_prepend, hfill, filled]
  | hole name rest ih =>
      obtain ⟨hname, hscope, hrest⟩ := hT
      obtain ⟨hitems, hfill⟩ := ih hrest
      have hvalue : name ∈ env.map Prod.fst ∨ table.contains name = true :=
        henv.names.symm ▸ hscope hne
      rw [expanded, Placeholder.cut_hole hname]
      refine ⟨by simpa [h.contains hvalue] using hitems, ?_⟩
      rw [Cut.fill_item, hfill, h name hvalue, filled]
      rfl
  | loop name lower upper body rest _ ih =>
      obtain ⟨-, -, -, -, hbody, hrest⟩ := hT
      obtain ⟨hitems, hfill⟩ := ih hrest
      -- What an inner loop has made is text without `$` by now.
      rw [expanded, Placeholder.cut_text (hbody.not_mem_loop htable name env _)
        (hrest.head?_expanded htable env)]
      refine ⟨by simpa using hitems, ?_⟩
      rw [Cut.fill_prepend, hfill, filled]

end Template

/-! ### Runs -/

/-- The state behind some rounds. -/
def after (s : State) (rounds : List (Text × Int)) : State :=
  { s with constants := s.constants.extend (rounds.map fun p => (p.1, Decimal.ofInt p.2)) }

/-- The state behind rounds, and behind more of them. -/
theorem after_append (s : State) (rounds more : List (Text × Int)) :
    after s (rounds ++ more) = after (after s rounds) more := by
  simp [after, Table.extend_append]

variable {table : Table Text} {enclosing : List Text} {env : Env} {s : State}

/-- The values of the variables around stay while rounds of other loops take
place. -/
theorem Agrees.after (h : Agrees table env s.constants) (henv : env.Fits enclosing)
    {rounds : List (Text × Int)}
    (hfresh : ∀ p ∈ rounds, p.1 ∉ enclosing ∧ table.contains p.1 = false) :
    Agrees table env (Loop.after s rounds).constants := by
  refine h.extend ?_
  rw [henv.names]
  intro p hp
  obtain ⟨q, hq, rfl⟩ := List.mem_map.mp hp
  exact hfresh q hq

/-- What is read as a bound, once its placeholders are filled. -/
theorem run_bound_of {raw t v : Text} {i : Int} (htrim : trim raw = t)
    (hitems : ∀ name ∈ (Placeholder.cut t).items, s.constants.contains name = true)
    (hfill : (Placeholder.cut t).fill (fun name => (s.constants.get? name).getD []) = v)
    (hblank : ∀ c ∈ v, isBlank c = false) (hread : Decimal.readInt64? v = some i)
    (which : String) (job : Job) : (bound which raw).run job s = .ok i s := by
  have htrim' : trim v = v := trim_eq_self (.of_forall hblank)
  rw [bound, htrim, run_bind_ok (Compile.run_interpolate hitems job), hfill]
  simp only [htrim', hread]
  rfl

/-- A bound gives its value. It is read from a text that is trimmed first, so
it may have blanks around it. -/
theorem run_bound {b : Bound} (hb : b.WellFormed enclosing) (henv : env.Fits enclosing)
    (h : Agrees table env s.constants) {raw : Text} (hraw : trim raw = b.write) (which : String)
    (job : Job) : (bound which raw).run job s = .ok (b.value env) s := by
  cases b with
  | number sign digits =>
      -- A number has no placeholder in it and is read as it is written.
      have hfree : '$' ∉ sign ++ digits := by
        intro hmem
        exact absurd (hb.isNameChar_or hmem) (by decide)
      have hcut : Placeholder.cut (sign ++ digits) = .whole (sign ++ digits) := by
        have hcut := Placeholder.cut_text hfree (show ([] : Text).head? ≠ some '$' by simp)
        rw [List.append_nil] at hcut
        rw [hcut, Placeholder.cut]
        simp [Cut.whole, Cut.prepend]
      refine run_bound_of hraw ?_ ?_ (fun c hc => ((Bound.isSolid_write hb).2 c hc).1)
        (Decimal.readInt64?_literal hb) which job
      · simp [Bound.write, hcut]
      · rw [Bound.write, hcut, Cut.fill_whole]
  | outer name =>
      -- A variable is filled with the number of its round, which is written and read again.
      obtain ⟨i, hlookup, hi⟩ := henv.exists_lookup hb.2
      have hname : name ∈ env.map Prod.fst ∨ table.contains name = true :=
        .inl (henv.names.symm ▸ hb.2)
      have hget : s.constants.get? name = some (Decimal.ofInt i) := by
        rw [h name hname, valueOf, hlookup]
      have hvalue : (Bound.outer name).value env = i := by simp [Bound.value, hlookup]
      rw [hvalue]
      refine run_bound_of hraw ?_ ?_
        (fun c hc => isBlank_of_isNameChar (Decimal.isNameChar_of_mem_ofInt hc))
        (Decimal.readInt64?_ofInt hi) which job
      · simpa [Bound.write, Placeholder.cut_name hb.1] using h.contains hname
      · simp [Bound.write, Placeholder.cut_name hb.1, hget]

/-- What an action does with the values of the loops around it: it gives a
text, and leaves behind some rounds. -/
def Runs (table : Table Text) (enclosing : List Text) (x : Compile Text) (t : Env → Text)
    (rounds : Env → List (Text × Int)) : Prop :=
  ∀ (env : Env) (job : Job) (s : State), env.Fits enclosing → Agrees table env s.constants →
    x.run job s = .ok (t env) (after s (rounds env))

/-- The values from the first one on. -/
theorem map_range_succ (first : Int) (count : Nat) :
    (List.range (count + 1)).map (fun k : Nat => first + k)
      = first :: (List.range count).map fun k : Nat => first + 1 + k := by
  rw [List.range_succ_eq_map, List.map_cons, List.map_map]
  refine congrArg₂ _ (by simp) (List.map_congr_left fun k _ => ?_)
  simp only [Function.comp_apply]
  omega

/-- The rounds of one loop. The induction is on how many there are, from
any first value on. -/
theorem run_rounds (htable : ∀ x v, table.get? x = some v → '$' ∉ v) {body : Template}
    {name : Text} (hbody : body.WellFormed table (name :: enclosing))
    (hname : name ∉ enclosing ∧ table.contains name = false) {x : Compile Text}
    (hx : Runs table (name :: enclosing) x (body.expanded table) body.rounds)
    (henv : env.Fits enclosing) (job : Job) (count : Nat) (first : Int)
    (hvalues : ∀ k < count, Decimal.IsInt64 (first + k)) (h : Agrees table env s.constants) :
    (rounds name x count first).run job s
      = .ok (((List.range count).map fun k : Nat => first + k).flatMap
          fun i => body.filled table ((name, i) :: env))
        (after s (((List.range count).map fun k : Nat => first + k).flatMap
          fun i => (name, i) :: body.rounds ((name, i) :: env))) := by
  induction count generalizing first s with
  | zero => rfl
  | succ count ih =>
      have hfirst : Decimal.IsInt64 first := by simpa using hvalues 0 (by omega)
      have hvalues' : ∀ k < count, Decimal.IsInt64 (first + 1 + k) := by
        intro k hk
        have hnext := hvalues (k + 1) (by omega)
        rwa [show first + ((k + 1 : Nat) : Int) = first + 1 + k by omega] at hnext
      have henv' := henv.cons name hfirst
      have hset : Agrees table ((name, first) :: env)
          (after s [(name, first)]).constants := h.set name first
      have hrun := hx _ job _ henv' hset
      -- The body is filled behind its own loops, which have not touched what it refers to.
      have hagrees : Agrees table ((name, first) :: env)
          (after (after s [(name, first)]) (body.rounds ((name, first) :: env))).constants :=
        hset.after henv' (hbody.fresh_rounds _)
      obtain ⟨hitems, hfill⟩ := hbody.cut_expanded htable (by simp) henv' hagrees
      -- Nor has the round as a whole touched what the loops around refer to.
      have hround : ∀ p ∈ (name, first) :: body.rounds ((name, first) :: env),
          p.1 ∉ enclosing ∧ table.contains p.1 = false := by
        rintro p (_ | ⟨_, hp⟩)
        · exact hname
        · have hfresh := hbody.fresh_rounds _ p hp
          exact ⟨fun hmem => hfresh.1 (List.mem_cons_of_mem _ hmem), hfresh.2⟩
      have hstate : after (after s [(name, first)]) (body.rounds ((name, first) :: env))
          = after s ((name, first) :: body.rounds ((name, first) :: env)) :=
        (after_append s [(name, first)] _).symm
      have hsetRun : (Compile.setConstant name (toString first).toList).run job s
          = .ok () (after s [(name, first)]) := rfl
      have hnext := ih (first + 1) hvalues' (h.after henv hround)
      rw [map_range_succ, List.flatMap_cons, List.flatMap_cons, after_append]
      rw [rounds, run_bind_ok hsetRun, run_bind_ok hrun,
        run_bind_ok (Compile.run_interpolate hitems job), hfill, hstate, run_bind_ok hnext]
      rfl

/-- One loop, from its bounds on. -/
theorem run_expandBlock (htable : ∀ x v, table.get? x = some v → '$' ∉ v) {name : Text}
    {lower upper : Bound} {body rest : Template}
    (hloop : (Template.loop name lower upper body rest).WellFormed table enclosing)
    {x : Compile Text} (hx : Runs table (name :: enclosing) x (body.expanded table) body.rounds)
    {b : Block} (hgroups : b.groups = [some name, some lower.write, some (upper.write ++ [' '])])
    (henv : env.Fits enclosing) (job : Job) (h : Agrees table env s.constants) :
    (expandBlock b x).run job s
      = .ok ((Int.range (lower.value env) (upper.value env + 1)).flatMap
          fun i => body.filled table ((name, i) :: env))
        (after s ((Int.range (lower.value env) (upper.value env + 1)).flatMap
          fun i => (name, i) :: body.rounds ((name, i) :: env))) := by
  obtain ⟨⟨-, hname⟩, hlower, hupper, -, hbody, -⟩ := hloop
  have hends : ∀ {b : Bound}, b.WellFormed enclosing → HasEnds b.write :=
    fun hb => .of_forall fun c hc => ((Bound.isSolid_write hb).2 c hc).1
  have hfirst : trim (b.groupText 2) = lower.write := by
    simpa [Block.groupText, Block.group, hgroups] using trim_eq_self (hends hlower)
  -- The group of the upper bound has the blank in front of the brace.
  have hlast : trim (b.groupText 3) = upper.write := by
    have hblank : blank [' '] = true := by decide
    simpa [Block.groupText, Block.group, hgroups] using
      trim_gap (hends hupper) (show blank [] = true from rfl) hblank
  have hvariable : b.groupText 1 = name := by simp [Block.groupText, Block.group, hgroups]
  have hvalues : ∀ k < (upper.value env + 1 - lower.value env).toNat,
      Decimal.IsInt64 (lower.value env + k) := by
    intro k hk
    have hlow := Bound.isInt64_value hlower henv
    have hhigh := Bound.isInt64_value hupper henv
    simp only [Decimal.IsInt64] at hlow hhigh ⊢
    omega
  rw [expandBlock, run_bind_ok (run_bound hlower henv h hfirst "start" job),
    run_bind_ok (run_bound hupper henv h hlast "end" job), hvariable,
    run_rounds htable hbody hname hx henv job _ _ hvalues h]
  rfl

/-! ### All loops of a text -/

/-- The recursion with the proofs left out that make it terminate. -/
theorem expandLoops_of_cut {t : Text} {cut : Cut Block} (h : Block.cut search t = .ok cut) :
    expandLoops t = cut.fillM fun b => expandBlock b (expandLoops b.body) := by
  rw [expandLoops]
  split
  · simp_all
  · rename_i cut' h'
    obtain rfl : cut = cut' := by simpa [h] using h'
    exact Cut.fillM_attach (fun b => expandBlock b (expandLoops b.body)) cut

namespace Template

/-- The search finds the outermost loops of a template, and expanding these
expands the template. -/
theorem exists_cut (htable : ∀ x v, table.get? x = some v → '$' ∉ v) {T : Template}
    (hT : T.WellFormed table enclosing) (behind : Text) :
    ∃ cut, Block.cutFrom search [] behind T.write = .ok cut
      ∧ Runs table enclosing (cut.fillM fun b => expandBlock b (expandLoops b.body))
          (T.expanded table) T.rounds := by
  induction T generalizing enclosing behind with
  | done =>
      exact ⟨.whole [], Block.cutFrom_nil header_nil, fun _ job s _ _ =>
        Cut.run_fillM_whole _ _ job s⟩
  | text t rest ih =>
      obtain ⟨cut, hcut, hruns⟩ := ih hT.2 (t.reverse ++ behind)
      refine ⟨cut.prepend t, Block.cutFrom_text ?_ hcut, fun env job s henv h =>
        Cut.run_fillM_prepend t (hruns env job s henv h)⟩
      intro c hc r
      refine header_cons ?_ r
      rintro rfl
      exact hT.1 _ hc (by simp)
  | hole name rest ih =>
      obtain ⟨hname, -, hrest⟩ := hT
      obtain ⟨cut, hcut, hruns⟩ := ih hrest (('{' :: '$' :: (name ++ ['}'])).reverse ++ behind)
      have hwrite : (hole name rest).write = '{' :: '$' :: (name ++ ['}']) ++ rest.write := by
        simp [write]
      have hexpanded : ∀ env, (hole name rest).expanded table env
          = '{' :: '$' :: (name ++ ['}']) ++ rest.expanded table env := by
        simp [expanded]
      rw [hwrite]
      refine ⟨cut.prepend ('{' :: '$' :: (name ++ ['}'])), Block.cutFrom_text ?_ hcut, ?_⟩
      · intro c hc r
        refine header_cons ?_ r
        rintro rfl
        have hfree : FreeOf ['@'] name := freeOf_of_forall (by decide) hname.2
        have hmem : '@' ∈ name := by simpa using hc
        exact hfree _ hmem (by simp)
      · intro env job s henv h
        show _ = EStateM.Result.ok ((hole name rest).expanded table env) _
        rw [hexpanded]
        exact Cut.run_fillM_prepend _ (hruns env job s henv h)
  | loop name lower upper body rest ihbody ihrest =>
      have hloop := hT
      obtain ⟨⟨hname, -⟩, hlower, hupper, hbalanced, hbody, hrest⟩ := hT
      obtain ⟨cutBody, hcutBody, hrunsBody⟩ := ihbody hbody []
      obtain ⟨cut, hcut, hruns⟩ := ihrest hrest
        ((headerOf name lower.write upper.write ++ '{' :: (body.write ++ ['}'])).reverse ++ behind)
      have hpattern : search.pattern (headerOf name lower.write upper.write
            ++ '{' :: (body.write ++ '}' :: rest.write))
          = some ⟨_, [some name, some lower.write, some (upper.write ++ [' '])]⟩ :=
        header_headerOf hname (Bound.isSolid_write hlower) (Bound.isSolid_write hupper) _
      obtain ⟨b, hgroups, hbbody, hb⟩ :=
        Block.cutFrom_block rfl rfl hpattern hbalanced hbody.freeOf hrest.freeOf hcut
      have hbodyCut : Block.cut search body.write = .ok cutBody :=
        (Block.cut_of_freeOf hbody.freeOf).trans hcutBody
      rw [← expandLoops_of_cut hbodyCut, ← hbbody] at hrunsBody
      refine ⟨cut.item b, hb, ?_⟩
      intro env job s henv h
      -- What stands behind the loop starts from the table that the loop leaves.
      have hblock := run_expandBlock htable hloop hrunsBody hgroups henv job h
      show _ = EStateM.Result.ok _ (after s (_ ++ rest.rounds env))
      rw [after_append]
      refine Cut.run_fillM_item hblock (hruns env job _ henv (h.after henv ?_))
      exact fun p hp => hloop.fresh_rounds env p (List.mem_append_left _ hp)

end Template

/-- Looking up a value and writing it, or writing all of them and looking up. -/
theorem lookup_map_ofInt (rounds : List (Text × Int)) (name : Text) :
    (rounds.map fun p => (p.1, Decimal.ofInt p.2)).lookup name
      = (rounds.lookup name).map Decimal.ofInt := by
  induction rounds with
  | nil => rfl
  | cons p rounds ih =>
      obtain ⟨x, i⟩ := p
      rw [List.map_cons, List.lookup_cons, List.lookup_cons, ih]
      cases name == x <;> rfl

/-- Expanding the loops of a template leaves its text and placeholders
outside of loops as they are. In place of each loop stands its body for
every value of the variable in turn, with values for all placeholders. Of
the constants only loop variables have changed: each that was set has the
value of its last round. -/
theorem expandLoops_expanded {T : Template} {s : State} (hT : T.WellFormed s.constants [])
    (hvalues : ∀ entry ∈ s.constants.entries, '$' ∉ entry.2) (job : Job) :
    ∃ constants : Table Text,
      (expandLoops T.write).run job s
        = .ok (T.expanded s.constants []) { s with constants }
      ∧ ∀ name, constants.get? name
          = match (T.rounds []).reverse.lookup name with
            | some i => some (Decimal.ofInt i)
            | none => s.constants.get? name := by
  have htable : ∀ x v, s.constants.get? x = some v → '$' ∉ v := by
    intro x v hget
    obtain ⟨before, after, hentries, -⟩ := List.lookup_eq_some_iff.mp hget
    exact hvalues (x, v) (by simp [hentries])
  obtain ⟨cut, hcut, hruns⟩ := Template.exists_cut htable hT []
  have hcut' : Block.cut search T.write = .ok cut := (Block.cut_of_freeOf hT.freeOf).trans hcut
  rw [expandLoops_of_cut hcut', hruns [] job s ⟨rfl, by simp⟩ (.refl _)]
  refine ⟨_, rfl, ?_⟩
  intro name
  rw [Table.get?_extend, ← List.map_reverse, lookup_map_ofInt]
  cases (T.rounds []).reverse.lookup name <;> rfl

/-- Two loops in a third one, of which one is bounded by the variable around
it, and one does not run at all. -/
def staircase : Template :=
  .hole "later".toList (.loop "row".toList (.number "-".toList "1".toList) (.number [] "1".toList)
    (.text " .c".toList (.hole "row".toList (.text "\x7b".toList
      (.loop "col".toList (.number "+".toList "0".toList) (.outer "row".toList)
        (.hole "col".toList (.hole "unit".toList (.text ";".toList .done)))
        (.loop "none".toList (.number [] "2".toList) (.number [] "1".toList) .done
          (.text "\x7d".toList .done))))))
    .done)

/-- A document with one constant. -/
def units : State := { constants := .ofPairs [("unit".toList, "px".toList)] }

/-- The template is expanded, and each variable has the value of its last
round. The one whose loop does not run has none. -/
theorem expandLoops_staircase :
    staircase.WellFormed units.constants [] ∧ (∀ entry ∈ units.constants.entries, '$' ∉ entry.2)
    ∧ ∃ constants : Table Text,
      (expandLoops staircase.write).run ⟨⟨"grid.css".toList⟩, {}, .empty []⟩ units
        = .ok "\x7b$later\x7d .c-1\x7b\x7d .c0\x7b0px;\x7d .c1\x7b0px;1px;\x7d".toList
            { units with constants }
      ∧ constants.get? "row".toList = some "1".toList
      ∧ constants.get? "col".toList = some "1".toList
      ∧ constants.get? "none".toList = none
      ∧ constants.get? "unit".toList = some "px".toList := by
  have hwell : staircase.WellFormed units.constants [] := by decide +kernel
  have hvalues : ∀ entry ∈ units.constants.entries, '$' ∉ entry.2 := by decide +kernel
  obtain ⟨constants, hrun, hget⟩ :=
    expandLoops_expanded hwell hvalues ⟨⟨"grid.css".toList⟩, {}, .empty []⟩
  refine ⟨hwell, hvalues, constants, ?_, ?_, ?_, ?_, ?_⟩
  · rw [hrun]
    exact congrArg (EStateM.Result.ok · _) (by decide +kernel)
  · exact (hget "row".toList).trans (by decide +kernel)
  · exact (hget "col".toList).trans (by decide +kernel)
  · exact (hget "none".toList).trans (by decide +kernel)
  · exact (hget "unit".toList).trans (by decide +kernel)

end Loop

end Stylesheet
