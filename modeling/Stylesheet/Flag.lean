import Stylesheet.Block

/-!
# Flags

`@flag(a, b) { … }` keeps its body when one of its flags is active and
vanishes otherwise. Blocks inside a kept body are resolved in the next
round; every round makes the text shorter.
-/

set_option autoImplicit false

namespace Stylesheet

namespace Flag

/-- The header of a flag block. The group is the list of names. -/
def header : Pattern := fun t =>
  match Text.after? "@flag".toList t with
  | none => none
  | some r =>
    match r.dropWhile isBlank with
    | '(' :: s =>
      let names := s.takeWhile (· != ')')
      if names.length < s.length then
        some ⟨t.length - s.length + names.length + 1, [some names]⟩
      else none
    | _ => none

/-- The search for flag blocks. -/
def search : Block.Search := { pattern := header }

/-- Whether a list of names has an active one. -/
def anyActive (active : List Text) (names : Text) : Bool :=
  (Text.splitWhere (· == ',') names).any fun name => active.contains (Text.trim name)

/-- What a flag block stands for. -/
def choose (active : List Text) (b : Block) : Text :=
  if anyActive active (b.groupText 1) then b.body else []

/-- Choosing makes a block shorter, since its header is gone in any case. -/
theorem length_choose_lt {active : List Text} {b : Block} (h : b.body.length < b.full.length) :
    (choose active b).length < b.full.length := by
  unfold choose
  split
  · exact h
  · simp; omega

end Flag

/-- Resolves the flag blocks of a text. -/
def resolveFlags (active : List Text) (t : Text) : Except ScanError Text :=
  match _h : Block.cut Flag.search t with
  | .error e => .error e
  | .ok cut =>
    if cut.items = [] then .ok t
    else resolveFlags active (cut.fill (Flag.choose active))
termination_by t.length
decreasing_by
  rename_i hne
  have hfull := Block.fill_full_of_cut _h
  rw [← hfull]
  exact Cut.length_fill_lt
    (fun b hb => Flag.length_choose_lt (Block.length_body_lt_full_of_cutFrom _h b hb)) hne

end Stylesheet
