import Stylesheet.Text.Basic

/-!
# Cut texts

Most steps of the compiler find items in a text (blocks, invocations,
placeholders, directives) and put other text in their place. A `Cut` is
a text taken apart at such items: what stands before each item, the item
itself, and what stands behind the last one. Filling a cut puts the text
together again with something for each item, so no step has to count
positions to replace what it found.
-/

set_option autoImplicit false

namespace Stylesheet

/-- A text taken apart at some items. -/
structure Cut (α : Type) where
  /-- Each item with the text between it and the item before it. -/
  parts : List (Text × α)
  /-- The text behind the last item. -/
  rest : Text
  deriving Repr

namespace Cut

variable {α : Type}

/-- A text with no items. -/
def whole (t : Text) : Cut α := ⟨[], t⟩

/-- Puts text in front of a cut text. -/
def prepend (t : Text) : Cut α → Cut α
  | ⟨[], rest⟩ => ⟨[], t ++ rest⟩
  | ⟨(gap, a) :: parts, rest⟩ => ⟨(t ++ gap, a) :: parts, rest⟩

/-- Puts an item in front of a cut text. -/
def item (a : α) (cut : Cut α) : Cut α := ⟨([], a) :: cut.parts, cut.rest⟩

/-- The items in order. -/
def items (cut : Cut α) : List α := cut.parts.map Prod.snd

/-- The text with each item replaced by what `f` says. -/
def fill (f : α → Text) (cut : Cut α) : Text :=
  cut.parts.flatMap (fun (gap, a) => gap ++ f a) ++ cut.rest

/-- The text without its items. -/
def gaps (cut : Cut α) : Text := (cut.parts.map Prod.fst).flatten ++ cut.rest

/-- The replacement of the parts, one after the other. -/
def fillParts {m : Type → Type} [Monad m] (f : α → m Text) (rest : Text) :
    List (Text × α) → m Text
  | [] => pure rest
  | (gap, a) :: parts => do
    let new ← f a
    let others ← fillParts f rest parts
    return gap ++ (new ++ others)

/-- As `fill`, where finding the new text for an item can have effects.
They take place in the order of the items. -/
def fillM {m : Type → Type} [Monad m] (f : α → m Text) (cut : Cut α) : m Text :=
  fillParts f cut.rest cut.parts

/-- Takes the text ahead of a place apart. `find?` sees the text before a
place, nearest character first, and the text ahead of it, and gives an
item with the number of characters that it takes, at least one. `skip`
characters still belong to the last item. -/
def scanFrom (find? : Text → Text → Option (α × Nat)) (behind : Text) : Nat → Text → Cut α
  | _, [] => whole []
  | skip + 1, c :: r => scanFrom find? (c :: behind) skip r
  | 0, c :: r =>
    match find? behind (c :: r) with
    | some (a, n) => (scanFrom find? (c :: behind) (n - 1) r).item a
    | none => (scanFrom find? (c :: behind) 0 r).prepend [c]

/-- Takes a text apart at the items that `find?` finds, from left to
right. -/
def scan (find? : Text → Text → Option (α × Nat)) (t : Text) : Cut α := scanFrom find? [] 0 t

/-- As `scanFrom`, where looking for an item can fail. -/
def tryScanFrom {ε : Type} (find? : Text → Text → Except ε (Option (α × Nat))) (behind : Text) :
    Nat → Text → Except ε (Cut α)
  | _, [] => .ok (whole [])
  | skip + 1, c :: r => tryScanFrom find? (c :: behind) skip r
  | 0, c :: r =>
    match find? behind (c :: r) with
    | .error e => .error e
    | .ok (some (a, n)) => (tryScanFrom find? (c :: behind) (n - 1) r).map (item a)
    | .ok none => (tryScanFrom find? (c :: behind) 0 r).map (prepend [c])

/-- As `scan`, where looking for an item can fail. The first failure
counts. -/
def tryScan {ε : Type} (find? : Text → Text → Except ε (Option (α × Nat))) (t : Text) :
    Except ε (Cut α) :=
  tryScanFrom find? [] 0 t

/-- A cut text whose items know that they are items of it. -/
def attach (cut : Cut α) : Cut { a // a ∈ cut.items } where
  parts := cut.parts.attach.map fun p => (p.1.1, ⟨p.1.2, List.mem_map_of_mem p.2⟩)
  rest := cut.rest

/-- A text without items stays as it is. -/
@[simp] theorem fill_whole (f : α → Text) (t : Text) : (whole t).fill f = t := by
  simp [whole, fill]

/-- Text in front is kept. -/
@[simp] theorem fill_prepend (f : α → Text) (t : Text) (cut : Cut α) :
    (cut.prepend t).fill f = t ++ cut.fill f := by
  obtain ⟨parts, rest⟩ := cut
  cases parts <;> simp [prepend, fill]

/-- The first item is replaced. -/
@[simp] theorem fill_item (f : α → Text) (a : α) (cut : Cut α) :
    (cut.item a).fill f = f a ++ cut.fill f := by
  simp [item, fill]

/-- A text without items has none. -/
@[simp] theorem items_whole (t : Text) : (whole t : Cut α).items = [] := rfl

/-- Text in front is no item. -/
@[simp] theorem items_prepend (t : Text) (cut : Cut α) : (cut.prepend t).items = cut.items := by
  obtain ⟨parts, rest⟩ := cut
  cases parts <;> simp [prepend, items]

/-- The first item and the others. -/
@[simp] theorem items_item (a : α) (cut : Cut α) : (cut.item a).items = a :: cut.items := rfl

/-- Skipping over a stretch is going on behind it. -/
theorem scanFrom_skip (find? : Text → Text → Option (α × Nat)) (behind taken rest : Text) :
    scanFrom find? behind taken.length (taken ++ rest)
      = scanFrom find? (taken.reverse ++ behind) 0 rest := by
  induction taken generalizing behind with
  | nil => rfl
  | cons c taken ih =>
    rw [List.length_cons, List.cons_append, scanFrom, ih, List.reverse_cons, List.append_assoc]
    rfl

/-- An item is no longer than the text it was cut from. -/
theorem length_le_fill (f : α → Text) (cut : Cut α) {a : α} (h : a ∈ cut.items) :
    (f a).length ≤ (cut.fill f).length := by
  obtain ⟨parts, rest⟩ := cut
  induction parts with
  | nil => simp [items] at h
  | cons p parts ih =>
    obtain ⟨gap, b⟩ := p
    simp only [items, List.map_cons, List.mem_cons] at h
    simp only [fill, List.flatMap_cons, List.length_append] at ih ⊢
    rcases h with rfl | h
    · omega
    · have := ih (by simpa [items] using h)
      omega

/-- Shorter text for the items makes a shorter text, if there is an
item at all. -/
theorem length_fill_lt {f g : α → Text} {cut : Cut α}
    (h : ∀ a ∈ cut.items, (f a).length < (g a).length) (hne : cut.items ≠ []) :
    (cut.fill f).length < (cut.fill g).length := by
  obtain ⟨parts, rest⟩ := cut
  induction parts with
  | nil => simp [items] at hne
  | cons p parts ih =>
    obtain ⟨gap, b⟩ := p
    have hb := h b (by simp [items])
    simp only [fill, List.flatMap_cons, List.length_append] at ih ⊢
    cases parts with
    | nil => simp; omega
    | cons q parts =>
      have := ih (fun a ha => h a (by simp [items] at ha ⊢; exact Or.inr ha)) (by simp [items])
      omega

/-- Changing the items first makes no difference for filling. -/
theorem fillParts_map {m : Type → Type} [Monad m] {β : Type} (f : α → m Text) (g : β → α)
    (rest : Text) (parts : List (Text × β)) :
    fillParts f rest (parts.map fun p => (p.1, g p.2)) = fillParts (fun b => f (g b)) rest parts := by
  induction parts with
  | nil => rfl
  | cons p parts ih => simp only [List.map_cons, fillParts, ih]

/-- Knowing that the items are items makes no difference for filling. -/
theorem fillM_attach {m : Type → Type} [Monad m] (f : α → m Text) (cut : Cut α) :
    (cut.attach.fillM fun a => f a.1) = cut.fillM f := by
  unfold fillM attach
  rw [← fillParts_map f (fun a : { a // a ∈ cut.items } => a.1)]
  simp only [List.map_map]
  congr 1
  exact List.attach_map_subtype_val cut.parts

end Cut

end Stylesheet
