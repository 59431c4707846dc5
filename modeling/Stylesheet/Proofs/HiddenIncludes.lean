import Stylesheet.Proofs.Inert
import Stylesheet.Proofs.IncludeClosure

/-!
# Directives that a literal hides

Directives in literals mean nothing, but `Include.cut` finds out that a text of
the form of a directive begins in a literal only when it has read it, and goes
on behind it. The literal may have ended in between: in `/* @include '*/ …`
the name goes on behind the comment, up to the next apostrophe, and a directive
that begins there is not looked at.

`outsideCut` looks for directives outside literals only and goes on one character later
everywhere else. `honoured_cut_eq_iff`: both find the same directives at the same places
just if no stretch that begins in a literal reaches over one of them (`Hides`).
`resolveIncludes_eq` ties the directives that are found to what is resolved.
-/

set_option autoImplicit false

namespace Stylesheet

open Text

/-! ### Scans -/

namespace Cut

variable {α : Type} {find? : Text → Text → Option (α × Nat)} {behind : Text}

/-- Nothing in front. -/
@[simp] theorem prepend_nil (c : Cut α) : c.prepend [] = c := by
  obtain ⟨parts, rest⟩ := c
  cases parts <;> rfl

/-- Two texts in front, one after the other. -/
@[simp] theorem prepend_prepend (u v : Text) (c : Cut α) :
    (c.prepend v).prepend u = c.prepend (u ++ v) := by
  obtain ⟨parts, rest⟩ := c
  cases parts <;> simp [prepend]

/-- What stands behind the same text can be told from the whole. -/
theorem prepend_inj {u : Text} {c c' : Cut α} : c.prepend u = c'.prepend u ↔ c = c' := by
  obtain ⟨parts, rest⟩ := c
  obtain ⟨parts', rest'⟩ := c'
  cases parts <;> cases parts' <;> simp [prepend, Prod.ext_iff, and_assoc]

/-- So can what stands behind the same item. With `item_ne_prepend` this
decides when two cuts are equal, from the front on. -/
theorem item_inj {a : α} {c c' : Cut α} : c.item a = c'.item a ↔ c = c' := by
  obtain ⟨parts, rest⟩ := c
  obtain ⟨parts', rest'⟩ := c'
  simp [item]

/-- An item at the front is not behind a character. -/
theorem item_ne_prepend (a : α) (c c' : Cut α) (d : Char) (u : Text) :
    c.item a ≠ c'.prepend (d :: u) := by
  obtain ⟨parts', rest'⟩ := c'
  cases parts' <;> simp [item, prepend]

section

variable {m : Type → Type} [Monad m] [LawfulMonad m] (f : α → m Text)

/-- Filling an item at the front, and then the others. -/
theorem fillM_item (a : α) (c : Cut α) :
    (c.item a).fillM f = f a >>= fun new => (new ++ ·) <$> c.fillM f := by
  simp [fillM, item, fillParts]

/-- Text in front is kept. -/
theorem fillM_prepend (u : Text) (c : Cut α) : (c.prepend u).fillM f = (u ++ ·) <$> c.fillM f := by
  obtain ⟨parts, rest⟩ := c
  cases parts with
  | nil => simp [fillM, prepend, fillParts]
  | cons part parts => simp [fillM, prepend, fillParts]

end

/-- Where nothing is found a character is passed. -/
theorem scanFrom_pass {c : Char} {r : Text} (h : find? behind (c :: r) = none) :
    scanFrom find? behind 0 (c :: r) = (scanFrom find? (c :: behind) 0 r).prepend [c] := by
  rw [scanFrom, h]

/-- Where something is found the scan goes on behind it. The stretch must not
be empty, because the scan goes over a character at least. -/
theorem scanFrom_take {taken rest : Text} {a : α} (hne : taken ≠ [])
    (h : find? behind (taken ++ rest) = some (a, taken.length)) :
    scanFrom find? behind 0 (taken ++ rest)
      = (scanFrom find? (taken.reverse ++ behind) 0 rest).item a := by
  obtain ⟨c, taken, rfl⟩ := List.exists_cons_of_ne_nil hne
  rw [List.cons_append, scanFrom, ← List.cons_append, h]
  dsimp only
  rw [List.length_cons, Nat.add_sub_cancel, scanFrom_skip]
  simp

/-- Where the item at a place stands. -/
def spanAt? (find? : Text → Text → Option (α × Nat)) (behind ahead : Text) : Option (Span × Nat) :=
  (find? behind ahead).map fun found =>
    (⟨size behind, size behind + size (ahead.take found.2)⟩, found.2)

/-- Where the items of a scan stand in the text. -/
def spans (find? : Text → Text → Option (α × Nat)) (t : Text) : List Span :=
  (scan (spanAt? find?) t).items

/-- The item at a place stands from there to where the scan goes on. -/
theorem spanAt?_take {taken rest : Text} {a : α}
    (h : find? behind (taken ++ rest) = some (a, taken.length)) :
    spanAt? find? behind (taken ++ rest)
      = some (⟨size behind, size (taken.reverse ++ behind)⟩, taken.length) := by
  rw [spanAt?, h, Option.map_some, List.take_left, size_append, size_reverse, Nat.add_comm]

/-- Where nothing is found nothing stands. -/
theorem spanAt?_pass {ahead : Text} (h : find? behind ahead = none) :
    spanAt? find? behind ahead = none := by
  rw [spanAt?, h]
  rfl

/-- No item stands before the place where the scan begins. -/
theorem le_start_of_mem_scanFrom {ahead : Text} {skip : Nat} {f : Span}
    (h : f ∈ (scanFrom (spanAt? find?) behind skip ahead).items) : size behind ≤ f.start := by
  induction ahead generalizing behind skip with
  | nil => cases h
  | cons c r ih =>
      -- The place only moves ahead.
      have hlater : ∀ {skip : Nat}, f ∈ (scanFrom (spanAt? find?) (c :: behind) skip r).items →
          size behind ≤ f.start := by
        intro skip hmem
        have hle := ih hmem
        rw [size_cons] at hle
        omega
      cases skip with
      | succ skip => exact hlater h
      | zero =>
          cases hfind : find? behind (c :: r) with
          | none =>
              rw [scanFrom_pass (spanAt?_pass hfind), items_prepend] at h
              exact hlater h
          | some found =>
              rw [scanFrom, spanAt?, hfind, Option.map_some] at h
              rcases List.mem_cons.mp h with rfl | h
              · exact Nat.le_refl _
              · exact hlater h

end Cut

namespace Include

/-! ### Directives -/

/-- What a directive takes of a text. -/
theorem exists_taken {ahead name : Text} {n : Nat} (h : take? ahead = some (name, n)) :
    ∃ taken rest, ahead = taken ++ rest ∧ n = taken.length ∧ taken ≠ [] := by
  have hpos := take?_pos h
  have hle : n ≤ ahead.length := by
    unfold take? at h
    split at h
    · cases h
    · split at h
      · cases h
      · split at h
        · cases h
        · simp only [Option.some.injEq, Prod.mk.injEq] at h
          omega
  have hlength : (ahead.take n).length = n := List.length_take_of_le hle
  refine ⟨ahead.take n, ahead.drop n, (List.take_append_drop n ahead).symm, hlength.symm, ?_⟩
  rw [← List.length_pos_iff, hlength]
  exact hpos

/-- The directive at a place, if the place is outside literals. -/
def outsideAt? (t behind ahead : Text) : Option (Text × Nat) :=
  if InLiteral t (size behind) then none else take? ahead

/-- A text taken apart at the directives that begin outside literals. -/
def outsideCut (t : Text) : Cut Text := Cut.scan (outsideAt? t) t

/-- What the search takes for directives, of some parts of a text: inert stretches
are text like what stands around them. -/
def honouredParts (rest : Text) : List (Text × Item) → Cut Text
  | [] => .whole rest
  | (gap, .directive name) :: parts => ((honouredParts rest parts).item name).prepend gap
  | (gap, .inert s) :: parts => (honouredParts rest parts).prepend (gap ++ s)

/-- A text taken apart at the directives that are resolved. -/
def honoured (c : Cut Item) : Cut Text := honouredParts c.rest c.parts

/-- A text without items. -/
@[simp] theorem honoured_whole (t : Text) : honoured (.whole t) = .whole t := rfl

/-- Text in front of the items is kept. -/
@[simp] theorem honoured_prepend (u : Text) (c : Cut Item) :
    honoured (c.prepend u) = (honoured c).prepend u := by
  obtain ⟨parts, rest⟩ := c
  cases parts with
  | nil => rfl
  | cons part parts =>
      obtain ⟨gap, item⟩ := part
      cases item with
      | directive name =>
          show ((honouredParts rest parts).item name).prepend (u ++ gap)
            = (((honouredParts rest parts).item name).prepend gap).prepend u
          rw [Cut.prepend_prepend]
      | inert s =>
          show (honouredParts rest parts).prepend (u ++ gap ++ s)
            = ((honouredParts rest parts).prepend (gap ++ s)).prepend u
          rw [Cut.prepend_prepend, List.append_assoc]

/-- A directive is an item of the result. -/
@[simp] theorem honoured_directive (name : Text) (c : Cut Item) :
    honoured (c.item (.directive name)) = (honoured c).item name := by
  simp [honoured, Cut.item, honouredParts]

/-- An inert stretch is text, and joins what stands behind it. -/
@[simp] theorem honoured_inert (s : Text) (c : Cut Item) :
    honoured (c.item (.inert s)) = (honoured c).prepend s := by
  simp [honoured, Cut.item, honouredParts]

/-! ### What is hidden -/

/-- A stretch that begins in a literal reaches over the beginning of another one. -/
def Covers (t : Text) (fs gs : List Span) : Prop :=
  ∃ f ∈ fs, InLiteral t f.start ∧ ∃ g ∈ gs, f.contains g.start = true

instance (t : Text) (fs gs : List Span) : Decidable (Covers t fs gs) :=
  inferInstanceAs (Decidable (∃ f ∈ fs, InLiteral t f.start ∧ ∃ g ∈ gs, f.contains g.start = true))

/-- The search takes a stretch that begins in a literal and in which a directive
begins that is outside literals. -/
def Hides (t : Text) : Prop :=
  Covers t (Cut.spans (at? (literalSpans t)) t) (Cut.spans (outsideAt? t) t)

instance (t : Text) : Decidable (Hides t) := inferInstanceAs (Decidable (Covers ..))

section

variable {t behind : Text} {f : Span} {fs gs : List Span}

/-- A stretch outside literals covers nothing, and nothing that comes later covers it. -/
theorem covers_cons_outside (hout : ¬ InLiteral t f.start) (hlater : ∀ f' ∈ fs, f.start < f'.start) :
    Covers t (f :: fs) (f :: gs) ↔ Covers t fs gs := by
  constructor
  · rintro ⟨f', hmem, hin, g, hg, hcontains⟩
    rcases List.mem_cons.mp hmem with rfl | hf'
    · exact absurd hin hout
    · rcases List.mem_cons.mp hg with rfl | hg
      · have hlt := hlater f' hf'
        simp only [Span.contains, Bool.and_eq_true, decide_eq_true_eq] at hcontains
        omega
      · exact ⟨f', hf', hin, g, hg, hcontains⟩
  · rintro ⟨f', hf', hin, g, hg, hcontains⟩
    exact ⟨f', List.mem_cons_of_mem _ hf', hin, g, List.mem_cons_of_mem _ hg, hcontains⟩

/-- A stretch does not cover what begins behind it. -/
theorem covers_cons_before (hlater : ∀ g ∈ gs, f.stop ≤ g.start) :
    Covers t (f :: fs) gs ↔ Covers t fs gs := by
  constructor
  · rintro ⟨f', hf', hin, g, hg, hcontains⟩
    rcases List.mem_cons.mp hf' with rfl | hf'
    · have hle := hlater g hg
      simp only [Span.contains, Bool.and_eq_true, decide_eq_true_eq] at hcontains
      omega
    · exact ⟨f', hf', hin, g, hg, hcontains⟩
  · rintro ⟨f', hf', hin, g, hg, hcontains⟩
    exact ⟨f', List.mem_cons_of_mem _ hf', hin, g, hg, hcontains⟩

end

/-- Over a stretch of a text, the search outside literals finds nothing, or what
it finds first begins in the stretch. -/
theorem scanFrom_outside_stretch (t behind taken rest : Text) :
    (Cut.scanFrom (outsideAt? t) behind 0 (taken ++ rest)
          = (Cut.scanFrom (outsideAt? t) (taken.reverse ++ behind) 0 rest).prepend taken
        ∧ (Cut.scanFrom (Cut.spanAt? (outsideAt? t)) behind 0 (taken ++ rest)).items
          = (Cut.scanFrom (Cut.spanAt? (outsideAt? t)) (taken.reverse ++ behind) 0 rest).items)
      ∨ ((∀ c : Cut Text, Cut.scanFrom (outsideAt? t) behind 0 (taken ++ rest) ≠ c.prepend taken)
        ∧ ∃ g ∈ (Cut.scanFrom (Cut.spanAt? (outsideAt? t)) behind 0 (taken ++ rest)).items,
          g.start < size behind + size taken) := by
  induction taken generalizing behind with
  | nil => exact .inl ⟨by simp, rfl⟩
  | cons c taken ih =>
      cases hfind : outsideAt? t behind (c :: (taken ++ rest)) with
      | some found =>
          -- The directive begins here.
          obtain ⟨name, n⟩ := found
          refine .inr ⟨fun cut => ?_, ?_⟩
          · rw [List.cons_append, Cut.scanFrom, hfind]
            exact Cut.item_ne_prepend name _ cut c taken
          · rw [List.cons_append, Cut.scanFrom, Cut.spanAt?, hfind, Option.map_some]
            refine ⟨_, List.mem_cons_self, ?_⟩
            have hpos := c.utf8Size_pos
            show size behind < size behind + size (c :: taken)
            rw [size_cons]
            omega
      | none =>
          rw [List.cons_append, Cut.scanFrom_pass hfind, Cut.scanFrom_pass (Cut.spanAt?_pass hfind),
            Cut.items_prepend]
          rcases ih (c :: behind) with ⟨hscan, hspans⟩ | ⟨hscan, g, hg, hstart⟩
          · refine .inl ⟨?_, ?_⟩
            · rw [hscan]
              simp
            · rw [hspans]
              simp
          · refine .inr ⟨fun cut heq => hscan cut ?_, g, hg, ?_⟩
            · have hsplit : cut.prepend (c :: taken) = (cut.prepend taken).prepend [c] := by simp
              rw [hsplit] at heq
              exact Cut.prepend_inj.mp heq
            · rw [size_cons] at hstart ⊢
              omega

/-- From any place on, the search and the search outside literals find the same
just if nothing is covered. -/
theorem honoured_scanFrom_iff (t behind ahead : Text) :
    honoured (Cut.scanFrom (at? (literalSpans t)) behind 0 ahead)
        = Cut.scanFrom (outsideAt? t) behind 0 ahead
      ↔ ¬ Covers t (Cut.scanFrom (Cut.spanAt? (at? (literalSpans t))) behind 0 ahead).items
        (Cut.scanFrom (Cut.spanAt? (outsideAt? t)) behind 0 ahead).items := by
  -- The induction is on the text ahead, since a stretch that is taken is skipped as a whole.
  induction hn : ahead.length using Nat.strongRecOn generalizing behind ahead with
  | ind n ih =>
    cases htake : take? ahead with
    | none =>
        cases ahead with
        | nil => simp [Cut.scanFrom, Covers]
        | cons c r =>
            have hat : at? (literalSpans t) behind (c :: r) = none := by rw [at?, htake]
            have hout : outsideAt? t behind (c :: r) = none := by simp [outsideAt?, htake]
            rw [Cut.scanFrom_pass hat, Cut.scanFrom_pass hout, Cut.scanFrom_pass (Cut.spanAt?_pass hat),
              Cut.scanFrom_pass (Cut.spanAt?_pass hout), honoured_prepend, Cut.prepend_inj,
              Cut.items_prepend, Cut.items_prepend]
            exact ih r.length (by rw [← hn]; simp) (c :: behind) r rfl
    | some found =>
        obtain ⟨name, k⟩ := found
        obtain ⟨taken, rest, rfl, rfl, hne⟩ := exists_taken htake
        have hrest := ih rest.length (by
          have hpos := List.length_pos_iff.mpr hne
          rw [← hn, List.length_append]
          omega) (taken.reverse ++ behind) rest rfl
        have hsize : size behind < size (taken.reverse ++ behind) := by
          have hpos := size_pos hne
          rw [size_append, size_reverse]
          omega
        by_cases hin : InLiteral t (size behind)
        · -- In a literal: the stretch is inert, and all depends on what begins within it.
          have hat : at? (literalSpans t) behind (taken ++ rest) = some (.inert taken, taken.length) := by
            rw [at?, htake]
            simp [(insideAny_iff_inLiteral t _).mpr hin]
          rw [Cut.scanFrom_take hne hat, Cut.scanFrom_take hne (Cut.spanAt?_take hat), honoured_inert,
            Cut.items_item]
          rcases scanFrom_outside_stretch t behind taken rest with ⟨hscan, hspans⟩
            | ⟨hscan, g, hg, hstart⟩
          · rw [hscan, hspans, Cut.prepend_inj, covers_cons_before, hrest]
            exact fun g hg => Cut.le_start_of_mem_scanFrom hg
          · -- A directive begins in the stretch, and the stretch is no text between directives.
            refine ⟨fun heq => absurd heq.symm (hscan _), fun hcovers => absurd ?_ hcovers⟩
            refine ⟨_, List.mem_cons_self, hin, g, hg, ?_⟩
            have hle := Cut.le_start_of_mem_scanFrom hg
            simp only [Span.contains, Bool.and_eq_true, decide_eq_true_eq]
            rw [size_append, size_reverse]
            omega
        · -- Outside of literals both searches take the directive.
          have hat : at? (literalSpans t) behind (taken ++ rest)
              = some (.directive name, taken.length) := by
            rw [at?, htake]
            have hinside : insideAny (literalSpans t) (size behind) = false := by
              rw [← Bool.not_eq_true, insideAny_iff_inLiteral]
              exact hin
            simp [hinside]
          have hout : outsideAt? t behind (taken ++ rest) = some (name, taken.length) := by
            rw [outsideAt?, if_neg hin, htake]
          rw [Cut.scanFrom_take hne hat, Cut.scanFrom_take hne hout,
            Cut.scanFrom_take hne (Cut.spanAt?_take hat), Cut.scanFrom_take hne (Cut.spanAt?_take hout),
            honoured_directive, Cut.item_inj, Cut.items_item, Cut.items_item,
            covers_cons_outside hin, hrest]
          exact fun f hf => Nat.lt_of_lt_of_le hsize (Cut.le_start_of_mem_scanFrom hf)

/-- **When the search finds the directives outside literals.** It does exactly
if no stretch that begins in a literal reaches over the beginning of a
directive outside. The two searches can differ only there, because an inert
stretch is skipped as a whole, and with it whatever begins inside. -/
theorem honoured_cut_eq_iff (t : Text) : honoured (cut t) = outsideCut t ↔ ¬ Hides t :=
  honoured_scanFrom_iff t [] t

/-! ### What is resolved -/

/-- Filling a text with the items of a search is filling it with the directives
among them. -/
theorem fillM_honoured (deeper : Option (Path → Text → Compile Text)) (dir : Path) (c : Cut Item) :
    c.fillM (expandItem deeper dir)
      = (honoured c).fillM fun name => expandItem deeper dir (.directive name) := by
  obtain ⟨parts, rest⟩ := c
  induction parts with
  | nil => rfl
  | cons part parts ih =>
      obtain ⟨gap, item⟩ := part
      have hcut : (⟨(gap, item) :: parts, rest⟩ : Cut Item)
          = ((⟨parts, rest⟩ : Cut Item).item item).prepend gap := by
        simp [Cut.item, Cut.prepend]
      rw [hcut, honoured_prepend, Cut.fillM_prepend, Cut.fillM_prepend]
      cases item with
      | directive name => rw [honoured_directive, Cut.fillM_item, Cut.fillM_item, ih]
      | inert s =>
          rw [honoured_inert, Cut.fillM_item, Cut.fillM_prepend, ih]
          simp [expandItem]

/-- Resolving the includes of a text is resolving its honoured directives. -/
theorem resolveIncludes_eq (dir : Path) (t : Text) :
    resolveIncludes dir t = (do
      let job ← read
      (honoured (cut t)).fillM fun name =>
        expandItem (deeperOf job.tree.fileCount) dir (.directive name)) := by
  unfold resolveIncludes
  simp only [expandLevels_eq, fillM_honoured]

end Include

end Stylesheet
