import Stylesheet.Compiler
import Stylesheet.Proofs.Conditionals
import Stylesheet.Proofs.Offsets
import Stylesheet.Proofs.Run
import Stylesheet.Proofs.Substitution
import Stylesheet.Proofs.Unquoted

/-!
# Directives inside literals mean nothing

Eight scanners look for directives before a document is read as a
stylesheet, and each has its own way of going on behind what it found.
What they share is that a place inside a string or a comment does not
count. `IsInert` says of a text that all its directives are at such
places, and `Compiler.macroPhases_inert` that the phases in which the
scanners run then do nothing: the document stays as it is, nothing is
reported, and no more than the configured constants is known afterwards.

A scanner is followed from place to place. `places` lists the places of a
text, and each scanner goes from one of them to a later one, so the
lemmas (`cut_quiet`, `Include.run_scanFrom_quiet`, `resolve_quiet`) are
inductions on the text ahead with the place as invariant.
-/

set_option autoImplicit false

namespace Stylesheet

open Text

/-! ### Inert texts -/

/-- The places from some place on: what stands before each, nearest
character first, and what lies ahead of it. -/
def placesFrom (behind : Text) : Text → List (Text × Text)
  | [] => [(behind, [])]
  | c :: r => (behind, c :: r) :: placesFrom (c :: behind) r

/-- The places of a text. -/
def places (t : Text) : List (Text × Text) := placesFrom [] t

/-- A place behind a start is one that the text goes on to. What stands before
it is read backwards, so the front comes out reversed. -/
theorem mem_placesFrom {start t behind ahead : Text} :
    (behind, ahead) ∈ placesFrom start t
      ↔ ∃ front, behind = front.reverse ++ start ∧ t = front ++ ahead := by
  induction t generalizing start with
  | nil =>
      simp only [placesFrom, List.mem_singleton, Prod.mk.injEq]
      constructor
      · rintro ⟨rfl, rfl⟩
        exact ⟨[], rfl, rfl⟩
      · rintro ⟨front, rfl, h⟩
        obtain ⟨rfl, rfl⟩ := List.append_eq_nil_iff.mp h.symm
        exact ⟨rfl, rfl⟩
  | cons c r ih =>
      simp only [placesFrom, List.mem_cons, Prod.mk.injEq, ih]
      constructor
      · rintro (⟨rfl, rfl⟩ | ⟨front, rfl, rfl⟩)
        · exact ⟨[], rfl, rfl⟩
        · exact ⟨c :: front, by simp, rfl⟩
      · rintro ⟨front, rfl, h⟩
        cases front with
        | nil => exact .inl ⟨rfl, h.symm⟩
        | cons d front =>
            obtain ⟨rfl, rfl⟩ := List.cons.inj h
            exact .inr ⟨front, by simp, rfl⟩

/-- A place divides the text. -/
theorem mem_places {t behind ahead : Text} :
    (behind, ahead) ∈ places t ↔ t = behind.reverse ++ ahead := by
  rw [places, mem_placesFrom]
  constructor
  · rintro ⟨front, rfl, rfl⟩
    simp
  · rintro rfl
    exact ⟨behind.reverse, by simp, rfl⟩

/-- A place that lies further on. -/
theorem mem_places_append {t behind front ahead : Text}
    (h : (behind, front ++ ahead) ∈ places t) : (front.reverse ++ behind, ahead) ∈ places t := by
  rw [mem_places] at h ⊢
  simp [h]

/-- The place one character further on. -/
theorem mem_places_cons {t behind r : Text} {c : Char} (h : (behind, c :: r) ∈ places t) :
    (c :: behind, r) ∈ places t := by
  have hfront : (behind, [c] ++ r) ∈ places t := h
  exact mem_places_append hfront

/-- The header of a directive comes next. -/
def beginsDirective (ahead : Text) : Bool :=
  (Include.take? ahead).isSome || (Constants.search.pattern ahead).isSome
    || (Layout.search.pattern ahead).isSome || (Loop.header ahead).isSome
    || (Conditional.header? ahead).isSome || (Flag.header ahead).isSome

/-- The sign of an invocation and a name come next. -/
def beginsInvocation : Text → Bool
  | '+' :: r => !(r.takeWhile isNameChar).isEmpty
  | _ => false

/-- No placeholder stands in the text, every directive begins in a
literal, and so does every definition or invocation of a mixin that begins
at a boundary. -/
structure IsInert (t : Text) : Prop where
  references_eq : Placeholder.references t = []
  directive : ∀ p ∈ places t, beginsDirective p.2 = true → InLiteral t (size p.1)
  mixin : ∀ p ∈ places t, (Mixin.header p.2).isSome ∨ beginsInvocation p.2 = true →
    Mixin.isBoundary p.1 = true → InLiteral t (size p.1)

instance (t : Text) : Decidable (IsInert t) :=
  decidable_of_iff
    (Placeholder.references t = []
      ∧ (∀ p ∈ places t, beginsDirective p.2 = true → InLiteral t (size p.1))
      ∧ ∀ p ∈ places t, (Mixin.header p.2).isSome ∨ beginsInvocation p.2 = true →
        Mixin.isBoundary p.1 = true → InLiteral t (size p.1))
    ⟨fun ⟨h₁, h₂, h₃⟩ => ⟨h₁, h₂, h₃⟩, fun h => ⟨h.1, h.2, h.3⟩⟩

/-! ### Blocks -/

namespace Block

variable {search : Search} {t : Text}

/-- From a place where nothing is found at any place to come, the rest of the
text is kept as one stretch. The induction is on what lies ahead, and each step
goes to the next place. -/
theorem cutFrom_quiet {spans : List Span}
    (hquiet : ∀ p ∈ places t, at? search spans p.1 p.2 = .ok none) {behind ahead : Text}
    (hplace : (behind, ahead) ∈ places t) :
    cutFrom search spans behind ahead = .ok (.whole ahead) := by
  induction ahead generalizing behind with
  | nil => exact cutFrom_nil_of_at? (hquiet _ hplace)
  | cons c r ih =>
      rw [cutFrom_cons_of_at? (hquiet _ hplace), ih (mem_places_cons hplace)]
      rfl

/-- No block is found where every header that may begin one is in a
literal. -/
theorem cut_quiet
    (hquiet : ∀ p ∈ places t, (search.pattern p.2).isSome → search.accept p.1 = true →
      InLiteral t (size p.1)) :
    cut search t = .ok (.whole t) := by
  refine cutFrom_quiet (t := t) ?_ (mem_places.mpr rfl)
  intro p hp
  unfold at?
  split
  · rfl
  · rename_i m hm
    refine if_neg ?_
    rintro ⟨-, haccept, hinside⟩
    have hliteral := hquiet p hp (by simp [hm]) haccept
    rw [← insideAny_iff_inLiteral, hinside] at hliteral
    cases hliteral

/-- Where no block is found, none is taken out either. -/
theorem extract_quiet
    (hquiet : ∀ p ∈ places t, (search.pattern p.2).isSome → search.accept p.1 = true →
      InLiteral t (size p.1)) :
    extract search t = .ok (t, []) := by
  rw [extract, cut_quiet hquiet]
  rfl

end Block

/-! ### Includes -/

namespace Include

/-- A quoted name leaves no more behind it than there was. -/
theorem length_le_of_quoted? {t name rest : Text} (h : quoted? t = some (name, rest)) :
    rest.length ≤ t.length := by
  unfold quoted? at h
  split at h
  · cases h
  · rename_i quote r
    split at h
    · cases h
    · dsimp only at h
      split at h
      · rename_i c rest' hdrop
        split at h
        · cases h
          have hsuffix := (List.dropWhile_suffix (l := r)
            fun c => c != quote && c != '\n').length_le
          rw [hdrop] at hsuffix
          simp only [List.length_cons] at hsuffix ⊢
          omega
        · cases h
      · cases h

/-- A directive takes at least one character. -/
theorem take?_pos {t name : Text} {n : Nat} (h : take? t = some (name, n)) : 0 < n := by
  unfold take? at h
  split at h
  · cases h
  · rename_i r hr
    -- The keyword is taken at least, since nothing that follows gives characters back.
    have hkeyword : "@include".toList.length = 8 := by decide +kernel
    have hlength := congrArg List.length (eq_append_of_after? hr)
    rw [List.length_append, hkeyword] at hlength
    split at h
    · cases h
    · rename_i inside rest hquoted
      have hrest := length_le_of_quoted? hquoted
      have hblanks := (List.dropWhile_suffix (l := r) isBlank).length_le
      have hgap := (List.dropWhile_suffix (l := rest) isBlank).length_le
      split at h
      · cases h
      · simp only [Option.some.injEq, Prod.mk.injEq] at h
        obtain ⟨-, rfl⟩ := h
        split
        · rename_i s hs
          rw [hs, List.length_cons] at hgap
          omega
        · omega

variable {t : Text} {job : Job} {s : State}

/-- A stretch that begins in a literal is put back, and the scan goes on
behind it. `skip` characters of the stretch are still to come. -/
theorem run_scanFrom_quiet (deeper : Option (Path → Text → Compile Text)) (dir : Path)
    (hquiet : ∀ p ∈ places t, (take? p.2).isSome → InLiteral t (size p.1)) {behind ahead : Text}
    (hplace : (behind, ahead) ∈ places t) (skip : Nat) :
    ((Cut.scanFrom (at? (literalSpans t)) behind skip ahead).fillM (expandItem deeper dir)).run job s
      = .ok (ahead.drop skip) s := by
  induction ahead generalizing behind skip with
  | nil => simp [Cut.scanFrom, Cut.run_fillM_whole]
  | cons c r ih =>
      have hnext := mem_places_cons hplace
      cases skip with
      | succ skip =>
          rw [Cut.scanFrom]
          exact ih hnext skip
      | zero =>
          rw [Cut.scanFrom]
          -- A directive that is found stands in a literal, so it is an inert stretch and stays.
          cases htake : take? (c :: r) with
          | none =>
              have hat : at? (literalSpans t) behind (c :: r) = none := by simp [at?, htake]
              rw [hat]
              exact Cut.run_fillM_prepend [c] (ih hnext 0)
          | some found =>
              obtain ⟨name, n⟩ := found
              have hinside := (insideAny_iff_inLiteral t _).mpr
                (hquiet _ hplace (by simp [htake]))
              have hat : at? (literalSpans t) behind (c :: r)
                  = some (.inert ((c :: r).take n), n) := by
                simp [at?, htake, hinside]
              obtain ⟨n, rfl⟩ := Nat.exists_eq_add_of_lt (take?_pos htake)
              rw [hat]
              have hinert : (expandItem deeper dir (.inert ((c :: r).take (0 + n + 1)))).run job s
                  = .ok ((c :: r).take (0 + n + 1)) s := rfl
              simpa using Cut.run_fillM_item hinert (ih hnext n)

/-- A text whose include directives are all in literals is resolved to itself,
whatever number of levels is allowed. -/
theorem run_resolveIncludes_quiet (dir : Path)
    (hquiet : ∀ p ∈ places t, (take? p.2).isSome → InLiteral t (size p.1)) :
    (resolveIncludes dir t).run job s = .ok t s := by
  have hplace : ([], t) ∈ places t := mem_places.mpr rfl
  show (expandLevels job.tree.fileCount dir t).run job s = .ok t s
  cases job.tree.fileCount with
  | zero => exact run_scanFrom_quiet none dir hquiet hplace 0
  | succ levels => exact run_scanFrom_quiet (some (expandLevels levels)) dir hquiet hplace 0

end Include

/-! ### Invocations -/

namespace Mixin

variable {t : Text}

/-- The scan for invocations keeps the text, if there is none at any place. -/
theorem tryScanFrom_quiet {spans : List Span}
    (hquiet : ∀ p ∈ places t, Invocation.at? spans p.1 p.2 = .ok none) {behind ahead : Text}
    (hplace : (behind, ahead) ∈ places t) :
    Cut.tryScanFrom (Invocation.at? spans) behind 0 ahead = .ok (.whole ahead) := by
  induction ahead generalizing behind with
  | nil => rfl
  | cons c r ih =>
      rw [Cut.tryScanFrom, hquiet _ hplace, ih (mem_places_cons hplace)]
      rfl

/-- An invocation is a sign and a name at a boundary. -/
theorem Invocation.take?_eq_none {behind ahead : Text}
    (h : beginsInvocation ahead = true → isBoundary behind = false) :
    take? behind ahead = .ok none := by
  unfold take?
  split
  · rename_i r
    dsimp only
    refine if_pos ?_
    by_cases hname : (r.takeWhile isNameChar).isEmpty = true
    · simp [hname]
    · simp [h (by simp [beginsInvocation, hname])]
  · rfl

/-- A text has no invocations if all signs at boundaries are in literals. A
sign that is at no boundary is part of something else and need not be. -/
theorem cut_quiet
    (hquiet : ∀ p ∈ places t, beginsInvocation p.2 = true → isBoundary p.1 = true →
      InLiteral t (size p.1)) :
    Invocation.cut t = .ok (.whole t) := by
  refine tryScanFrom_quiet (t := t) ?_ (mem_places.mpr rfl)
  intro p hp
  unfold Invocation.at?
  split
  · rfl
  · rename_i hplain
    refine Invocation.take?_eq_none fun hbegins => ?_
    have hsign : p.2.head? = some '+' := by
      unfold beginsInvocation at hbegins
      split at hbegins
      · rename_i h
        rw [h]
        rfl
      · cases hbegins
    -- The sign is outside literals, so it cannot stand at a boundary.
    have houtside : ¬ InLiteral t (size p.1) := by
      rw [← insideAny_iff_inLiteral]
      exact fun hinside => hplain ⟨hsign, hinside⟩
    exact Bool.eq_false_iff.mpr fun hboundary => houtside (hquiet p hp hbegins hboundary)

/-- A text without invocations is expanded to itself, on every level. -/
theorem run_expandLevels_quiet
    (hquiet : ∀ p ∈ places t, beginsInvocation p.2 = true → isBoundary p.1 = true →
      InLiteral t (size p.1)) (levels : Nat) (job : Job) (s : State) :
    (expandLevels levels t).run job s = .ok t s := by
  cases levels <;> simp only [expandLevels, expandWith, cut_quiet hquiet] <;> rfl

end Mixin

/-! ### Conditionals -/

namespace Conditional

/-- The header of a conditional is followed by its parenthesis. -/
theorem header?_append {t header r : Text} (h : header? t = some (header, r)) :
    t = header ++ '(' :: r.drop 1 := by
  unfold header? at h
  split at h
  · cases h
  · rename_i s hs
    split at h
    · rename_i hparen
      cases h
      obtain ⟨rest, hrest⟩ := List.head?_eq_some_iff.mp hparen
      have hsplit : s.takeWhile isBlank ++ '(' :: rest = s := by
        rw [← hrest, List.takeWhile_append_dropWhile]
      rw [eq_append_of_after? hs, hrest, List.append_assoc, List.drop_one, List.tail_cons, hsplit]
    · cases h

variable {t : Text}

/-- The place behind the parenthesis of a header, at which a scan goes on. -/
theorem behindHeader {behind ahead header fromParen : Text} (hplace : (behind, ahead) ∈ places t)
    (h : header? ahead = some (header, fromParen)) :
    ('(' :: (header.reverse ++ behind), fromParen.drop 1) ∈ places t := by
  rw [header?_append h] at hplace
  exact mem_places_cons (mem_places_append hplace)

/-- A header in a literal is no conditional. -/
theorem at?_quiet (hquiet : ∀ p ∈ places t, (header? p.2).isSome → InLiteral t (size p.1))
    {behind ahead header fromParen : Text} (hplace : (behind, ahead) ∈ places t)
    (hheader : header? ahead = some (header, fromParen)) :
    at? behind ahead fromParen = .ok none := by
  have hinside := (insideAny_iff_inLiteral t _).mpr (hquiet _ hplace (by simp [hheader]))
  rw [at?, ← mem_places.mp hplace]
  exact if_pos hinside

/-- A header in a literal is passed over with its parenthesis, and all
else character by character. -/
theorem resolveFrom_quiet
    (hquiet : ∀ p ∈ places t, (header? p.2).isSome → InLiteral t (size p.1))
    {behind ahead : Text} (hplace : (behind, ahead) ∈ places t) :
    resolveFrom behind ahead = .ok ahead := by
  induction hn : ahead.length using Nat.strongRecOn generalizing behind ahead with
  | ind n ih =>
    subst hn
    cases hheader : header? ahead with
    | some found =>
        -- The scan goes on behind the parenthesis, not behind the whole conditional.
        obtain ⟨header, fromParen⟩ := found
        have hshorter := length_header? hheader
        have hrest := ih (fromParen.drop 1).length (by rw [List.length_drop]; omega)
          (behindHeader hplace hheader) rfl
        rw [resolveFrom_header hheader (at?_quiet hquiet hplace hheader), hrest]
        exact congrArg Except.ok (header?_append hheader).symm
    | none =>
        cases ahead with
        | nil => exact resolveFrom_nil behind
        | cons c r =>
            rw [resolveFrom_cons hheader, ih r.length (Nat.lt_succ_self _) (mem_places_cons hplace) rfl]
            rfl

/-- A text whose conditionals are all in literals is resolved to itself. -/
theorem resolve_quiet
    (hquiet : ∀ p ∈ places t, (header? p.2).isSome → InLiteral t (size p.1)) :
    resolve t = .ok t :=
  resolveFrom_quiet hquiet (mem_places.mpr rfl)

end Conditional

/-! ### Loops, flags and placeholders -/

/-- A text whose loops are all in literals is expanded to itself. -/
theorem run_expandLoops_quiet {t : Text}
    (hquiet : ∀ p ∈ places t, (Loop.header p.2).isSome → InLiteral t (size p.1)) (job : Job)
    (s : State) : (expandLoops t).run job s = .ok t s := by
  have hcut : Block.cut Loop.search t = .ok (.whole t) :=
    Block.cut_quiet fun p hp hheader _ => hquiet p hp hheader
  rw [expandLoops]
  split
  · simp_all
  · rename_i cut h
    rw [hcut] at h
    cases h
    rfl

/-- A text whose flag blocks are all in literals stays as it is, whatever flags
are active. -/
theorem resolveFlags_quiet {t : Text}
    (hquiet : ∀ p ∈ places t, (Flag.header p.2).isSome → InLiteral t (size p.1))
    (active : List Text) : resolveFlags active t = .ok t := by
  have hcut : Block.cut Flag.search t = .ok (.whole t) :=
    Block.cut_quiet fun p hp hheader _ => hquiet p hp hheader
  rw [resolveFlags]
  split
  · simp_all
  · rename_i cut h
    rw [hcut] at h
    cases h
    exact if_pos rfl

namespace Placeholder

/-- Without placeholders a template is one stretch of text. -/
theorem cut_eq_whole {t : Text} (h : (cut t).items = []) : cut t = .whole t := by
  fun_induction cut t with
  | case1 => rfl
  | case2 c r name rest htake ih => cases h
  | case3 c r htake ih =>
      rw [Cut.items_prepend] at h
      rw [ih h]
      rfl

/-- A text without placeholders needs no constants, and so it cannot fail. -/
theorem run_interpolate_quiet {t : Text} (h : references t = []) (job : Job) (s : State) :
    (Compile.interpolate t).run job s = .ok t s := by
  have hitems : (cut t).items = [] := by
    rw [List.eq_nil_iff_forall_not_mem]
    intro name hname
    have hmem : name ∈ references t := by simpa [references] using hname
    rw [h] at hmem
    cases hmem
  rw [Compile.run_interpolate (by simp [hitems]), cut_eq_whole hitems, Cut.fill_whole]

end Placeholder

/-! ### The constants -/

namespace Table

variable {α : Type}

/-- A name that the table does not have is added at the end. -/
theorem setEntry_of_not_mem {name : Text} {es : List (Text × α)} (h : name ∉ es.map Prod.fst)
    (v : α) : setEntry name v es = es ++ [(name, v)] := by
  induction es with
  | nil => rfl
  | cons e es ih =>
      obtain ⟨n, u⟩ := e
      simp only [List.map_cons, List.mem_cons, not_or] at h
      rw [setEntry, if_neg (Ne.symm h.1), ih h.2]
      rfl

/-- New names are added behind the others. -/
theorem entries_extend {t : Table α} {pairs : List (Text × α)}
    (h : ((t.entries ++ pairs).map Prod.fst).Nodup) :
    (t.extend pairs).entries = t.entries ++ pairs := by
  induction pairs generalizing t with
  | nil => simp [extend]
  | cons p pairs ih =>
      obtain ⟨name, v⟩ := p
      have hnew : name ∉ t.entries.map Prod.fst := by
        intro hmem
        rw [List.map_append, List.nodup_append] at h
        exact h.2.2 name hmem name (by simp) rfl
      have hset : (t.set name v).entries = t.entries ++ [(name, v)] := setEntry_of_not_mem hnew v
      have hstep : t.extend ((name, v) :: pairs) = (t.set name v).extend pairs := rfl
      rw [hstep, ih (by simpa [hset] using h), hset]
      simp

/-- A table is what setting its entries makes of the empty one. -/
theorem empty_extend (table : Table α) : empty.extend table.entries = table := by
  have hentries : (empty.extend table.entries).entries = table.entries :=
    entries_extend (t := empty) table.distinct
  cases h : empty.extend table.entries
  rw [h] at hentries
  cases table
  cases hentries
  rfl

end Table

/-! ### The stages -/

namespace IsInert

variable {s : State} (h : IsInert s.text) (job : Job)

include h

/-- No include is found, so no file is read or recorded. -/
theorem run_includes (phase : Phase) : (Stage.includes.run phase).run job s = .ok () s := by
  have hrun : (resolveIncludes job.path.directory s.text).run job { s with text := [] }
      = .ok s.text { s with text := [] } :=
    Include.run_resolveIncludes_quiet job.path.directory
      fun p hp htake => h.directive p hp (by simp [beginsDirective, htake])
  show (resolveIncludes job.path.directory s.text >>= Compile.setText).run job { s with text := [] }
    = .ok () s
  rw [run_bind_ok hrun]
  rfl

/-- No loop is found. -/
theorem run_iteration (phase : Phase) : (Stage.iteration.run phase).run job s = .ok () s := by
  have hrun : (expandLoops s.text).run job { s with text := [] } = .ok s.text { s with text := [] } :=
    run_expandLoops_quiet (fun p hp hheader => h.directive p hp (by simp [beginsDirective, hheader]))
      job _
  show (expandLoops s.text >>= Compile.setText).run job { s with text := [] } = .ok () s
  rw [run_bind_ok hrun]
  rfl

/-- No grid is found. -/
theorem run_layout (phase : Phase) : (Layout.stage.run phase).run job s = .ok () s := by
  have hextract : Block.extract Layout.search s.text = .ok (s.text, []) :=
    Block.extract_quiet fun p hp hheader _ => h.directive p hp (by simp [beginsDirective, hheader])
  show Layout.run.run job s = .ok () s
  unfold Layout.run
  rw [run_bind_ok (run_get job s), hextract]
  rfl

omit h in
/-- Without a feed in the configuration none is read. A feed that is missing
would be reported, hence the hypothesis. -/
theorem run_readFeed (hfeed : job.config.feed = none) :
    Constants.readFeed.run job s = .ok () s := by
  have hread : (read : Compile Job).run job s = .ok job s := rfl
  unfold Constants.readFeed
  rw [run_bind_ok hread, hfeed]
  rfl

/-- No block of constants is found. -/
theorem run_readBlocks : Constants.readBlocks.run job s = .ok () s := by
  have hextract : Block.extract Constants.search s.text = .ok (s.text, []) :=
    Block.extract_quiet fun p hp hheader _ => h.directive p hp (by simp [beginsDirective, hheader])
  unfold Constants.readBlocks
  rw [run_bind_ok (run_get job s), hextract]
  rfl

/-- The constants of the configuration are set, and no others. -/
theorem run_seed (hfeed : job.config.feed = none) :
    Constants.seed.run job s
      = .ok () { s with constants := s.constants.extend job.config.globals.entries } := by
  show (Constants.readFeed >>= fun _ => Constants.readBlocks).run job
    { s with constants := s.constants.extend job.config.globals.entries } = _
  rw [run_bind_ok (run_readFeed job hfeed)]
  exact run_readBlocks (s := { s with constants := s.constants.extend job.config.globals.entries }) h
    job

/-- There is no placeholder to fill. -/
theorem run_fill : Constants.fill.run job s = .ok () s := by
  have hrun := Placeholder.run_interpolate_quiet h.references_eq job s
  show (Compile.interpolate s.text >>= Compile.setText).run job s = .ok () s
  rw [run_bind_ok hrun]
  rfl

omit h in
/-- Without a mixin directory nothing is appended. With one, stylesheets would
be, whatever the document says. -/
theorem run_autoInclude (hauto : job.config.autoInclude = none) :
    Mixin.autoInclude.run job s = .ok () s := by
  have hread : (read : Compile Job).run job s = .ok job s := rfl
  unfold Mixin.autoInclude
  rw [run_bind_ok hread, hauto]
  rfl

/-- No definition of a mixin is found. -/
theorem run_extract : Mixin.extract.run job s = .ok () s := by
  have hextract : Block.extract Mixin.definitions s.text = .ok (s.text, []) :=
    Block.extract_quiet fun p hp hheader hboundary => h.mixin p hp (.inl hheader) hboundary
  unfold Mixin.extract
  rw [run_bind_ok (run_get job s), hextract]
  rfl

/-- The stack of mixins is emptied, and nothing else happens. -/
theorem run_expand : Mixin.expand.run job s = .ok () { s with expanding := [] } := by
  have hrun := Mixin.run_expandLevels_quiet
    (fun p hp hbegins hboundary => h.mixin p hp (.inr hbegins) hboundary)
    (job.config.maxMixinDepth - 0) job { s with text := [], expanding := [] }
  show (Mixin.expandLevels (job.config.maxMixinDepth - 0) s.text >>= Compile.setText).run job
    { s with text := [], expanding := [] } = _
  rw [run_bind_ok hrun]
  rfl

/-- No conditional is found. -/
theorem run_conditionals (phase : Phase) :
    (Stage.conditionals.run phase).run job s = .ok () s := by
  have hresolve : Conditional.resolve s.text = .ok s.text :=
    Conditional.resolve_quiet fun p hp hheader =>
      h.directive p hp (by simp [beginsDirective, hheader])
  show (Compile.resolveConditionals s.text >>= Compile.setText).run job s = .ok () s
  rw [Compile.resolveConditionals, hresolve]
  rfl

/-- No flag block is found. -/
theorem run_flags (phase : Phase) : (Stage.flags.run phase).run job s = .ok () s := by
  have hresolve : resolveFlags s.flags s.text = .ok s.text :=
    resolveFlags_quiet (fun p hp hheader => h.directive p hp (by simp [beginsDirective, hheader])) _
  show (Compile.ofScan (resolveFlags s.flags s.text) >>= Compile.setText).run job s = .ok () s
  rw [hresolve]
  rfl

/-! ### The phases -/

/-- The first phase. Its two stages are the includes and the mixin directory. -/
theorem run_importing (hauto : job.config.autoInclude = none) :
    (Stage.runPhase Stage.standard .importing).run job s = .ok () s := by
  have hstages : Stage.standard.filter (fun stage => decide (Phase.importing ∈ stage.phases))
      = [Stage.includes, Mixin.stage] := rfl
  rw [Stage.runPhase, hstages, run_forM_cons (a := Stage.includes) (h.run_includes job _),
    run_forM_cons (a := Mixin.stage) (run_autoInclude job hauto)]
  rfl

/-- The second phase. Of its stages only that of the constants leaves something
behind. -/
theorem run_preProcess (hfeed : job.config.feed = none) :
    (Stage.runPhase Stage.standard .preProcess).run job s
      = .ok () { s with constants := s.constants.extend job.config.globals.entries } := by
  have hstages : Stage.standard.filter (fun stage => decide (Phase.preProcess ∈ stage.phases))
      = [Constants.stage, Layout.stage, Stage.iteration, Mixin.stage] := rfl
  have hafter : IsInert { s with constants := s.constants.extend job.config.globals.entries }.text := h
  rw [Stage.runPhase, hstages, run_forM_cons (a := Constants.stage) (h.run_seed job hfeed),
    run_forM_cons (a := Layout.stage) (hafter.run_layout job _),
    run_forM_cons (a := Stage.iteration) (hafter.run_iteration job _),
    run_forM_cons (a := Mixin.stage) (hafter.run_extract job)]
  rfl

/-- The third phase. The stack of mixins is set to the empty one on the way. -/
theorem run_process :
    (Stage.runPhase Stage.standard .process).run job s = .ok () { s with expanding := [] } := by
  have hstages : Stage.standard.filter (fun stage => decide (Phase.process ∈ stage.phases))
      = [Constants.stage, Mixin.stage, Stage.conditionals, Stage.flags] := rfl
  have hafter : IsInert { s with expanding := [] }.text := h
  rw [Stage.runPhase, hstages, run_forM_cons (a := Constants.stage) (h.run_fill job),
    run_forM_cons (a := Mixin.stage) (h.run_expand job),
    run_forM_cons (a := Stage.conditionals) (hafter.run_conditionals job _),
    run_forM_cons (a := Stage.flags) (hafter.run_flags job _)]
  rfl

/-- The three phases together. -/
theorem run_macroPhases (hfeed : job.config.feed = none) (hauto : job.config.autoInclude = none) :
    ([Phase.importing, .preProcess, .process].forM (Stage.runPhase Stage.standard)).run job s
      = .ok () { s with
          constants := s.constants.extend job.config.globals.entries, expanding := [] } := by
  have hseeded : IsInert { s with constants := s.constants.extend job.config.globals.entries }.text := h
  rw [run_forM_cons (h.run_importing job hauto), run_forM_cons (h.run_preProcess job hfeed),
    run_forM_cons (hseeded.run_process job)]
  rfl

end IsInert

/-! ### Whole documents -/

/-- The state of a document of which nothing was made yet. -/
structure State.IsFresh (t : Text) (s : State) : Prop where
  text_eq : s.text = t
  constants_eq : s.constants = .empty
  mixins_eq : s.mixins = .empty
  expanding_eq : s.expanding = []
  grid_eq : s.grid = none
  diagnostics_eq : s.diagnostics = []

namespace State.IsFresh

variable {t : Text} {s : State}

/-- Recording a file changes nothing that is looked at here. -/
theorem recordFile (h : s.IsFresh t) (path : Path) (modified : Option Nat) :
    (s.recordFile path modified).IsFresh t := by
  unfold State.recordFile
  split
  · exact h
  · exact { h with }

/-- Flags are not looked at either, and a flag may be activated without a word. -/
theorem activateFlag (h : s.IsFresh t) (config : Config) (name : Text) :
    (s.activateFlag config name).IsFresh t := by
  unfold State.activateFlag
  split
  · exact h
  · exact { h with }

/-- An option is set as a flag is. -/
theorem setOption (h : s.IsFresh t) (name : Text) : (s.setOption name).IsFresh t :=
  { h with }

/-- Setting the constants gives the state that the phases end in. All else is
as it was at the start, so it may be written out. -/
theorem with_constants (h : s.IsFresh t) (table : Table Text) :
    { s with constants := s.constants.extend table.entries, expanding := [] }
      = { s with text := t, diagnostics := [], mixins := .empty, grid := none, constants := table } := by
  obtain ⟨text, constants, mixins, expanding, grid, flags, options, files, diagnostics⟩ := s
  obtain ⟨rfl, rfl, rfl, rfl, rfl, rfl⟩ := h
  rw [Table.empty_extend]

end State.IsFresh

namespace Compiler

/-- A compilation starts from a fresh state, with any flags and options. -/
theorem isFresh_start (c : Compiler) (tree : FileTree) (flags options : List Text)
    (source : Source) : (c.start tree flags options source).IsFresh source.text := by
  have hstart : (State.start c.config source.text).IsFresh source.text := ⟨rfl, rfl, rfl, rfl, rfl, rfl⟩
  have hflags := List.foldlRecOn flags (State.activateFlag c.config)
    (hstart.recordFile (tree.fileKey source.path) source.modified)
    fun s hs name _ => hs.activateFlag c.config name
  exact List.foldlRecOn options State.setOption hflags fun s hs name _ => hs.setOption name

/-- Where all directives are in strings and comments, the phases before
nesting find nothing to do. They succeed and report nothing, the text is
the one they were given, no mixin and no grid is defined, and the
constants are those of the configuration. -/
theorem macroPhases_inert (c : Compiler) (hfeed : c.config.feed = none)
    (hauto : c.config.autoInclude = none) (tree : FileTree) (flags options : List Text)
    {source : Source} (h : IsInert source.text) :
    ([Phase.importing, .preProcess, .process].forM (Stage.runPhase Stage.standard)).run
        ⟨source.path, c.config, tree⟩ (c.start tree flags options source)
      = .ok () { c.start tree flags options source with
          text := source.text, diagnostics := [], mixins := .empty, grid := none,
          constants := c.config.globals } := by
  have hfresh := c.isFresh_start tree flags options source
  have htext : IsInert (c.start tree flags options source).text := by
    rw [hfresh.text_eq]
    exact h
  rw [htext.run_macroPhases ⟨source.path, c.config, tree⟩ hfeed hauto, hfresh.with_constants]

/-- A stylesheet with every kind of directive in it, each in a string, in
a comment, or at a place where it is part of something else. -/
def hiddenSheet : Source where
  path := .of "main.css"
  text := "/* @include 'x'; @constants \x7b a: b \x7d @grid \x7b \x7d @if (a) \x7b \x7d +m; */
a[b=c] \x7b content: \"@flag(x) \x7b \x7d =m(a) \x7b \x7d ' /*\"; d: 1+e; \x7d
'@for $ſ from 1 to 2 \x7b \x7d \\' @include \"y\";' /* +".toList
  modified := none

/-- The sheet passes the phases with a configured constant and an active flag. -/
theorem macroPhases_hiddenSheet :
    ([Phase.importing, .preProcess, .process].forM (Stage.runPhase Stage.standard)).run
        ⟨hiddenSheet.path, { globals := .ofPairs [("a".toList, "b".toList)] }, .empty []⟩
        (start { config := { globals := .ofPairs [("a".toList, "b".toList)] } } (.empty [])
          ["x".toList] [] hiddenSheet)
      = .ok () { start { config := { globals := .ofPairs [("a".toList, "b".toList)] } } (.empty [])
            ["x".toList] [] hiddenSheet with
          text := hiddenSheet.text, diagnostics := [], mixins := .empty, grid := none,
          constants := .ofPairs [("a".toList, "b".toList)] } :=
  macroPhases_inert { config := { globals := .ofPairs [("a".toList, "b".toList)] } } rfl rfl (.empty [])
    ["x".toList] [] (by decide +kernel)

end Compiler

end Stylesheet
