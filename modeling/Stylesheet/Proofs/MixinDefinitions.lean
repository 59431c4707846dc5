import Stylesheet.Proofs.Invocations
import Stylesheet.Proofs.Run
import Stylesheet.Proofs.Unquoted
import Stylesheet.Stage.Mixins

/-!
# Definitions that are taken out

The list of an invocation is closed by the search that counts parentheses. The
list of a definition is read by a pattern that knows two levels of them, and so
the two do not agree on what a list is. `extract_definition_iff` says where this
matters: a definition is registered, and nothing of it is left in the text, if
and only if its name is not empty and no parenthesis in its list is inside
another one. Any other definition is no error: it is passed over, and the text
that is left still begins with its sign.

`level` counts the parentheses that are open behind a text. A list in which they
are paired is closed at its own parenthesis if the level stays below two
(`closeParams?_of_le`), and not at all if it does not (`closeParams?_of_lt`).
-/

set_option autoImplicit false

namespace Stylesheet

namespace Mixin

/-! ### Levels -/

/-- How many parentheses are open behind a text; fewer than none, if it closes
more than it opens. -/
def level (t : Text) : Int := (t.count '(' : Int) - t.count ')'

/-- One character and then the others. -/
theorem level_cons (c : Char) (t : Text) : level (c :: t) = level [c] + level t := by
  simp only [level, List.count_cons, List.count_nil]
  omega

/-- One character is a parenthesis or not. -/
theorem level_singleton (c : Char) : level [c] = if c = '(' then 1 else if c = ')' then -1 else 0 := by
  by_cases hopen : c = '('
  · subst hopen
    rfl
  · by_cases hclose : c = ')'
    · subst hclose
      rfl
    · simp [level, hopen, hclose]

/-- Every parenthesis closes one that was opened before, and all are closed. -/
structure IsPaired (t : Text) : Prop where
  nonneg : ∀ front, front <+: t → 0 ≤ level front
  total : level t = 0

/-- No parenthesis is inside another one. -/
def NestsOnce (t : Text) : Prop := ∀ front, front <+: t → level front ≤ 1

instance (t : Text) : Decidable (IsPaired t) :=
  decidable_of_iff ((∀ front ∈ t.inits, 0 ≤ level front) ∧ level t = 0)
    ⟨fun h => ⟨fun front hfront => h.1 front ((List.mem_inits ..).mpr hfront), h.2⟩,
      fun h => ⟨fun front hfront => h.nonneg front ((List.mem_inits ..).mp hfront), h.total⟩⟩

instance (t : Text) : Decidable (NestsOnce t) :=
  decidable_of_iff (∀ front ∈ t.inits, level front ≤ 1) (by simp only [List.mem_inits, NestsOnce])

/-! ### Lists of parameters -/

section

variable {nested : Bool} {t rest : Text}

/-- The pattern goes over a character behind which it knows the level, and what
comes next is at that level. -/
theorem exists_closeParams?_cons {c : Char} (hlow : 0 ≤ nested.toNat + level [c])
    (hhigh : nested.toNat + level [c] ≤ 1) :
    ∃ nested' : Bool,
      (∀ front, (nested'.toNat : Int) + level front = nested.toNat + level (c :: front))
      ∧ ∀ r, closeParams? nested (c :: r)
        = (closeParams? nested' r).map fun found => (c :: found.1, found.2) := by
  rw [level_singleton] at hlow hhigh
  -- Neither does the list end here, nor does it go to a third level.
  have hend : ¬ (c = ')' ∧ nested = false) := by
    rintro ⟨rfl, rfl⟩
    exact absurd hlow (by decide)
  have hdeep : ¬ (c = '(' ∧ nested = true) := by
    rintro ⟨rfl, rfl⟩
    exact absurd hhigh (by decide)
  refine ⟨if c = '(' then true else if c = ')' then false else nested, fun front => ?_, fun r => ?_⟩
  · rw [level_cons c front, level_singleton, ← Int.add_assoc]
    congr 1
    by_cases hopen : c = '('
    · have hnested : nested = false := by simpa [hopen] using hdeep
      simp [hopen, hnested]
    · by_cases hclose : c = ')'
      · have hnested : nested = true := by simpa [hclose] using hend
        simp [hclose, hnested]
      · simp [hopen, hclose]
  · rw [closeParams?, if_neg hend, if_neg hdeep]
    dsimp only
    split <;> simp_all

/-- A list with one level of parentheses inside is closed at its own. -/
theorem closeParams?_of_le (hlow : ∀ front, front <+: t → 0 ≤ nested.toNat + level front)
    (hhigh : ∀ front, front <+: t → nested.toNat + level front ≤ 1)
    (htotal : nested.toNat + level t = 0) (rest : Text) :
    closeParams? nested (t ++ ')' :: rest) = some (t, rest) := by
  induction t generalizing nested with
  | nil =>
      cases nested with
      | false => rfl
      | true => cases htotal
  | cons c t ih =>
      have hc : [c] <+: c :: t := List.cons_prefix_cons.mpr ⟨rfl, List.nil_prefix⟩
      obtain ⟨nested', hlevel, hstep⟩ := exists_closeParams?_cons (hlow _ hc) (hhigh _ hc)
      rw [List.cons_append, hstep, ih, Option.map_some]
      · intro front hfront
        rw [hlevel]
        exact hlow _ (List.cons_prefix_cons.mpr ⟨rfl, hfront⟩)
      · intro front hfront
        rw [hlevel]
        exact hhigh _ (List.cons_prefix_cons.mpr ⟨rfl, hfront⟩)
      · rw [hlevel, htotal]

/-- The level at the start is one that the pattern knows. -/
theorem ne_nil_of_lt {deep : Text} (hlt : 1 < nested.toNat + level deep) : deep ≠ [] := by
  rintro rfl
  have hle := Bool.toNat_le nested
  have hnil : level [] = 0 := rfl
  omega

/-- A list with more levels is not closed, whatever comes behind it. -/
theorem closeParams?_of_lt (hlow : ∀ front, front <+: t → 0 ≤ nested.toNat + level front)
    {deep : Text} (hdeep : deep <+: t) (hlt : 1 < nested.toNat + level deep) (rest : Text) :
    closeParams? nested (t ++ rest) = none := by
  induction t generalizing nested deep with
  | nil => exact absurd (List.prefix_nil.mp hdeep) (ne_nil_of_lt hlt)
  | cons c t ih =>
      -- The pattern gives up at a third level. Before that it goes on as long as the level is
      -- one that it knows.
      by_cases hthird : c = '(' ∧ nested = true
      · obtain ⟨rfl, rfl⟩ := hthird
        rfl
      · have hc : [c] <+: c :: t := List.cons_prefix_cons.mpr ⟨rfl, List.nil_prefix⟩
        have hhigh : nested.toNat + level [c] ≤ 1 := by
          have hle := Bool.toNat_le nested
          rw [level_singleton]
          by_cases hopen : c = '('
          · have hnested : nested = false := by simpa [hopen] using hthird
            simp [hopen, hnested]
          · rw [if_neg hopen]
            split <;> omega
        obtain ⟨nested', hlevel, hstep⟩ := exists_closeParams?_cons (hlow _ hc) hhigh
        rcases List.prefix_cons_iff.mp hdeep with hnil | ⟨deep', rfl, hdeep'⟩
        · exact absurd hnil (ne_nil_of_lt hlt)
        · have hnext : closeParams? nested' (t ++ rest) = none := by
            refine ih (fun front hfront => ?_) hdeep' (by rwa [hlevel])
            rw [hlevel]
            exact hlow _ (List.cons_prefix_cons.mpr ⟨rfl, hfront⟩)
          rw [List.cons_append, hstep, hnext, Option.map_none]

end

/-! ### Headers -/

section

variable {name params body : Text}

/-- A definition as it is written, without blanks. -/
def written (name params body : Text) : Text :=
  '=' :: (name ++ '(' :: (params ++ ')' :: '{' :: (body ++ ['}'])))

/-- The header ends behind the list, or behind the name if there is no list that
is closed. -/
theorem header_named (hname : ∀ c ∈ name, isNameChar c = true) (hne : name ≠ []) (rest : Text) :
    header ('=' :: (name ++ '(' :: rest))
      = some ((closeParams? false rest).elim ⟨1 + name.length, [some name, none]⟩
          fun found => ⟨1 + name.length + found.1.length + 2, [some name, some found.1]⟩) := by
  have hends : ∀ c ∈ ('(' :: rest).head?, isNameChar c = false := by
    rintro _ ⟨rfl⟩
    rfl
  have hblank : isBlank '(' = false := by decide
  obtain ⟨htakes, hleaves⟩ := span_append hname hends
  cases hclose : closeParams? false rest <;> simp [header, htakes, hleaves, hne, hblank, hclose]

/-! ### The block -/

/-- The body ends at the last brace. It has to be balanced, and no literal may
be open at its end, which would take in the brace. -/
theorem close?_body (hbody : IsBalanced (pieces body))
    (hclosed : ∀ p ∈ (pieces body).getLast?, p.closed = true) :
    Delimiter.brace.close? ('{' :: (body ++ ['}'])) = some ('{' :: body, []) := by
  have hpieces : pieces ('{' :: (body ++ ['}'])) = .plain '{' :: (pieces body ++ [.plain '}']) := by
    rw [pieces_cons (by decide) (by decide), pieces_append_of_last hclosed (by simp),
      pieces_cons (by decide) (by decide), pieces]
  rw [Delimiter.close?, hpieces, closePieces?_block hbody.neutral]
  simp [Piece.text, text_pieces]

/-- No literal begins with the sign of a definition. -/
theorem not_inLiteral_zero (t : Text) : ¬ InLiteral ('=' :: t) 0 := by
  have hstands : 0 ∈ positions '=' 0 (pieces ('=' :: t)) := by
    rw [pieces_cons (by decide) (by decide)]
    exact mem_positions_cons.mpr (.inl ⟨rfl, rfl⟩)
  exact (mem_positions_pieces.mp hstands).2

/-- The definition is found at the start of the text. -/
theorem at?_written (hname : ∀ c ∈ name, isNameChar c = true) (hne : name ≠ [])
    (hparams : IsPaired params) (hnests : NestsOnce params) (hbody : IsBalanced (pieces body))
    (hclosed : ∀ p ∈ (pieces body).getLast?, p.closed = true) :
    ∃ b : Block, Definition.ofBlock b = ⟨name, paramsOf params, body⟩
      ∧ Block.at? definitions (literalSpans (written name params body)) [] (written name params body)
        = .ok (some (b, [])) := by
  -- The list is closed at its own parenthesis, the header is all up to the brace, and the body
  -- is closed by the last brace.
  have hlist : closeParams? false (params ++ ')' :: '{' :: (body ++ ['}']))
      = some (params, '{' :: (body ++ ['}'])) :=
    closeParams?_of_le (fun front hfront => by simpa using hparams.nonneg front hfront)
      (fun front hfront => by simpa using hnests front hfront) (by simpa using hparams.total) _
  have htext : written name params body
      = ('=' :: (name ++ '(' :: (params ++ [')']))) ++ '{' :: (body ++ ['}']) := by
    simp [written]
  have hpattern : definitions.pattern
      (('=' :: (name ++ '(' :: (params ++ [')']))) ++ '{' :: (body ++ ['}']))
      = some ⟨('=' :: (name ++ '(' :: (params ++ [')']))).length, [some name, some params]⟩ := by
    rw [← htext]
    show header (written name params body) = _
    rw [written, header_named hname hne, hlist, Option.elim_some]
    congr 2
    simp only [List.length_cons, List.length_append, List.length_nil]
    omega
  have haccept : definitions.accept [] = true := rfl
  have houtside : insideAny (literalSpans (written name params body)) (Text.size []) = false := by
    rw [← Bool.not_eq_true, insideAny_iff_inLiteral]
    exact not_inLiteral_zero _
  obtain ⟨b, hgroups, hinside, -, hat⟩ :=
    Block.at?_of_close? rfl haccept houtside hpattern (close?_body hbody hclosed)
  refine ⟨b, ?_, htext ▸ hat⟩
  simp [Definition.ofBlock, Block.groupText, Block.group, hgroups, hinside]

/-- It is not found there if it has no name or its list is not closed. -/
theorem at?_written_eq_none (hname : ∀ c ∈ name, isNameChar c = true)
    (hparams : IsPaired params) (hdeep : ¬ (name ≠ [] ∧ NestsOnce params)) :
    Block.at? definitions (literalSpans (written name params body)) [] (written name params body)
      = .ok none := by
  by_cases hne : name = []
  · subst hne
    rfl
  · obtain ⟨deep, hprefix, hlt⟩ : ∃ deep, deep <+: params ∧ 1 < level deep := by
      simpa [NestsOnce, hne] using hdeep
    have hlist : closeParams? false (params ++ ')' :: '{' :: (body ++ ['}'])) = none :=
      closeParams?_of_lt (fun front hfront => by simpa using hparams.nonneg front hfront) hprefix
        (by simpa using hlt) _
    -- The header is the name alone, and what follows it is no brace.
    have hpattern : definitions.pattern (written name params body)
        = some ⟨1 + name.length, [some name, none]⟩ := by
      show header (written name params body) = _
      rw [written, header_named hname hne, hlist, Option.elim_none]
    have hafter : (written name params body).drop (1 + name.length)
        = '(' :: (params ++ ')' :: '{' :: (body ++ ['}'])) := by
      rw [written, Nat.add_comm, List.drop_succ_cons, List.drop_left]
    rw [Block.at?, hpattern]
    dsimp only
    rw [hafter]
    refine if_neg fun h => ?_
    cases h.1

/-! ### Taking out -/

/-- All of the text is taken out as one definition. -/
theorem extract_written (hname : ∀ c ∈ name, isNameChar c = true) (hne : name ≠ [])
    (hparams : IsPaired params) (hnests : NestsOnce params) (hbody : IsBalanced (pieces body))
    (hclosed : ∀ p ∈ (pieces body).getLast?, p.closed = true) :
    ∃ b : Block, Definition.ofBlock b = ⟨name, paramsOf params, body⟩
      ∧ Block.extract definitions (written name params body) = .ok ([], [b]) := by
  obtain ⟨b, hdefinition, hat⟩ := at?_written hname hne hparams hnests hbody hclosed
  refine ⟨b, hdefinition, ?_⟩
  rw [Block.extract, Block.cut, Block.cutFrom_of_at? hat, Block.cutFrom_nil rfl]
  rfl

/-- What is not found at the start of a text stays there. -/
theorem head?_of_extract {c : Char} {r t : Text} {blocks : List Block}
    (hat : Block.at? definitions (literalSpans (c :: r)) [] (c :: r) = .ok none)
    (h : Block.extract definitions (c :: r) = .ok (t, blocks)) : t.head? = some c := by
  rw [Block.extract, Block.cut, Block.cutFrom_cons_of_at? hat] at h
  obtain ⟨cut, hcut, heq⟩ := Node.exists_of_map_ok h
  obtain ⟨rest, -, rfl⟩ := Node.exists_of_map_ok hcut
  cases heq
  rw [Block.gaps_eq_fill, Cut.fill_prepend]
  rfl

/-- The definitions of a text are taken out of it and added to the table. -/
theorem run_extract_ok {t : Text} {blocks : List Block} {s : State}
    (h : Block.extract definitions s.text = .ok (t, blocks)) (job : Job) :
    extract.run job s
      = .ok () { s with text := t, mixins := (blocks.map Definition.ofBlock).foldl define s.mixins } := by
  unfold extract
  rw [run_bind_ok (run_get job s), h]
  rfl

/-- If this succeeds, the blocks have been found. -/
theorem exists_of_run_extract {job : Job} {s s' : State} (h : extract.run job s = .ok () s') :
    ∃ blocks, Block.extract definitions s.text = .ok (s'.text, blocks) := by
  cases hextract : Block.extract definitions s.text with
  | error e =>
      unfold extract at h
      rw [run_bind_ok (run_get job s), hextract] at h
      cases h
  | ok found =>
      rw [run_extract_ok hextract job] at h
      cases h
      exact ⟨found.2, rfl⟩

/-- A definition that is not found stays in the text. -/
theorem head?_of_run_preProcess (hname : ∀ c ∈ name, isNameChar c = true) (hparams : IsPaired params)
    (hnot : ¬ (name ≠ [] ∧ NestsOnce params)) {job : Job} {s s' : State}
    (hrun : (stage.run .preProcess).run job { s with text := written name params body } = .ok () s') :
    s'.text.head? = some '=' := by
  obtain ⟨blocks, hextract⟩ := exists_of_run_extract hrun
  exact head?_of_extract (at?_written_eq_none hname hparams hnot) hextract

/-- **Which definitions are registered.** Where the parentheses of the list are
paired and the body is in order, it depends on the name and on the levels of the
list. If the definition is not registered it stays in the text. -/
theorem extract_definition_iff (hname : ∀ c ∈ name, isNameChar c = true) (hparams : IsPaired params)
    (hbody : IsBalanced (pieces body)) (hclosed : ∀ p ∈ (pieces body).getLast?, p.closed = true)
    (job : Job) (s : State) :
    ((stage.run .preProcess).run job { s with text := written name params body }
        = .ok () { s with text := [], mixins := define s.mixins ⟨name, paramsOf params, body⟩ }
      ↔ name ≠ [] ∧ NestsOnce params)
    ∧ (¬ (name ≠ [] ∧ NestsOnce params) → ∀ s',
      (stage.run .preProcess).run job { s with text := written name params body } = .ok () s' →
        s'.text.head? = some '=') := by
  refine ⟨⟨?_, ?_⟩, fun hnot s' => head?_of_run_preProcess hname hparams hnot⟩
  · intro hrun
    by_contra hnot
    cases head?_of_run_preProcess hname hparams hnot hrun
  · rintro ⟨hne, hnests⟩
    obtain ⟨b, hdefinition, hextract⟩ := extract_written hname hne hparams hnests hbody hclosed
    show extract.run job { s with text := written name params body } = _
    rw [run_extract_ok hextract job]
    simp [hdefinition]

end

/-- A compilation without files. -/
def plainJob : Job := ⟨⟨"main.css".toList⟩, {}, .empty []⟩

/-- A call as a default, and a brace in a string of the body. -/
def button : Definition where
  name := "button-1".toList
  params := [⟨"a".toList, none⟩, ⟨"b".toList, some "rgb(1, 2)".toList⟩]
  template := "a\x7bb:'\x7d'\x7d".toList

/-- The definition is registered with its parameters and its default. -/
theorem extract_definition_button :
    (stage.run .preProcess).run plainJob
        { text := "=button-1($a, $b=rgb(1, 2))\x7ba\x7bb:'\x7d'\x7d\x7d".toList }
      = .ok () { mixins := define .empty button } := by
  have hname : ∀ c ∈ button.name, isNameChar c = true := List.all_eq_true.mp (by decide)
  have hparams : IsPaired "$a, $b=rgb(1, 2)".toList := by decide +kernel
  have hnests : NestsOnce "$a, $b=rgb(1, 2)".toList := by decide +kernel
  have hbody : IsBalanced (pieces button.template) := by decide +kernel
  have hclosed : ∀ p ∈ pieces button.template, p.closed = true :=
    List.all_eq_true.mp (by decide +kernel)
  have hread : paramsOf "$a, $b=rgb(1, 2)".toList = button.params := by decide +kernel
  have hrun := (extract_definition_iff hname hparams hbody
    (fun p hp => hclosed p (List.mem_of_getLast? hp)) plainJob {}).1.mpr ⟨by decide, hnests⟩
  rwa [hread] at hrun

/-- A call in a call. -/
def deepSheet : Text := "=m($a=f(g(1)))\x7bx:$a\x7d".toList

/-- It is not registered, and stays in the text without a report. -/
theorem extract_definition_left :
    deepSheet = written "m".toList "$a=f(g(1))".toList "x:$a".toList
    ∧ IsPaired "$a=f(g(1))".toList
    ∧ (stage.run .preProcess).run plainJob { text := deepSheet } = .ok () { text := deepSheet } := by
  have hextract : Block.extract definitions (State.text { text := deepSheet }) = .ok (deepSheet, []) := by
    decide +kernel
  exact ⟨rfl, by decide +kernel, run_extract_ok hextract plainJob⟩

end Mixin

end Stylesheet
