import Stylesheet.Mixin.Invocation
import Stylesheet.Proofs.Inert
import Stylesheet.Proofs.OpenStrings
import Stylesheet.Proofs.Parsed

/-!
# Values without their quotes

`unquote` drops quotes and blanks from both ends of a value, whatever they belong
to. Of the value `'A b', c` it drops the first quote and leaves the second one, and
the string that begins there has no end (`unquote_unpaired`).

A value begins in a string if one is open where the dropped characters end, and it
ends in a string if one is open where they begin again: `opening?` and `closing?` are
the quotes of these strings. If all strings were closed, those of the value are closed
exactly if the two are the same (`closed_unquote_iff`): both ends are outside strings,
or both in strings of one kind of quote, which may be the same string. If the value
begins outside strings, nothing more is asked. If it begins inside, what was in
strings is now outside, and strings may have no other quotes, backslashes or comment
marks in them (`IsTame`).

`unquoted_closed_iff` is about the three places where this is done: the entries of a
body, the arguments of invocations, and the defaults of parameters.
-/

set_option autoImplicit false

namespace Stylesheet

/-! ### Beginning and ending in strings -/

/-- What `unquote` drops. -/
def isDropped (c : Char) : Bool := isQuote c || isBlank c

/-- The quote of the string in which a value begins. The value is what is left of a
raw text, and `front` is what the raw text follows. -/
def opening? (front raw : Text) : Option Char := openQuote (front ++ raw.takeWhile isDropped)

/-- The quote of the string in which a value ends. -/
def closing? (front raw : Text) : Option Char :=
  openQuote (front ++ raw.takeWhile isDropped ++ unquote raw)

/-- Strings have no quotes in them but their own, and the value has no escapes, no
line feeds and no marks of comments. -/
structure IsTame (front raw : Text) : Prop where
  own : ∀ s ∈ strings (front ++ raw), s.countP isQuote = 2
  unescaped : Unescaped (unquote raw)

instance (front raw : Text) : Decidable (IsTame front raw) :=
  decidable_of_iff ((∀ s ∈ strings (front ++ raw), s.countP isQuote = 2) ∧ Unescaped (unquote raw))
    ⟨fun h => ⟨h.1, h.2⟩, fun h => ⟨h.own, h.unescaped⟩⟩

/-- At the end of the text no comment is open, nor may one begin there. -/
def OutsideComments (t : Text) : Prop :=
  ∀ p ∈ (pieces t).getLast?, p.string? = none → p.closed = true ∧ p ≠ .plain '/'

instance (t : Text) : Decidable (OutsideComments t) :=
  inferInstanceAs (Decidable (∀ p ∈ (pieces t).getLast?, _))

/-- A raw text is its value between what was dropped. -/
theorem exists_eq_unquote (raw : Text) :
    ∃ back, raw = raw.takeWhile isDropped ++ (unquote raw ++ back) := by
  obtain ⟨back, hback⟩ : unquote raw <+: raw.dropWhile isDropped := by
    show ((raw.dropWhile isDropped).reverse.dropWhile isDropped).reverse <+: _
    rw [← List.reverse_suffix, List.reverse_reverse]
    exact List.dropWhile_suffix isDropped
  exact ⟨back, by rw [hback, List.takeWhile_append_dropWhile]⟩

/-- Dropped characters begin no comment. -/
theorem OutsideComments.append {t dropped : Text} (h : OutsideComments t)
    (hdropped : ∀ c ∈ dropped, isDropped c = true) : OutsideComments (t ++ dropped) := by
  by_cases hne : dropped = []
  · rwa [hne, List.append_nil]
  intro p hp hstring
  -- The last piece is made of dropped characters, so it is no comment and no slash.
  have hinside : ∀ c ∈ p.text, c ∈ dropped := by
    intro c hc
    rcases pieces_append_cases t dropped with hpieces | ⟨front, x, x', back, hcut⟩
    · rw [hpieces, List.getLast?_append_of_ne_nil _ (pieces_ne_nil hne)] at hp
      rw [← text_pieces dropped]
      exact List.mem_flatMap.mpr ⟨p, List.mem_of_getLast? hp, hc⟩
    · rw [hcut.whole, List.getLast?_append_of_ne_nil _ (List.cons_ne_nil _ _)] at hp
      obtain ⟨more, -, -, hsplit⟩ := hcut.exists_more
      cases back with
      | nil =>
          -- A piece that is no string is not cut here.
          obtain rfl : x' = p := by simpa using hp
          have hx := h x (by rw [hcut.first]; simp) (hcut.string_iff.mpr hstring)
          rw [hcut.closed_eq_false hx.2] at hx
          cases hx.1
      | cons y back =>
          rw [List.getLast?_cons_cons] at hp
          rw [hsplit, List.mem_append]
          exact .inr (List.mem_flatMap.mpr ⟨p, List.mem_of_getLast? hp, hc⟩)
  have hslash : '/' ∉ p.text := by
    intro hmem
    cases hdropped '/' (hinside '/' hmem)
  rcases mem_pieces_cases (List.mem_of_getLast? hp)
    with ⟨c, rfl⟩ | ⟨q, inside, -, rfl⟩ | ⟨inside, rfl⟩
  · refine ⟨rfl, ?_⟩
    rintro heq
    exact hslash (by rw [heq]; exact List.mem_singleton_self _)
  · cases hstring
  · exact absurd List.mem_cons_self hslash

/-- Outside strings and comments, a text goes on with pieces of its own. -/
theorem OutsideComments.pieces_append {t : Text} (h : OutsideComments t)
    (hopen : openQuote t = none) (r : Text) : pieces (t ++ r) = pieces t ++ pieces r := by
  have hlast : ∀ p ∈ (pieces t).getLast?, p.closed = true ∧ p ≠ .plain '/' := by
    intro p hp
    cases hstring : p.string? with
    | none => exact h p hp hstring
    | some s =>
        obtain rfl := string?_eq_some.mp hstring
        rw [openQuote, hp] at hopen
        exact ⟨(Piece.openQuote_eq_none (List.mem_of_getLast? hp)).mp hopen, by simp⟩
  apply pieces_append_of_last
  · exact fun p hp => (hlast p hp).1
  · exact fun hp => absurd rfl (hlast _ hp).2

/-- Of a raw text with closed strings, the value has closed strings exactly if it
begins and ends in strings of the same quote, or begins and ends outside strings. -/
theorem closed_unquote_iff {front raw : Text} (h : StringsClosed (front ++ raw))
    (hfront : OutsideComments front) (htame : opening? front raw = none ∨ IsTame front raw) :
    StringsClosed (unquote raw) ↔ opening? front raw = closing? front raw := by
  obtain ⟨back, hraw⟩ := exists_eq_unquote raw
  have hclosed := h
  rw [hraw, ← List.append_assoc, ← List.append_assoc] at hclosed
  cases hopening : opening? front raw with
  | none =>
      -- The value begins outside strings, so its strings are those of the raw text.
      have hdropped : ∀ c ∈ raw.takeWhile isDropped, isDropped c = true :=
        fun c hc => List.mem_takeWhile_imp hc
      have hpieces := (hfront.append hdropped).pieces_append hopening (unquote raw)
      have hbefore : StringsClosed (front ++ raw.takeWhile isDropped) := by
        rw [List.append_assoc] at hclosed
        exact hclosed.front_iff.mpr hopening
      rw [eq_comm, closing?, ← hclosed.front_iff]
      constructor
      · intro hvalue s hs
        rw [mem_strings, hpieces, List.mem_append, ← mem_strings, ← mem_strings] at hs
        exact hs.elim (hbefore s) (hvalue s)
      · intro hvalue
        exact hvalue.of_isInfix (by rw [hpieces]; exact (List.suffix_append _ _).isInfix)
  | some q =>
      have htame := htame.resolve_left (by simp [hopening])
      have hown := htame.own
      rw [hraw, ← List.append_assoc, ← List.append_assoc] at hown
      rw [htame.unescaped.quoteRow.stringsClosed_iff,
        openQuote_append_iff hclosed hown htame.unescaped hopening, closing?, eq_comm]

-- The string of the value is what stood between the first string and the last one.
example : IsTame [] "'A', \"B c\", 'D'".toList
    ∧ opening? [] "'A', \"B c\", 'D'".toList = some apostrophe
    ∧ closing? [] "'A', \"B c\", 'D'".toList = some apostrophe
    ∧ strings (unquote "'A', \"B c\", 'D'".toList) = ["', \"B c\", '".toList] := by
  decide +kernel

/-! ### Entries, arguments and defaults -/

/-- A value is what is left of a raw text, and what `closed_unquote_iff` says of it. -/
structure Unquotes (front raw value : Text) : Prop where
  eq : value = unquote raw
  closed : StringsClosed (front ++ raw)
  paired : OutsideComments front → opening? front raw = none ∨ IsTame front raw →
    (StringsClosed value ↔ opening? front raw = closing? front raw)

/-- Where the strings up to the end of the part are closed, unquoting does what
is asked of it. -/
theorem unquotes_of_closed (front : Text) {raw : Text} (h : StringsClosed (front ++ raw)) :
    Unquotes front raw (unquote raw) :=
  ⟨rfl, h, closed_unquote_iff h⟩

/-- What stands behind a character outside literals has closed strings if the whole
text has. -/
theorem StringsClosed.of_splitTopOnce {target : Char} {t front back : Text} (h : StringsClosed t)
    (hsplit : splitTopOnce target t = some (front, back)) : StringsClosed back := by
  obtain ⟨before, behind, hpieces, -, rfl, -, -⟩ := exists_of_splitTopOncePieces hsplit
  have hrow := isRow_pieces t
  rw [hpieces] at hrow
  have hbehind : pieces (textOf behind) = behind := hrow.behind.tail
  apply h.of_isInfix
  rw [hbehind, hpieces]
  exact (List.suffix_cons _ _).isInfix.trans (List.suffix_append _ _).isInfix

/-- Each entry of a body comes from a segment of it, the value from what stands behind
the colon. -/
theorem unquotes_properties {body : Text} (h : StringsClosed body) :
    ∀ entry ∈ properties body, ∃ segment ∈ splitTop ';' body, ∃ name raw,
      splitTopOnce ':' (Text.trim segment) = some (name, raw) ∧ entry.1 = Text.trim name
        ∧ Unquotes [] raw entry.2 := by
  intro entry hentry
  rw [properties, List.mem_filterMap] at hentry
  obtain ⟨segment, hsegment, hproperty⟩ := hentry
  cases hsplit : splitTopOnce ':' (Text.trim segment) with
  | none =>
      rw [property?, hsplit] at hproperty
      cases hproperty
  | some found =>
      obtain ⟨name, raw⟩ := found
      have hraw : StringsClosed raw := (h.of_mem_splitTop hsegment).trim.of_splitTopOnce hsplit
      refine ⟨segment, hsegment, name, raw, hsplit, ?_⟩
      rw [property?, hsplit] at hproperty
      dsimp only at hproperty
      -- Without a name there is no entry.
      split at hproperty
      · cases hproperty
      · cases hproperty
        exact ⟨rfl, unquotes_of_closed [] hraw⟩

/-- What is found at the places of a text was found at one of them. -/
theorem Cut.exists_of_mem_tryScanFrom {α ε : Type}
    {find? : Text → Text → Except ε (Option (α × Nat))} {t behind ahead : Text} {skip : Nat}
    {cut : Cut α} (hplace : (behind, ahead) ∈ places t)
    (h : tryScanFrom find? behind skip ahead = .ok cut) {a : α} (ha : a ∈ cut.items) :
    ∃ p ∈ places t, ∃ n, find? p.1 p.2 = .ok (some (a, n)) := by
  induction ahead generalizing behind skip cut with
  | nil =>
      rw [tryScanFrom] at h
      cases h
      cases ha
  | cons c r ih =>
      -- Each step goes to a place of the same text.
      have hnext := mem_places_cons hplace
      cases skip with
      | succ skip =>
          rw [tryScanFrom] at h
          exact ih hnext h ha
      | zero =>
          rw [tryScanFrom] at h
          split at h
          · cases h
          · rename_i b n hfind
            obtain ⟨rest, hrest, rfl⟩ := Node.exists_of_map_ok h
            rw [items_item, List.mem_cons] at ha
            rcases ha with rfl | ha
            · exact ⟨_, hplace, n, hfind⟩
            · exact ih hnext hrest ha
          · obtain ⟨rest, hrest, rfl⟩ := Node.exists_of_map_ok h
            rw [items_prepend] at ha
            exact ih hnext hrest ha

/-- The two parts with the character between them are the text. -/
theorem Text.eq_append_of_splitOnce {c : Char} {t front back : Text}
    (h : splitOnce c t = some (front, back)) : t = front ++ [c] ++ back := by
  rw [splitOnce] at h
  split at h
  · cases h
  · rename_i d r hrest
    cases h
    have hd : d = c := by
      have hhead := List.head?_dropWhile_not (· != c) t
      rw [hrest] at hhead
      simpa using hhead
    conv_lhs => rw [← List.takeWhile_append_dropWhile (p := (· != c)) (l := t), hrest, hd]
    simp

namespace Mixin

/-- The list between the parentheses of an invocation in a text. -/
def Invocation.HasList (t : Text) (i : Invocation) (list : Text) : Prop :=
  ∃ front gap after, t = front ++ '+' :: (i.name ++ (gap ++ '(' :: (list ++ ')' :: after)))
    ∧ i.start = Text.size front ∧ Text.blank gap = true
    ∧ Delimiter.paren.close? ('(' :: (list ++ ')' :: after)) = some ('(' :: list, after)

/-- The arguments of an invocation come from the list between its parentheses. -/
theorem Invocation.args_of_take? {behind ahead : Text} {i : Invocation} {n : Nat}
    (h : take? behind ahead = .ok (some (i, n))) (hargs : i.args ≠ []) :
    ∃ list, i.HasList (behind.reverse ++ ahead) list ∧ i.args = arguments list := by
  unfold take? at h
  split at h
  · rename_i r
    dsimp only at h
    split at h
    · cases h
    split at h
    · cases h
      exact absurd rfl hargs
    · rename_i rest hrest
      split at h
      · cases h
      · rename_i inside after hclose
        cases h
        have hinside := Delimiter.close?_eq hclose
        -- What was cut off begins with the opening parenthesis.
        cases inside with
        | nil => cases (List.cons.inj hinside).1
        | cons c list =>
            obtain ⟨rfl, rfl⟩ := List.cons.inj hinside
            refine ⟨list, ⟨behind.reverse, (r.dropWhile isNameChar).takeWhile isBlank, after, ?_,
              (Text.size_reverse behind).symm, ?_, hclose⟩, rfl⟩
            · have hgap : (r.dropWhile isNameChar).takeWhile isBlank
                  ++ '(' :: (list ++ ')' :: after) = r.dropWhile isNameChar := by
                have happend :=
                  List.takeWhile_append_dropWhile (p := isBlank) (l := r.dropWhile isNameChar)
                rwa [hrest] at happend
              show _ = behind.reverse ++ '+' :: (r.takeWhile isNameChar ++ _)
              rw [hgap, List.takeWhile_append_dropWhile]
            · exact Text.blank_iff.mpr fun c hc => List.mem_takeWhile_imp hc
    · cases h
  · cases h

/-- Each argument comes from a part of the list. -/
theorem Invocation.unquotes_arguments {list : Text} (h : StringsClosed list) :
    ∀ arg ∈ arguments list, ∃ part ∈ splitTop ',' list, Unquotes [] part arg := by
  intro arg harg
  rw [arguments] at harg
  split at harg
  · cases harg
  · obtain ⟨part, hpart, rfl⟩ := List.mem_map.mp harg
    exact ⟨part, hpart, unquotes_of_closed [] (h.of_mem_splitTop hpart)⟩

/-- The invocations of a text have their arguments from their lists. -/
theorem Invocation.unquotes_find {t : Text} {found : List Invocation} (h : find t = .ok found) :
    ∀ i ∈ found, i.args ≠ [] → ∃ list, i.HasList t list
      ∧ (StringsClosed list →
        ∀ arg ∈ i.args, ∃ part ∈ splitTop ',' list, Unquotes [] part arg) := by
  intro i hi hargs
  obtain ⟨cut, hcut, rfl⟩ := Node.exists_of_map_ok h
  obtain ⟨p, hp, n, hat⟩ := Cut.exists_of_mem_tryScanFrom (mem_places.mpr rfl) hcut hi
  rw [at?] at hat
  split at hat
  · -- A sign in a literal is no invocation.
    cases hat
  · obtain ⟨list, hlist, hargs⟩ := args_of_take? hat hargs
    rw [← mem_places.mp hp] at hlist
    refine ⟨list, hlist, fun hclosed => ?_⟩
    rw [hargs]
    exact unquotes_arguments hclosed

/-- Each default comes from a part of the list, the value from what stands behind the
first equals sign, wherever that is. -/
theorem unquotes_paramsOf {list : Text} (h : StringsClosed list) :
    ∀ param ∈ paramsOf list, ∀ value ∈ param.default, ∃ part ∈ splitTop ',' list, ∃ name raw,
      Text.splitOnce '=' (Text.trim part) = some (name, raw)
        ∧ Unquotes (name ++ ['=']) raw value := by
  intro param hparam value hvalue
  rw [paramsOf, List.mem_map] at hparam
  obtain ⟨t, ht, rfl⟩ := hparam
  obtain ⟨part, hpart, rfl⟩ := List.mem_map.mp (List.mem_filter.mp ht).1
  cases hsplit : Text.splitOnce '=' (Text.trim part) with
  | none =>
      rw [Param.ofText, hsplit] at hvalue
      cases hvalue
  | some found =>
      obtain ⟨name, raw⟩ := found
      refine ⟨part, hpart, name, raw, hsplit, ?_⟩
      rw [Param.ofText, hsplit] at hvalue
      cases hvalue
      -- The sign may stand in a string, so the part is kept together.
      apply unquotes_of_closed
      have htrim := (h.of_mem_splitTop hpart).trim
      rwa [Text.eq_append_of_splitOnce hsplit] at htrim

end Mixin

/-- Where quotes are dropped: of the entries of a body, of the arguments of the
invocations that a text has, and of the defaults in a list of parameters, all with
closed strings. Every value is what is left of a part between separators, and its
strings are closed exactly if it begins and ends in strings of the same quote, or
begins and ends outside. For defaults the sign may stand in a string, and the value
begins in it. -/
theorem unquoted_closed_iff {body t params : Text} {found : List Mixin.Invocation}
    (hbody : StringsClosed body) (hfound : Mixin.Invocation.find t = .ok found)
    (hparams : StringsClosed params) :
    (∀ entry ∈ properties body, ∃ segment ∈ splitTop ';' body, ∃ name raw,
      splitTopOnce ':' (Text.trim segment) = some (name, raw) ∧ entry.1 = Text.trim name
        ∧ Unquotes [] raw entry.2)
      ∧ (∀ i ∈ found, i.args ≠ [] → ∃ list, i.HasList t list ∧ (StringsClosed list →
        ∀ arg ∈ i.args, ∃ part ∈ splitTop ',' list, Unquotes [] part arg))
      ∧ ∀ param ∈ Mixin.paramsOf params, ∀ value ∈ param.default,
        ∃ part ∈ splitTop ',' params, ∃ name raw,
          Text.splitOnce '=' (Text.trim part) = some (name, raw)
            ∧ Unquotes (name ++ ['=']) raw value :=
  ⟨unquotes_properties hbody, Mixin.Invocation.unquotes_find hfound,
    Mixin.unquotes_paramsOf hparams⟩

/-- Strings at both ends of a value, strings in the middle only, a string that is the
whole value, and a default behind a sign in a string. -/
theorem unquoted_closed_sample :
    let body := "f: 'A', \"B c\", 'D'; g: u(1) \"e\" f".toList
    let t := "+m('x', y 'it' z, \"p\"); +n;".toList
    let params := "$p='q', 'a=b', s=\"t u\"".toList
    let found : List Mixin.Invocation :=
      [⟨['m'], ["x".toList, "y 'it' z".toList, "p".toList], 0, 23⟩, ⟨['n'], [], 24, 27⟩]
    properties body = [("f".toList, "A', \"B c\", 'D".toList), ("g".toList, "u(1) \"e\" f".toList)]
      ∧ Mixin.Invocation.find t = .ok found
      ∧ (Mixin.paramsOf params).map Mixin.Param.default
        = [some "q".toList, some "b".toList, some "t u".toList]
      ∧ (∀ entry ∈ properties body, ∃ raw, Unquotes [] raw entry.2)
      ∧ (∀ i ∈ found, i.args ≠ [] → ∃ list, i.HasList t list ∧ (StringsClosed list →
        ∀ arg ∈ i.args, ∃ part ∈ splitTop ',' list, Unquotes [] part arg))
      ∧ ∀ param ∈ Mixin.paramsOf params, ∀ value ∈ param.default,
        ∃ front raw, Unquotes front raw value := by
  intro body t params found
  have hfound : Mixin.Invocation.find t = .ok found := by decide +kernel
  have hclosed : StringsClosed body ∧ StringsClosed params := by decide +kernel
  obtain ⟨hentries, hargs, hdefaults⟩ := unquoted_closed_iff hclosed.1 hfound hclosed.2
  refine ⟨by decide +kernel, hfound, by decide +kernel, ?_, hargs, ?_⟩
  · intro entry hentry
    obtain ⟨-, -, -, raw, -, -, hraw⟩ := hentries entry hentry
    exact ⟨raw, hraw⟩
  · intro param hparam value hvalue
    obtain ⟨-, -, name, raw, -, hraw⟩ := hdefaults param hparam value hvalue
    exact ⟨name ++ ['='], raw, hraw⟩

/-- A string at one end of a value only, and a quote in a string that was the whole
value: strings were closed, and are open. The same of an argument and of a default. -/
theorem unquote_unpaired :
    StringsClosed "f: 'A b', c; g: \"it's\"".toList
      ∧ properties "f: 'A b', c; g: \"it's\"".toList
        = [("f".toList, "A b', c".toList), ("g".toList, "it's".toList)]
      ∧ ¬ StringsClosed "A b', c".toList ∧ ¬ StringsClosed "it's".toList
      ∧ StringsClosed "'a' b, c \"d\"".toList
      ∧ Mixin.Invocation.find "+m('a' b, c \"d\");".toList
        = .ok [⟨['m'], ["a' b".toList, "c \"d".toList], 0, 17⟩]
      ∧ ¬ StringsClosed "a' b".toList ∧ ¬ StringsClosed "c \"d".toList
      ∧ StringsClosed "$p='x' y, 'a=b\"c'".toList
      ∧ Mixin.paramsOf "$p='x' y, 'a=b\"c'".toList
        = [⟨['p'], some "x' y".toList⟩, ⟨"'a".toList, some "b\"c".toList⟩]
      ∧ ¬ StringsClosed "x' y".toList ∧ ¬ StringsClosed "b\"c".toList := by
  decide +kernel

end Stylesheet
