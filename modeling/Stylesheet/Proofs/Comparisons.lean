import Stylesheet.Proofs.Conditionals

/-!
# Conditions are cut at their first operator

`Condition.parse` goes over an expression character by character and keeps
track of the quote that is open. What is quoted can be told without going
along (`quotedMarks`): a quote takes everything up to the next quote of its
kind with it, or up to the end. `parse_exact` says what comes of an expression
in these terms. It is cut at the first operator that is not quoted, the longest
one that stands there, and it cannot be read exactly if a wide character that is
not quoted comes before.

One place decides what comes of it, the first that is not quoted and has an
operator or a wide character (`Decides`). `Outcome` says this of the rest of an
expression from any place on, and it is carried back over a character and over
a quotation by one lemma (`Outcome.behind`).
-/

set_option autoImplicit false

namespace Stylesheet

namespace Operator

/-- Every operator is looked for. -/
theorem mem_all (op : Operator) : op ∈ all := by
  cases op <;> decide

/-- An operator is known by its symbol. -/
theorem symbol_injective (op op' : Operator) : op.symbol = op'.symbol → op = op' := by
  cases op <;> cases op' <;> decide

/-- Nothing is found just if no operator stands at the front. -/
theorem take?_eq_none {t : Text} : take? t = none ↔ ∀ op : Operator, ¬ op.symbol <+: t := by
  rw [← Option.not_isSome_iff_eq_none, Condition.isSome_take?]
  simp [mem_all]

/-- The operator at the front of a text is the longest one there: longer ones
were looked for before. -/
theorem take?_eq_some {t rest : Text} {op : Operator} (h : take? t = some (op, rest)) :
    t = op.symbol ++ rest ∧ ∀ op' : Operator, op'.symbol <+: t → op'.symbol.length ≤ op.symbol.length := by
  have hsorted : all.Pairwise fun op op' => op'.symbol.length ≤ op.symbol.length := by decide
  obtain ⟨before, found, after, hall, hfound, hnone⟩ := List.findSome?_eq_some_iff.mp h
  obtain ⟨rest', hafter, heq⟩ := Option.map_eq_some_iff.mp hfound
  cases heq
  refine ⟨Text.eq_append_of_after? hafter, fun op' hop' => ?_⟩
  have hmem := mem_all op'
  rw [hall, List.mem_append, List.mem_cons] at hmem
  rw [hall, List.pairwise_append, List.pairwise_cons] at hsorted
  rcases hmem with hbefore | rfl | hmem
  · have hnot := hnone op' hbefore
    rw [Option.map_eq_none_iff, ← Option.not_isSome_iff_eq_none, Condition.isSome_after?,
      List.isPrefixOf_iff_prefix] at hnot
    exact absurd hop' hnot
  · exact Nat.le_refl _
  · exact hsorted.2.1.1 op' hmem

end Operator

namespace Condition

/-! ### What is quoted -/

/-- For each character of an expression, whether it is quoted: it opens or
closes a quotation or is inside of one. A quotation ends with the next quote of
its kind, or with the expression. -/
def quotedMarks (t : Text) : List Bool :=
  match t with
  | [] => []
  | c :: r =>
    if isQuote c then
      match _h : r.dropWhile (· != c) with
      | [] => (c :: r).map fun _ => true
      | _ :: rest => (c :: r.takeWhile (· != c) ++ [c]).map (fun _ => true) ++ quotedMarks rest
    else false :: quotedMarks r
termination_by t.length
decreasing_by
  · have hlength := (List.dropWhile_suffix (l := r) (· != c)).length_le
    rw [_h, List.length_cons] at hlength
    rw [List.length_cons]
    omega
  · simp

/-- A character of an expression is not quoted. -/
def Unquoted (t : Text) (i : Nat) : Prop := (quotedMarks t)[i]? = some false

/-- An operator stands at a place. -/
def OperatorAt (t : Text) (i : Nat) (op : Operator) : Prop := op.symbol <+: t.drop i

/-- The first place with an operator that is not quoted. -/
structure IsFirstOperator (t : Text) (p : Nat) : Prop where
  unquoted : Unquoted t p
  stands : ∃ op, OperatorAt t p op
  first : ∀ i < p, Unquoted t i → ∀ op, ¬ OperatorAt t i op

/-- No longer operator stands at the place. -/
structure IsLongestAt (t : Text) (p : Nat) (op : Operator) : Prop where
  stands : OperatorAt t p op
  longest : ∀ op', OperatorAt t p op' → op'.symbol.length ≤ op.symbol.length

/-- A character outside ASCII stands at a place. -/
def IsWideAt (t : Text) (i : Nat) : Prop := ∃ c, t[i]? = some c ∧ 127 < c.toNat

/-- What comes of an expression is decided at this place, unless it is
quoted. -/
def Decides (t : Text) (i : Nat) : Prop := (∃ op, OperatorAt t i op) ∨ IsWideAt t i

/-! ### Characters and quotations -/

section

variable {q : Char} {body : Text}

/-- A character outside quotes is not quoted. -/
theorem quotedMarks_plain {c : Char} (hc : isQuote c = false) (r : Text) :
    quotedMarks (c :: r) = [false] ++ quotedMarks r := by
  rw [quotedMarks, if_neg (by simp [hc])]
  rfl

/-- A text without the quote, as the scan asks for it. -/
theorem bne_of_not_mem (hbody : q ∉ body) : ∀ c ∈ body, (c != q) = true := by
  intro c hc
  simpa using fun h : c = q => hbody (h ▸ hc)

/-- A quotation is quoted with its quotes. -/
theorem quotedMarks_closed (hq : isQuote q = true) (hbody : q ∉ body) (rest : Text) :
    quotedMarks (q :: (body ++ q :: rest))
      = (q :: body ++ [q]).map (fun _ => true) ++ quotedMarks rest := by
  have hdrop : (body ++ q :: rest).dropWhile (· != q) = q :: rest := by
    rw [List.dropWhile_append_of_pos (bne_of_not_mem hbody)]
    simp
  have htake : (body ++ q :: rest).takeWhile (· != q) = body := by
    rw [List.takeWhile_append_of_pos (bne_of_not_mem hbody)]
    simp
  rw [quotedMarks, if_pos hq]
  split
  · simp_all
  · rename_i heq
    rw [hdrop] at heq
    cases heq
    rw [htake]

/-- One that is not closed is quoted to the end. -/
theorem quotedMarks_unclosed (hq : isQuote q = true) (hbody : q ∉ body) :
    quotedMarks (q :: body) = (q :: body).map fun _ => true := by
  have hdrop : body.dropWhile (· != q) = [] := List.dropWhile_eq_nil_iff.mpr (bne_of_not_mem hbody)
  rw [quotedMarks, if_pos hq]
  split
  · rfl
  · simp_all

-- A quote of the other kind is inside the first quotation, and the second one stays open.
example : quotedMarks "a'\">'> \"b".toList
    = [false, true, true, true, true, false, false, true, true] := by
  decide +kernel

/-- Inside a quotation nothing is looked for. -/
theorem parseFrom_quoted (hbody : q ∉ body) (seen rest : Text) :
    parseFrom (some q) seen (body ++ rest) = parseFrom (some q) (body.reverse ++ seen) rest := by
  induction body generalizing seen with
  | nil => rfl
  | cons c body ih =>
      rw [List.mem_cons, not_or] at hbody
      obtain ⟨hc, hbody⟩ := hbody
      rw [List.cons_append, parseFrom, if_neg (Ne.symm hc), ih hbody]
      simp

/-- An expression that begins with a quote begins with a quotation. -/
theorem exists_quotation (q : Char) (r : Text) :
    q ∉ r ∨ ∃ body rest, r = body ++ q :: rest ∧ q ∉ body := by
  by_cases hmem : q ∈ r
  · exact .inr (List.eq_append_cons_of_mem hmem)
  · exact .inl hmem

end

/-! ### The place that decides -/

/-- What comes of an expression, behind the text that was seen. -/
inductive Outcome (seen t : Text) : Except BrokenCharacter (Option Condition) → Prop where
  | nothing (hquiet : ∀ i, Unquoted t i → ¬ Decides t i) : Outcome seen t (.ok none)
  | broken {p : Nat} (hunquoted : Unquoted t p) (hwide : IsWideAt t p)
      (hquiet : ∀ i < p, Unquoted t i → ¬ Decides t i) : Outcome seen t (.error {})
  | found {p : Nat} {op : Operator} (hunquoted : Unquoted t p) (hlongest : IsLongestAt t p op)
      (hquiet : ∀ i < p, Unquoted t i → ¬ Decides t i) :
      Outcome seen t (.ok (some ⟨Operand.parse (seen.reverse ++ t.take p), op,
        Operand.parse (t.drop (p + op.symbol.length))⟩))

/-- Over a front at which nothing is decided. -/
theorem Outcome.behind {seen front t : Text} {marks : List Bool}
    {result : Except BrokenCharacter (Option Condition)}
    (h : Outcome (front.reverse ++ seen) t result)
    (hmarks : quotedMarks (front ++ t) = marks ++ quotedMarks t) (hlength : marks.length = front.length)
    (hquiet : ∀ i < front.length, Unquoted (front ++ t) i → ¬ Decides (front ++ t) i) :
    Outcome seen (front ++ t) result := by
  have hunquoted : ∀ i, Unquoted (front ++ t) (front.length + i) ↔ Unquoted t i := by
    intro i
    rw [Unquoted, Unquoted, hmarks, ← hlength, List.getElem?_append_right (Nat.le_add_right _ _),
      Nat.add_sub_cancel_left]
  have hop : ∀ i op, OperatorAt (front ++ t) (front.length + i) op ↔ OperatorAt t i op := by
    intro i op
    rw [OperatorAt, OperatorAt, List.drop_length_add_append]
  have hwide : ∀ i, IsWideAt (front ++ t) (front.length + i) ↔ IsWideAt t i := by
    intro i
    rw [IsWideAt, IsWideAt, List.getElem?_append_right (Nat.le_add_right _ _),
      Nat.add_sub_cancel_left]
  -- A place is in the front, or it is a place of the rest.
  have hbefore : ∀ p, (∀ i < p, Unquoted t i → ¬ Decides t i) →
      ∀ i < front.length + p, Unquoted (front ++ t) i → ¬ Decides (front ++ t) i := by
    intro p hp i hi
    rcases Nat.lt_or_ge i front.length with hlt | hge
    · exact hquiet i hlt
    · obtain ⟨k, rfl⟩ := Nat.exists_eq_add_of_le hge
      simp only [hunquoted, Decides, hop, hwide]
      exact hp k (by omega)
  cases h with
  | nothing hnone =>
      refine .nothing fun i => ?_
      exact hbefore (i + 1) (fun k _ => hnone k) i (by omega)
  | broken hp hpwide hpquiet =>
      exact .broken ((hunquoted _).mpr hp) ((hwide _).mpr hpwide) (hbefore _ hpquiet)
  | found hp hlongest hpquiet =>
      rename_i p op
      have hlongest' : IsLongestAt (front ++ t) (front.length + p) op :=
        ⟨(hop p op).mpr hlongest.stands, fun op' hop' => hlongest.longest op' ((hop p op').mp hop')⟩
      have hfound : Outcome seen (front ++ t) _ :=
        .found ((hunquoted p).mpr hp) hlongest' (hbefore p hpquiet)
      rw [List.take_length_add_append, Nat.add_assoc, List.drop_length_add_append] at hfound
      rwa [List.reverse_append, List.reverse_reverse, List.append_assoc]

/-- A character with more than one byte is one outside ASCII. -/
theorem one_lt_utf8Size_iff (c : Char) : 1 < c.utf8Size ↔ 127 < c.toNat := by
  have hone := c.utf8Size_eq_one_iff
  have hpos := c.utf8Size_pos
  rw [UInt32.le_iff_toNat_le] at hone
  have hval : c.val.toNat = c.toNat := rfl
  have h127 : (127 : UInt32).toNat = 127 := rfl
  omega

/-- In a quotation everything is quoted. -/
theorem not_unquoted {t quotation : Text} {marks : List Bool}
    (h : quotedMarks t = quotation.map (fun _ => true) ++ marks) {i : Nat} (hi : i < quotation.length) :
    ¬ Unquoted t i := by
  rw [Unquoted, h, List.getElem?_append_left (by simpa using hi), List.getElem?_map]
  simp [hi]

section

variable {seen rest : Text} {result : Except BrokenCharacter (Option Condition)}

/-- A quotation is passed over. -/
theorem Outcome.quotation {q : Char} {body : Text} (hq : isQuote q = true) (hbody : q ∉ body)
    (h : Outcome (q :: (body.reverse ++ q :: seen)) rest result) :
    Outcome seen (q :: (body ++ q :: rest)) result := by
  have hmarks := quotedMarks_closed hq hbody rest
  have htext : q :: (body ++ q :: rest) = (q :: body ++ [q]) ++ rest := by simp
  rw [htext] at hmarks ⊢
  refine Outcome.behind (by simpa using h) hmarks (by simp) fun i hi hunquoted => ?_
  exact absurd hunquoted (not_unquoted hmarks hi)

/-- In a quotation that is not closed nothing is found. -/
theorem outcome_unclosed {q : Char} {body : Text} (hq : isQuote q = true) (hbody : q ∉ body) :
    Outcome seen (q :: body) (.ok none) := by
  have hmarks := quotedMarks_unclosed hq hbody
  refine .nothing fun i hi => absurd hi ?_
  by_cases hlt : i < (q :: body).length
  · exact not_unquoted (by rw [hmarks, List.append_nil]) hlt
  · rw [Unquoted, hmarks, List.getElem?_eq_none (by simpa using hlt)]
    simp

/-- A character outside quotes is an operator's first, or wide, or nothing is
decided at it. -/
theorem Outcome.plain {c : Char} (hc : isQuote c = false)
    (h : Outcome (c :: seen) rest (parseFrom none (c :: seen) rest)) :
    Outcome seen (c :: rest) (parseFrom none seen (c :: rest)) := by
  have hmarks := quotedMarks_plain hc rest
  -- The place at the front is not quoted, so an operator or a wide character here decides.
  have hunquoted : Unquoted (c :: rest) 0 := by
    rw [Unquoted, hmarks]
    rfl
  rw [parseFrom, if_neg (by simp [hc])]
  cases htake : Operator.take? (c :: rest) with
  | some taken =>
      obtain ⟨op, back⟩ := taken
      obtain ⟨htext, hlongest⟩ := Operator.take?_eq_some htake
      have hat : IsLongestAt (c :: rest) 0 op := ⟨⟨back, htext.symm⟩, hlongest⟩
      have hfound : Outcome seen (c :: rest) _ :=
        .found hunquoted hat fun i hi => absurd hi (Nat.not_lt_zero i)
      rwa [List.take_zero, List.append_nil, Nat.zero_add, htext, List.drop_left, ← htext] at hfound
  | none =>
      dsimp only
      split
      · rename_i hwide
        exact .broken hunquoted ⟨c, rfl, (one_lt_utf8Size_iff c).mp hwide⟩
          fun i hi => absurd hi (Nat.not_lt_zero i)
      · rename_i hwide
        -- Nothing is decided here, and what follows does not depend on it.
        have hnext : Outcome ([c].reverse ++ seen) rest _ := h
        refine hnext.behind hmarks rfl fun i hi _ hdecides => ?_
        obtain rfl : i = 0 := by simpa using hi
        rcases hdecides with ⟨op, hop⟩ | ⟨d, hd, hwide'⟩
        · exact Operator.take?_eq_none.mp htake op hop
        · cases hd
          exact hwide ((one_lt_utf8Size_iff c).mpr hwide')

end

/-- What comes of an expression from a place outside quotes on. -/
theorem outcome_parseFrom (seen t : Text) : Outcome seen t (parseFrom none seen t) := by
  -- By the length of the rest, because a quotation is passed in one step.
  induction hn : t.length using Nat.strongRecOn generalizing seen t with
  | _ n ih =>
    cases t with
    | nil => exact .nothing fun i hi => by simp [Unquoted, quotedMarks] at hi
    | cons c r =>
        rw [List.length_cons] at hn
        cases hc : isQuote c with
        | false => exact .plain hc (ih r.length (by omega) _ _ rfl)
        | true =>
            rw [parseFrom, if_pos hc]
            rcases exists_quotation c r with hr | ⟨body, rest, rfl, hbody⟩
            · have hall := parseFrom_quoted hr (c :: seen) []
              rw [List.append_nil, parseFrom] at hall
              rw [hall]
              exact outcome_unclosed hc hr
            · rw [parseFrom_quoted hbody, parseFrom, if_pos rfl]
              refine .quotation hc hbody (ih rest.length ?_ _ _ rfl)
              rw [← hn, List.length_append, List.length_cons]
              omega

/-! ### What comes of an expression -/

/-- A wide character that is not quoted stands before every operator that is
not quoted. -/
def Breaks (t : Text) : Prop :=
  ∃ i, Unquoted t i ∧ IsWideAt t i ∧ ∀ p, IsFirstOperator t p → i < p

/-- No operator begins with a wide character. -/
theorem not_operatorAt_of_isWideAt {t : Text} {i : Nat} (h : IsWideAt t i) (op : Operator) :
    ¬ OperatorAt t i op := by
  obtain ⟨c, hc, hwide⟩ := h
  rintro ⟨rest, hrest⟩
  have hhead : (op.symbol ++ rest).head? = some c := by
    rw [hrest, List.head?_drop, hc]
  cases op <;> cases hhead <;> revert hwide <;> decide

/-- There is one first operator at most. -/
theorem IsFirstOperator.unique {t : Text} {p p' : Nat} (h : IsFirstOperator t p)
    (h' : IsFirstOperator t p') : p = p' := by
  obtain ⟨op, hop⟩ := h.stands
  obtain ⟨op', hop'⟩ := h'.stands
  rcases Nat.lt_trichotomy p p' with hlt | heq | hlt
  · exact absurd hop (h'.first p hlt h.unquoted op)
  · exact heq
  · exact absurd hop' (h.first p' hlt h'.unquoted op')

/-- And one longest operator at a place: two of the same length are the same
front of the text. -/
theorem IsLongestAt.unique {t : Text} {p : Nat} {op op' : Operator} (h : IsLongestAt t p op)
    (h' : IsLongestAt t p op') : op = op' := by
  have hlength := Nat.le_antisymm (h'.longest op h.stands) (h.longest op' h'.stands)
  exact Operator.symbol_injective _ _ (List.IsPrefix.eq_of_length
    (List.prefix_of_prefix_length_le h.stands h'.stands (Nat.le_of_eq hlength)) hlength)

/-- What comes of an expression. It cannot be read exactly if a wide character that is
not quoted stands before the first operator that is not quoted, or anywhere if there is
no such operator. Otherwise there is no condition in it if there is no such operator,
and else it is cut there at the longest operator. -/
theorem parse_exact (t : Text) :
    (parse t = .error {} ↔ Breaks t)
    ∧ (parse t = .ok none ↔ ¬ Breaks t ∧ ∀ p, ¬ IsFirstOperator t p)
    ∧ ∀ c, parse t = .ok (some c) ↔ ¬ Breaks t ∧ ∃ p op, IsFirstOperator t p ∧ IsLongestAt t p op
      ∧ c = ⟨Operand.parse (t.take p), op, Operand.parse (t.drop (p + op.symbol.length))⟩ := by
  have houtcome : Outcome [] t (parse t) := outcome_parseFrom [] t
  generalize parse t = result at houtcome ⊢
  cases houtcome with
  | nothing hquiet =>
      have hbreaks : ¬ Breaks t := by
        rintro ⟨i, hi, hwide, -⟩
        exact hquiet i hi (.inr hwide)
      have hnone : ∀ p, ¬ IsFirstOperator t p := fun p hp => hquiet p hp.unquoted (.inl hp.stands)
      simp [hbreaks, hnone]
  | broken hunquoted hwide hquiet =>
      rename_i i
      -- An operator before the wide character would have been found.
      have hbreaks : Breaks t := by
        refine ⟨i, hunquoted, hwide, fun p hp => ?_⟩
        obtain ⟨op, hop⟩ := hp.stands
        rcases Nat.lt_trichotomy p i with hlt | rfl | hlt
        · exact absurd (.inl hp.stands) (hquiet p hlt hp.unquoted)
        · exact absurd hop (not_operatorAt_of_isWideAt hwide op)
        · exact hlt
      simp [hbreaks]
  | found hunquoted hlongest hquiet =>
      rename_i p op
      have hfirst : IsFirstOperator t p :=
        ⟨hunquoted, ⟨op, hlongest.stands⟩, fun i hi hi' op' hop' => hquiet i hi hi' (.inl ⟨op', hop'⟩)⟩
      have hbreaks : ¬ Breaks t := by
        rintro ⟨i, hi, hwide, hbefore⟩
        exact hquiet i (hbefore p hfirst) hi (.inr hwide)
      refine ⟨by simp [hbreaks], by simpa [hbreaks] using ⟨p, hfirst⟩, fun c => ?_⟩
      constructor
      · intro hc
        cases hc
        exact ⟨hbreaks, p, op, hfirst, hlongest, rfl⟩
      · rintro ⟨-, p', op', hfirst', hlongest', rfl⟩
        obtain rfl := hfirst.unique hfirst'
        obtain rfl := hlongest.unique hlongest'
        rfl

end Condition

end Stylesheet
