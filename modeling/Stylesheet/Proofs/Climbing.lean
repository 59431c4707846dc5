import Stylesheet.Proofs.Collapse
import Stylesheet.Url

/-!
# Climbing from a directory

The absolute form of a relative URL keeps what follows its last `./` or
`../`, and puts in front of it the directory, less one name for each `../`.
`climb` goes through these steps one by one, with a stack of names that may
run out. `absolutize_climbs` says where it arrives: only the number of `../`
counts, not their order among the `./`, and nothing is above the root.

How a directory is written does not matter either. `HasNames` says which
names it has, with any number of slashes around them. Every directory has
names in this sense, and no others (`hasNames_iff`).
-/

set_option autoImplicit false

namespace Stylesheet

open Text

namespace Url

/-! ### The names of a directory -/

/-- A directory has names, with at least one slash between each two and any
number of slashes elsewhere. -/
inductive HasNames : Text → List Text → Prop where
  | done {slashes : Text} (hslashes : ∀ c ∈ slashes, c = '/') : HasNames slashes []
  | name {slashes name rest : Text} {names : List Text} (hslashes : ∀ c ∈ slashes, c = '/')
      (hne : name ≠ []) (hname : '/' ∉ name) (hends : ∀ c ∈ rest.head?, c = '/')
      (hrest : HasNames rest names) : HasNames (slashes ++ (name ++ rest)) (name :: names)

/-- Slashes in front of a text add empty parts only. -/
theorem filter_splitWhere_slashes {slashes : Text} (h : ∀ c ∈ slashes, c = '/') (t : Text) :
    (splitWhere (· == '/') (slashes ++ t)).filter (!·.isEmpty)
      = (splitWhere (· == '/') t).filter (!·.isEmpty) := by
  induction slashes with
  | nil => rfl
  | cons c slashes ih =>
      obtain ⟨hc, hslashes⟩ := List.forall_mem_cons.mp h
      rw [List.cons_append, splitWhere_cons_of_pos (by simpa using hc), ← ih hslashes]
      rfl

/-- These parts are the names. -/
theorem HasNames.eq {dir : Text} {names : List Text} (h : HasNames dir names) :
    (splitWhere (· == '/') dir).filter (!·.isEmpty) = names := by
  induction h with
  | @done slashes hslashes =>
      rw [← List.append_nil slashes, filter_splitWhere_slashes hslashes]
      rfl
  | @name slashes name rest names hslashes hne hname hends hrest ih =>
      have hkeep : (!name.isEmpty) = true := by simpa using hne
      have hno : ∀ c ∈ name, (c == '/') = false := fun c hc => by
        simpa using fun heq : c = '/' => hname (heq ▸ hc)
      rw [filter_splitWhere_slashes hslashes, ← ih]
      cases rest with
      | nil =>
          rw [List.append_nil, splitWhere, List.splitOnP_eq_singleton hno, List.filter_cons,
            if_pos hkeep]
          rfl
      | cons c rest =>
          -- The slash that ends the name also begins the rest, with an empty part before it.
          obtain rfl : c = '/' := hends c rfl
          rw [splitWhere, List.splitOnP_append_cons_of_forall_mem hno '/' (by decide),
            List.filter_cons, if_pos hkeep, splitWhere_cons_of_pos (by decide)]
          rfl

/-- Every directory has names. -/
theorem exists_hasNames (dir : Text) : ∃ names, HasNames dir names := by
  induction hn : dir.length using Nat.strongRecOn generalizing dir with
  | ind n ih =>
      -- Slashes in front are skipped; then there is a name up to the next slash, or nothing.
      have hslashes : ∀ c ∈ dir.takeWhile (· == '/'), c = '/' := fun c hc => by
        simpa using List.mem_takeWhile_imp hc
      have hdir : dir.takeWhile (· == '/') ++ dir.dropWhile (· == '/') = dir :=
        List.takeWhile_append_dropWhile
      cases htail : dir.dropWhile (· == '/') with
      | nil =>
          rw [htail, List.append_nil] at hdir
          exact ⟨[], hdir ▸ .done hslashes⟩
      | cons c r =>
          have hc : c ≠ '/' := by
            have hnot := List.head?_dropWhile_not (· == '/') dir
            rw [htail] at hnot
            simpa using hnot
          have hrow : (c :: r).takeWhile (· != '/') ++ (c :: r).dropWhile (· != '/') = c :: r :=
            List.takeWhile_append_dropWhile
          have hne : (c :: r).takeWhile (· != '/') ≠ [] := by simp [hc]
          have hshorter : ((c :: r).dropWhile (· != '/')).length < n := by
            have hlength := congrArg List.length hdir
            have hfront := congrArg List.length hrow
            have hpos := List.length_pos_iff.mpr hne
            rw [htail] at hlength
            simp only [List.length_append] at hlength hfront
            omega
          obtain ⟨names, hnames⟩ := ih _ hshorter _ rfl
          -- The first name, and those of the rest.
          have hfound : HasNames (dir.takeWhile (· == '/') ++ ((c :: r).takeWhile (· != '/')
              ++ (c :: r).dropWhile (· != '/'))) ((c :: r).takeWhile (· != '/') :: names) := by
            refine .name hslashes hne (fun hmem => ?_) (fun d hd => ?_) hnames
            · simpa using List.mem_takeWhile_imp hmem
            · have hnot := List.head?_dropWhile_not (· != '/') (c :: r)
              rw [Option.mem_def.mp hd] at hnot
              simpa using hnot
          rw [hrow, ← htail, hdir] at hfound
          exact ⟨_, hfound⟩

/-- They are what stands between the slashes and is not empty. -/
theorem hasNames_iff {dir : Text} {names : List Text} :
    HasNames dir names ↔ (splitWhere (· == '/') dir).filter (!·.isEmpty) = names := by
  refine ⟨HasNames.eq, ?_⟩
  rintro rfl
  obtain ⟨names, hnames⟩ := exists_hasNames dir
  rwa [hnames.eq]

/-! ### Steps -/

/-- What a relative URL may begin with. -/
inductive Step where
  /-- To the directory above. -/
  | up
  | stay
  deriving DecidableEq

/-- How a step is written. -/
def Step.text : Step → Text
  | up => "../".toList
  | stay => "./".toList

/-- Only the steps up lead anywhere, and from the outermost directory not
even they. -/
theorem climb_steps (steps : List Step) (names : List Text) {r : Text}
    (hup : ¬ Step.up.text <+: r) (hstay : ¬ Step.stay.text <+: r) :
    climb names (steps.flatMap Step.text ++ r) = (names.drop (steps.count .up), r) := by
  induction steps generalizing names with
  | nil =>
      show climb names r = (names, r)
      unfold climb
      split
      · exact absurd ⟨_, rfl⟩ hup
      · exact absurd ⟨_, rfl⟩ hstay
      · rfl
  | cons step steps ih =>
      cases step with
      | up =>
          show climb names.tail (steps.flatMap Step.text ++ r) = _
          rw [ih, List.count_cons_self, ← List.drop_one, List.drop_drop, Nat.add_comm]
      | stay =>
          show climb names (steps.flatMap Step.text ++ r) = _
          rw [ih, List.count_cons_of_ne (by decide)]

/-- The result begins with a slash. -/
theorem isAbsolute_absolutize (dir url : Text) : isAbsolute (absolutize dir url) = true := rfl

/-- The absolute form of a URL is the root, the names of the directory but for
as many as there are steps up, and what follows the steps. -/
theorem absolutize_climbs {dir : Text} {names : List Text} (hnames : HasNames dir names)
    (steps : List Step) {r : Text} (hup : ¬ Step.up.text <+: r) (hstay : ¬ Step.stay.text <+: r) :
    absolutize dir (steps.flatMap Step.text ++ r)
        = '/' :: ((names.take (names.length - steps.count .up)).flatMap (· ++ ['/']) ++ r)
      ∧ (names.length ≤ steps.count .up → absolutize dir (steps.flatMap Step.text ++ r) = '/' :: r)
      ∧ ∀ url, isAbsolute (absolutize dir url) = true := by
  have hclimbs : absolutize dir (steps.flatMap Step.text ++ r)
      = '/' :: ((names.take (names.length - steps.count .up)).flatMap (· ++ ['/']) ++ r) := by
    -- The stack has the innermost name on top, so what is left of it is the front of the names.
    rw [absolutize, hasNames_iff.mp hnames, climb_steps steps _ hup hstay, List.drop_reverse]
    dsimp only
    rw [List.reverse_reverse]
  refine ⟨hclimbs, fun habove => ?_, isAbsolute_absolutize dir⟩
  rw [hclimbs, Nat.sub_eq_zero_of_le habove]
  rfl

/-- From three names written with too many slashes, with a step up between
two that stay; what follows begins with dots that are no step. -/
theorem absolutize_climbs_dots :
    HasNames "a//b/c/".toList ["a".toList, "b".toList, "c".toList]
      ∧ absolutize "a//b/c/".toList "./.././.../d".toList = "/a/b/.../d".toList
      ∧ isAbsolute (absolutize "a//b/c/".toList "./.././.../d".toList) = true := by
  have hnames : HasNames "a//b/c/".toList ["a".toList, "b".toList, "c".toList] :=
    hasNames_iff.mpr (by decide)
  obtain ⟨hclimbs, -, habsolute⟩ := absolutize_climbs hnames [.stay, .up, .stay]
    (r := ".../d".toList) (by decide) (by decide)
  exact ⟨hnames, hclimbs, habsolute _⟩

end Url

end Stylesheet
