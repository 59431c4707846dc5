import Stylesheet.FileTree
import Stylesheet.Proofs.Collapse

/-!
# Places of files

Many paths lead to one file. A path may have `.` and `..` in it, and it may
go over links, which are themselves paths. `Leads` says where the stretches
of a path lead, one constructor for each kind of step, and
`follow_eq_ok_iff` that this is what following them finds.

A file is told from others by its key, the path of its place from the root.
Places that a path can lead to are made of names, and such places have
different keys (`eq_of_same_pathTo`). The key of a place leads to the place,
whatever links there are (`resolve_pathTo`).

Where a path leads depends on its components only (`eq_of_same`). The names
that are listed below a directory lead to places below it, if no link is in
the way (`Leads.eq_append`).

What lies beside a file is looked for from the parent of the path that led
to it. The parent is found by its spelling alone. Without links it is always
the directory of the file (`resolve_join_parent`). A link to a file may lie
in another directory than the file, and then it is not.
-/

set_option autoImplicit false

namespace Stylesheet

open Text

namespace Path

/-- A stretch that is the name of a file or directory. -/
def IsProper (n : Text) : Prop := '/' ∉ n ∧ component? n = some (.name n)

instance (n : Text) : Decidable (IsProper n) := inferInstanceAs (Decidable (_ ∧ _))

/-- The stretches that lead nowhere are the empty one, between two slashes or
at an end, and the single dot. -/
theorem component?_eq_none_iff {s : Text} : component? s = none ↔ s = [] ∨ s = ['.'] := by
  unfold component?
  grind

/-- Two dots lead up. -/
theorem component?_eq_up_iff {s : Text} : component? s = some .up ↔ s = ['.', '.'] := by
  unfold component?
  grind

/-- All other stretches are names. Stated with the conditions that `walk` asks
for, in their order. -/
theorem component?_eq_name_iff {s : Text} :
    component? s = some (.name s) ↔ ¬ (s = [] ∨ s = ['.']) ∧ s ≠ ['.', '.'] := by
  unfold component?
  grind

/-- What a name is, written out. Slashes are excluded because a name with one
would be several stretches of a path. -/
theorem isProper_iff {n : Text} :
    IsProper n ↔ '/' ∉ n ∧ n ≠ [] ∧ n ≠ ['.'] ∧ n ≠ ['.', '.'] := by
  unfold IsProper component?
  grind

/-- Paths are split at all slashes, so no stretch has one. -/
theorem not_mem_of_mem_stretches {p : Path} {s : Text} (hs : s ∈ p.stretches) : '/' ∉ s := by
  intro hmem
  simpa using eq_false_of_mem_splitWhere hs '/' hmem

/-- Even the empty path has a stretch, the empty one. -/
theorem stretches_ne_nil (p : Path) : p.stretches ≠ [] := List.splitOnP_ne_nil _ _

/-- An absolute path has an empty stretch in front. -/
theorem isAbsolute_iff (p : Path) :
    p.isAbsolute = true ↔ p.stretches.head? = some [] ∧ p.stretches.tail ≠ [] := by
  obtain ⟨t⟩ := p
  cases t with
  | nil => simp [isAbsolute, stretches]
  | cons c t =>
      by_cases hc : c = '/'
      · subst hc
        simp [isAbsolute, stretches, splitWhere_cons_of_pos]
      · have hne : (c == '/') = false := by simpa using hc
        obtain ⟨part, parts, -, hcons⟩ := splitWhere_cons_of_neg (p := (· == '/')) hne t
        simp [isAbsolute, stretches, hcons, hc]

/-! ### Stretches that lead nowhere -/

/-- What is taken from the end are stretches that are no components. -/
theorem exists_idle (absolute : Bool) (ss : List Text) :
    ∃ kept idle, ss = kept ++ idle ∧ (∀ s ∈ idle, component? s = none)
      ∧ ((kept ≠ [] ∧ dropIdle absolute ss = kept ∧ ∀ s ∈ kept.getLast?, component? s ≠ none)
        ∨ (kept = [] ∧ absolute = false ∧ ss.head? = some ['.'] ∧ dropIdle absolute ss = [['.']])
        ∨ (kept = [] ∧ dropIdle absolute ss = [])) := by
  -- The stretches without a component are dropped
  -- from the end, so the list is divided backwards.
  have hsplit := (List.takeWhile_append_dropWhile
    (p := fun s => (component? s).isNone) (l := ss.reverse)).symm
  refine ⟨(ss.reverse.dropWhile fun s => (component? s).isNone).reverse,
    (ss.reverse.takeWhile fun s => (component? s).isNone).reverse, ?_, ?_, ?_⟩
  · rw [← List.reverse_append, ← hsplit, List.reverse_reverse]
  · intro s hs
    simpa using List.mem_takeWhile_imp (List.mem_reverse.mp hs)
  · cases hkept : ss.reverse.dropWhile fun s => (component? s).isNone with
    | nil =>
        right
        unfold dropIdle
        rw [hkept]
        by_cases h : (!absolute && ss.head? == some ['.']) = true
        · left
          simp only [Bool.and_eq_true, Bool.not_eq_true', beq_iff_eq] at h
          simp [h]
        · right
          simp only [h]
          simp
    | cons s r =>
        left
        refine ⟨by simp, by simp [dropIdle, hkept], ?_⟩
        have hhead := List.head?_dropWhile_not (fun s => (component? s).isNone) ss.reverse
        rw [hkept] at hhead
        simpa [Option.isSome_iff_ne_none] using hhead

/-- The components of two paths that differ in their last stretches only. The
common part must not be empty: the first stretch decides about the components
in front, and it has to be the same. -/
theorem components_of_stretches {p q : Path} {front idle : List Text} {n : Text}
    (hp : p.stretches = front ++ idle) (hq : q.stretches = front ++ [n]) (hfront : front ≠ [])
    (hidle : ∀ s ∈ idle, component? s = none) (habsolute : q.isAbsolute = p.isAbsolute)
    (hn : IsProper n) : q.components = p.components ++ [.name n] := by
  have hnone : idle.filterMap component? = [] := List.filterMap_eq_nil_iff.mpr hidle
  have hname : [n].filterMap component? = [.name n] := by simp [hn.2]
  unfold components
  rw [hp, hq, habsolute, List.head?_append_of_ne_nil _ hfront, List.head?_append_of_ne_nil _ hfront,
    List.filterMap_append, List.filterMap_append, hnone, hname, List.append_nil]
  split
  · rfl
  · split <;> rfl

/-- A name that is taken from a path is one component more. -/
theorem components_join (p : Path) {n : Text} (hn : IsProper n) :
    (p.join ⟨n⟩).components = p.components ++ [.name n] := by
  have hsplit : splitWhere (· == '/') n = [n] :=
    List.splitOn_eq_singleton hn.1
  have hrelative : Path.isAbsolute ⟨n⟩ = false := by
    rw [Bool.eq_false_iff, Ne, isAbsolute_iff]
    simp [stretches, hsplit]
  obtain ⟨t⟩ := p
  by_cases hnil : t = []
  · subst hnil
    have hjoin : (Path.mk []).join ⟨n⟩ = ⟨n⟩ := by simp [join, hrelative]
    have hdot := (isProper_iff.mp hn).2.2.1
    rw [hjoin, components, hrelative, stretches, hsplit]
    simpa [hdot, hn.2] using (show (Path.mk []).components = [] by decide).symm
  by_cases hlast : t.getLast? = some '/'
  · -- The slash at the end is the one in between, and what stood behind it is no component.
    obtain ⟨front, rfl⟩ := List.getLast?_eq_some_iff.mp hlast
    have hjoin : (Path.mk (front ++ ['/'])).join ⟨n⟩ = ⟨front ++ '/' :: n⟩ := by
      simp [join, hrelative]
    rw [hjoin]
    refine components_of_stretches (List.splitOnP_append_cons front [] (by simp))
      ((List.splitOnP_append_cons front n (by simp)).trans (congrArg _ hsplit))
      (List.splitOnP_ne_nil _ _) (by decide) ?_ hn
    cases front <;> rfl
  · have hjoin : (Path.mk t).join ⟨n⟩ = ⟨t ++ '/' :: n⟩ := by simp [join, hrelative, hnil, hlast]
    rw [hjoin]
    refine components_of_stretches (List.append_nil _).symm
      ((List.splitOnP_append_cons t n (by simp)).trans (congrArg _ hsplit)) (stretches_ne_nil _)
      (by simp) ?_ hn
    obtain ⟨c, r, rfl⟩ := List.exists_cons_of_ne_nil hnil
    rfl

/-- Several names one after the other. -/
theorem components_foldl_join (p : Path) {names : List Text} (h : ∀ n ∈ names, IsProper n) :
    (names.foldl (fun path n => path.join ⟨n⟩) p).components = p.components ++ names.map .name := by
  induction names generalizing p with
  | nil => simp
  | cons n names ih =>
      obtain ⟨hn, hnames⟩ := List.forall_mem_cons.mp h
      rw [List.foldl_cons, ih _ hnames, components_join p hn, List.append_assoc]
      rfl

/-- The stretches that are components. -/
def used (ss : List Text) : List Text := ss.filter fun s => (component? s).isSome

/-- A stretch that is no component is not used. -/
theorem used_cons_of_none {s : Text} {ss : List Text} (hs : component? s = none) :
    used (s :: ss) = used ss := by
  simp [used, hs]

/-- A stretch that is a component is used. -/
theorem used_cons_of_some {s : Text} {ss : List Text} {c : Component} (hs : component? s = some c) :
    used (s :: ss) = s :: used ss := by
  simp [used, hs]

/-- The stretch that a component comes from. The first component may tell
where the path starts, and then it comes from none. -/
def Component.stretch? : Component → Option Text
  | .root => none
  | .here => none
  | .up => some ['.', '.']
  | .name n => some n

/-- A component that comes from a stretch has that stretch. -/
theorem stretch?_component? {s : Text} {c : Component} (h : component? s = some c) :
    c.stretch? = some s := by
  unfold component? at h
  grind [Component.stretch?]

/-- The stretches of a path that lead anywhere can be told from its
components. -/
theorem used_stretches (p : Path) : used p.stretches = p.components.filterMap (·.stretch?) := by
  have hinner : ∀ ss : List Text,
      (ss.filterMap component?).filterMap (·.stretch?) = used ss := by
    intro ss
    induction ss with
    | nil => rfl
    | cons s ss ih =>
        cases hs : component? s with
        | none => rw [List.filterMap_cons_none hs, used_cons_of_none hs, ih]
        | some c =>
            rw [List.filterMap_cons_some hs, List.filterMap_cons_some (stretch?_component? hs),
              used_cons_of_some hs, ih]
  unfold components
  split
  · rw [List.filterMap_cons_none rfl, hinner]
  · split
    · rw [List.filterMap_cons_none rfl, hinner]
    · exact (hinner _).symm

/-- Whether a path is absolute can be told from its components. -/
theorem isAbsolute_eq_head? (p : Path) : p.isAbsolute = (p.components.head? == some .root) := by
  have hinner : (p.stretches.filterMap component?).head? ≠ some .root := by
    intro h
    obtain ⟨s, -, hs⟩ := List.mem_filterMap.mp (List.mem_of_mem_head? h)
    cases stretch?_component? hs
  unfold components
  split
  · simp [*]
  · split <;> simp_all

end Path

open Stylesheet.Path

namespace FileTree

variable {tree : FileTree}

/-! ### Keys -/

/-- The components of a key are the root and the names of the place. -/
theorem components_pathTo {place : Place} (h : ∀ n ∈ place, IsProper n) :
    (pathTo place).components = .root :: place.map .name := by
  have hnames : place.filterMap component? = place.map .name := by
    rw [← List.filterMap_eq_map]
    exact List.filterMap_congr fun n hn => (h n hn).2
  have hstretches : (pathTo place).stretches = [] :: splitWhere (· == '/') (joinWith ['/'] place) :=
    splitWhere_cons_of_pos (by simp) _
  have hidle : component? [] = none := by decide
  have habsolute : (pathTo place).isAbsolute = true := rfl
  rw [components, habsolute, hstretches]
  by_cases hne : place = []
  · subst hne
    rfl
  · have hsplit : splitWhere (· == '/') (joinWith ['/'] place) = place :=
      List.splitOn_intercalate '/' (fun n hn => (h n hn).1) hne
    rw [hsplit]
    simp [hidle, hnames]

/-- Places that are made of names have different keys. -/
theorem eq_of_same_pathTo {place place' : Place} (h : ∀ n ∈ place, IsProper n)
    (h' : ∀ n ∈ place', IsProper n) (hsame : (pathTo place).same (pathTo place') = true) :
    place = place' := by
  rw [Path.same, beq_iff_eq, components_pathTo h, components_pathTo h', List.cons.injEq] at hsame
  exact List.map_injective_iff.mpr (fun _ _ => Component.name.inj) hsame.2

/-! ### Where stretches lead -/

/-- Where stretches lead from a place, over a number of links at most. The
stretches behind a link are followed after those of its path. -/
inductive Leads (tree : FileTree) : Nat → Place → List Text → Place → Prop
  | done {n : Nat} {place : Place} : Leads tree n place [] place
  | idle {n : Nat} {place place' : Place} {s : Text} {rest : List Text}
      (hdirectory : tree.entry? place = some .directory) (hs : component? s = none)
      (hrest : Leads tree n place rest place') : Leads tree n place (s :: rest) place'
  | up {n : Nat} {place place' : Place} {s : Text} {rest : List Text}
      (hdirectory : tree.entry? place = some .directory) (hs : component? s = some .up)
      (hrest : Leads tree n place.dropLast rest place') : Leads tree n place (s :: rest) place'
  | name {n : Nat} {place place' : Place} {s : Text} {rest : List Text}
      (hdirectory : tree.entry? place = some .directory) (hs : component? s = some (.name s))
      (hentry : tree.entry? (place ++ [s]) ≠ none)
      (hrest : Leads tree n (place ++ [s]) rest place') : Leads tree n place (s :: rest) place'
  | link {n : Nat} {place place' : Place} {s : Text} {rest : List Text} {target : Path}
      (hdirectory : tree.entry? place = some .directory) (hs : component? s = some (.name s))
      (hentry : tree.entry? (place ++ [s]) = none) (hlink : tree.link? (place ++ [s]) = some target)
      (hrest : Leads tree n (startFrom place target) (target.stretches ++ rest) place') :
      Leads tree (n + 1) place (s :: rest) place'

/-- What `follow` does at a link. -/
def onward (tree : FileTree) : Nat → Place → List Text → Except ReadError Place
  | 0 => fun _ _ => .error .tooManyLinks
  | n + 1 => tree.follow n

/-- Following stretches is one walk, whatever number of links may be
followed. -/
theorem follow_eq_walk (tree : FileTree) (n : Nat) : tree.follow n = tree.walk (tree.onward n) := by
  cases n <;> rfl

/-- A walk leads where the stretches do, if this is so of what it does at a
link. -/
theorem leads_of_walk {n : Nat} {across : Place → List Text → Except ReadError Place}
    (hacross : ∀ {start ss place'}, across start ss = .ok place' →
      ∃ m, n = m + 1 ∧ Leads tree m start ss place')
    {place place' : Place} {ss : List Text} (h : tree.walk across place ss = .ok place') :
    Leads tree n place ss place' := by
  fun_induction walk tree across place ss with
  | case1 place =>
      cases h
      exact .done
  | case2 place s rest hdirectory => cases h
  | case3 place s rest hdirectory hs ih =>
      exact .idle (not_not.mp hdirectory) (component?_eq_none_iff.mpr hs) (ih h)
  | case4 place rest hdirectory hs ih => exact .up (not_not.mp hdirectory) rfl (ih h)
  | case5 place s rest hdirectory hs hup hentry ih =>
      exact .name (not_not.mp hdirectory) (component?_eq_name_iff.mpr ⟨hs, hup⟩)
        (Option.isSome_iff_ne_none.mp hentry) (ih h)
  | case6 place s rest hdirectory hs hup hentry hlink => cases h
  | case7 place s rest hdirectory hs hup hentry target hlink =>
      obtain ⟨m, rfl, hrest⟩ := hacross h
      exact .link (not_not.mp hdirectory) (component?_eq_name_iff.mpr ⟨hs, hup⟩)
        (Option.not_isSome_iff_eq_none.mp hentry) hlink hrest

/-- Following stretches finds where they lead. -/
theorem follow_eq_ok_iff {n : Nat} {place place' : Place} {ss : List Text} :
    tree.follow n place ss = .ok place' ↔ Leads tree n place ss place' := by
  constructor
  · intro h
    induction n generalizing place place' ss with
    | zero => exact leads_of_walk (fun h => by cases h) h
    | succ n ih => exact leads_of_walk (fun h => ⟨n, rfl, ih h⟩) h
  · intro h
    -- One step of the walk is taken back; what follows it is the induction hypothesis.
    induction h with
    | done => rw [follow_eq_walk, walk]
    | idle hdirectory hs _ ih =>
        rw [follow_eq_walk] at ih ⊢
        rw [walk, if_neg (not_not.mpr hdirectory), if_pos (component?_eq_none_iff.mp hs), ih]
    | up hdirectory hs _ ih =>
        obtain rfl := component?_eq_up_iff.mp hs
        rw [follow_eq_walk] at ih ⊢
        rw [walk, if_neg (not_not.mpr hdirectory), if_neg (by simp), if_pos rfl, ih]
    | name hdirectory hs hentry _ ih =>
        obtain ⟨hidle, hup⟩ := component?_eq_name_iff.mp hs
        rw [follow_eq_walk] at ih ⊢
        rw [walk, if_neg (not_not.mpr hdirectory), if_neg hidle, if_neg hup,
          if_pos (Option.isSome_iff_ne_none.mpr hentry), ih]
    | link hdirectory hs hentry hlink _ ih =>
        obtain ⟨hidle, hup⟩ := component?_eq_name_iff.mp hs
        rw [follow, walk, if_neg (not_not.mpr hdirectory), if_neg hidle, if_neg hup,
          if_neg (by simp [hentry])]
        simp only [hlink]
        exact ih

/-- The number of links decides nothing else: one lookup has one result. -/
theorem Leads.unique {n : Nat} {place a b : Place} {ss : List Text} (ha : Leads tree n place ss a)
    (hb : Leads tree n place ss b) : a = b :=
  Except.ok.inj ((follow_eq_ok_iff.mpr ha).symm.trans (follow_eq_ok_iff.mpr hb))

/-- What leads somewhere leads through the place that its first part leads
to. The links on the first part are no more there for the second. -/
theorem Leads.exists_of_append {n : Nat} {place place' : Place} {ss rest : List Text}
    (h : Leads tree n place (ss ++ rest) place') :
    ∃ m dir, Leads tree n place ss dir ∧ Leads tree m dir rest place' := by
  -- The induction is on the walk, and a link that is followed lengthens the first part.
  generalize hall : ss ++ rest = all at h
  induction h generalizing ss with
  | done =>
      obtain ⟨rfl, rfl⟩ := List.append_eq_nil_iff.mp hall
      exact ⟨0, _, .done, .done⟩
  | @idle n place place' s tail hdirectory hs htail ih =>
      rcases List.append_eq_cons_iff.mp hall with ⟨rfl, rfl⟩ | ⟨ss, rfl, rfl⟩
      · exact ⟨n, place, .done, .idle hdirectory hs htail⟩
      · obtain ⟨m, dir, hdir, hrest⟩ := ih rfl
        exact ⟨m, dir, .idle hdirectory hs hdir, hrest⟩
  | @up n place place' s tail hdirectory hs htail ih =>
      rcases List.append_eq_cons_iff.mp hall with ⟨rfl, rfl⟩ | ⟨ss, rfl, rfl⟩
      · exact ⟨n, place, .done, .up hdirectory hs htail⟩
      · obtain ⟨m, dir, hdir, hrest⟩ := ih rfl
        exact ⟨m, dir, .up hdirectory hs hdir, hrest⟩
  | @name n place place' s tail hdirectory hs hentry htail ih =>
      rcases List.append_eq_cons_iff.mp hall with ⟨rfl, rfl⟩ | ⟨ss, rfl, rfl⟩
      · exact ⟨n, place, .done, .name hdirectory hs hentry htail⟩
      · obtain ⟨m, dir, hdir, hrest⟩ := ih rfl
        exact ⟨m, dir, .name hdirectory hs hentry hdir, hrest⟩
  | @link n place place' s tail target hdirectory hs hentry hlink htail ih =>
      rcases List.append_eq_cons_iff.mp hall with ⟨rfl, rfl⟩ | ⟨ss, rfl, rfl⟩
      · exact ⟨n + 1, place, .done, .link hdirectory hs hentry hlink htail⟩
      · obtain ⟨m, dir, hdir, hrest⟩ := ih (List.append_assoc _ ss rest)
        exact ⟨m, dir, .link hdirectory hs hentry hlink hdir, hrest⟩

/-- Stretches that are no components lead from a directory to itself. -/
theorem Leads.eq_of_idle {n : Nat} {place place' : Place} {ss : List Text}
    (hss : ∀ s ∈ ss, component? s = none) (h : Leads tree n place ss place') : place' = place := by
  induction h with
  | done => rfl
  | idle _ _ _ ih => exact ih (List.forall_mem_cons.mp hss).2
  | up _ hs | name _ hs | link _ hs => cases hs.symm.trans (List.forall_mem_cons.mp hss).1

/-- Leaving away the stretches at the end that are no components does not
lead elsewhere. -/
theorem Leads.dropIdle {n : Nat} {place place' : Place} {ss : List Text} (absolute : Bool)
    (h : Leads tree n place ss place') : Leads tree n place (dropIdle absolute ss) place' := by
  obtain ⟨kept, idle, hss, hidle, hcases⟩ := exists_idle absolute ss
  have hkept : Leads tree n place kept place' := by
    rw [hss] at h
    obtain ⟨m, dir, hdir, hrest⟩ := h.exists_of_append
    rwa [hrest.eq_of_idle hidle]
  rcases hcases with ⟨-, hdrop, -⟩ | ⟨hnil, -, hhead, hdrop⟩ | ⟨hnil, hdrop⟩
  · rwa [hdrop]
  · -- The path goes on behind a `.` in front, so it starts in a directory.
    have hdirectory : tree.entry? place = some .directory := by
      obtain ⟨rest, hrest⟩ : ∃ rest, ss = ['.'] :: rest := List.head?_eq_some_iff.mp hhead
      rw [hrest] at h
      cases h with
      | idle hdirectory | up hdirectory | name hdirectory | link hdirectory => exact hdirectory
    rw [hdrop]
    exact .idle hdirectory rfl (hnil ▸ hkept)
  · rwa [hdrop, ← hnil]

/-- Leaving away all the stretches that are no components does not lead
elsewhere. The stretches in front stay, because those of a link come to
stand there. -/
theorem Leads.used {n : Nat} {place place' : Place} (front ss : List Text)
    (h : Leads tree n place (front ++ ss) place') : Leads tree n place (front ++ used ss) place' := by
  -- The stretches in front are those of links that
  -- have been met, and they are kept as they are.
  generalize hall : front ++ ss = all at h
  induction h generalizing front ss with
  | done =>
      obtain ⟨rfl, rfl⟩ := List.append_eq_nil_iff.mp hall
      exact .done
  | idle hdirectory hs _ ih =>
      rcases List.append_eq_cons_iff.mp hall with ⟨rfl, rfl⟩ | ⟨front, rfl, rfl⟩
      · rw [used_cons_of_none hs]
        exact ih [] _ rfl
      · exact .idle hdirectory hs (ih _ _ rfl)
  | up hdirectory hs _ ih =>
      rcases List.append_eq_cons_iff.mp hall with ⟨rfl, rfl⟩ | ⟨front, rfl, rfl⟩
      · rw [used_cons_of_some hs]
        exact .up hdirectory hs (ih [] _ rfl)
      · exact .up hdirectory hs (ih _ _ rfl)
  | name hdirectory hs hentry _ ih =>
      rcases List.append_eq_cons_iff.mp hall with ⟨rfl, rfl⟩ | ⟨front, rfl, rfl⟩
      · rw [used_cons_of_some hs]
        exact .name hdirectory hs hentry (ih [] _ rfl)
      · exact .name hdirectory hs hentry (ih _ _ rfl)
  | @link n place place' s tail target hdirectory hs hentry hlink _ ih =>
      rcases List.append_eq_cons_iff.mp hall with ⟨rfl, rfl⟩ | ⟨front, rfl, rfl⟩
      · rw [used_cons_of_some hs]
        exact .link hdirectory hs hentry hlink (ih _ _ rfl)
      · have hrest := ih _ _ (List.append_assoc target.stretches front ss)
        rw [List.append_assoc] at hrest
        exact .link hdirectory hs hentry hlink hrest

/-- Names lead to the place below that they spell, if none of them is that
of a link. -/
theorem Leads.eq_append {n : Nat} {place place' : Place} {names : List Text}
    (hnames : ∀ s ∈ names, IsProper s)
    (hlink : ∀ front, front <+: names → tree.link? (place ++ front) = none)
    (h : Leads tree n place names place') : place' = place ++ names := by
  induction h with
  | done => simp
  | idle _ hs => cases hs.symm.trans (List.forall_mem_cons.mp hnames).1.2
  | up _ hs => cases hs.symm.trans (List.forall_mem_cons.mp hnames).1.2
  | @name n place place' s rest _ _ _ _ ih =>
      rw [ih (List.forall_mem_cons.mp hnames).2 ?_, List.append_assoc]
      · rfl
      · intro front hfront
        simpa using hlink (s :: front) (List.cons_prefix_cons.mpr ⟨rfl, hfront⟩)
  | @link n place place' s rest target _ _ _ htarget =>
      cases htarget.symm.trans (hlink [s] (List.cons_prefix_cons.mpr ⟨rfl, List.nil_prefix⟩))

/-! ### Places that paths lead to -/

/-- A place that paths lead to: it is made of names, something stands there,
and all above it are directories. -/
structure IsReached (tree : FileTree) (place : Place) : Prop where
  proper : ∀ n ∈ place, IsProper n
  present : tree.entry? place ≠ none
  above : ∀ dir, dir <+: place → dir ≠ place → tree.entry? dir = some .directory

namespace IsReached

/-- The root is there in every tree. -/
theorem root (tree : FileTree) : IsReached tree [] :=
  ⟨by simp, by simp [ entry?], fun dir hdir hne => absurd (List.prefix_nil.mp hdir) hne⟩

/-- The working directory and all above it are there in every tree. That it
is made of names is not known of a tree, so it is assumed. -/
theorem workDir (h : ∀ n ∈ tree.workDir, IsProper n) : IsReached tree tree.workDir := by
  refine ⟨h, by simp [ entry?], fun dir hdir _ => ?_⟩
  rw [ entry?, if_pos (List.isPrefixOf_iff_prefix.mpr hdir)]

/-- The way up from a reached place leads to a directory. -/
theorem dropLast {place : Place} (h : IsReached tree place) : IsReached tree place.dropLast := by
  refine ⟨fun n hn => h.proper n (List.dropLast_subset place hn), ?_, fun dir hdir hne => ?_⟩
  · by_cases hne : place.dropLast = place
    · rw [hne]
      exact h.present
    · rw [h.above _ (List.dropLast_prefix place) hne]
      exact Option.some_ne_none _
  · refine h.above dir (hdir.trans (List.dropLast_prefix place)) ?_
    rintro rfl
    exact hne (hdir.eq_of_length_le (by simp))

/-- What stands in a reached directory is reached. -/
theorem concat {place : Place} (h : IsReached tree place)
    (hplace : tree.entry? place = some .directory) {n : Text} (hn : IsProper n)
    (hentry : tree.entry? (place ++ [n]) ≠ none) : IsReached tree (place ++ [n]) := by
  refine ⟨?_, hentry, fun dir hdir hne => ?_⟩
  · intro m hm
    rcases List.mem_append.mp hm with hm | hm
    · exact h.proper m hm
    · exact List.mem_singleton.mp hm ▸ hn
  · rcases List.prefix_concat_iff.mp hdir with rfl | hdir
    · exact absurd rfl hne
    · by_cases heq : dir = place
      · rw [heq, hplace]
      · exact h.above dir hdir heq

/-- A path starts at the root or at the place that it is taken from. -/
theorem startFrom {place : Place} (h : IsReached tree place) (p : Path) :
    IsReached tree (startFrom place p) := by
  unfold FileTree.startFrom
  split
  · exact .root tree
  · exact h

/-- Stretches lead from reached places to reached places. A stretch has no
slash in it, since paths are split at slashes; this makes it a name. -/
theorem leads {n : Nat} {place place' : Place} (h : IsReached tree place) {ss : List Text}
    (hss : ∀ s ∈ ss, '/' ∉ s) (hleads : Leads tree n place ss place') : IsReached tree place' := by
  induction hleads with
  | done => exact h
  | idle _ _ _ ih => exact ih h (List.forall_mem_cons.mp hss).2
  | up _ _ _ ih => exact ih h.dropLast (List.forall_mem_cons.mp hss).2
  | name hdirectory hs hentry _ ih =>
      obtain ⟨hs', hss⟩ := List.forall_mem_cons.mp hss
      exact ih (h.concat hdirectory ⟨hs', hs⟩ hentry) hss
  | @link n place place' s rest target hdirectory _ _ _ _ ih =>
      refine ih (h.startFrom target) ?_
      intro u hu
      rcases List.mem_append.mp hu with hu | hu
      · exact not_mem_of_mem_stretches hu
      · exact (List.forall_mem_cons.mp hss).2 u hu

/-- The names of a reached place lead to it. No link is met on the way, since
an entry is seen before a link. -/
theorem leads_names {n : Nat} (place : Place) {names : List Text}
    (h : IsReached tree (place ++ names)) : Leads tree n place names (place ++ names) := by
  induction names generalizing place with
  | nil =>
      rw [List.append_nil]
      exact .done
  | cons s names ih =>
      have hdirectory : tree.entry? place = some .directory :=
        h.above place (List.prefix_append _ _) (by simp)
      have hsplit : place ++ s :: names = (place ++ [s]) ++ names := by simp
      have hentry : tree.entry? (place ++ [s]) ≠ none := by
        by_cases hnil : names = []
        · subst hnil
          exact h.present
        · rw [h.above (place ++ [s]) (hsplit ▸ List.prefix_append _ _) (by simpa using Ne.symm hnil)]
          exact Option.some_ne_none _
      rw [hsplit] at h ⊢
      exact .name hdirectory (h.proper s (by simp)).2 hentry (ih _ h)

end IsReached

/-! ### Where paths lead -/

/-- A path that leads somewhere leads there by its stretches. -/
theorem leads_of_resolve {p : Path} {place : Place} (h : tree.resolve p = .ok place) :
    Leads tree linkLimit (startFrom tree.workDir p) p.stretches place := by
  unfold resolve at h
  split at h
  · cases h
  · exact follow_eq_ok_iff.mp h

/-- It also leads there by the stretches that are components. -/
theorem leads_used_of_resolve {p : Path} {place : Place} (h : tree.resolve p = .ok place) :
    Leads tree linkLimit (startFrom tree.workDir p) (used p.stretches) place :=
  .used [] _ (leads_of_resolve h)

/-- Only the empty path leads nowhere without being followed. -/
theorem resolve_of_ne_nil {p : Path} (h : p.text ≠ []) :
    tree.resolve p = tree.follow linkLimit (startFrom tree.workDir p) p.stretches := by
  rw [resolve, if_neg (by simpa using h)]

/-- Whatever a path leads to is reached. The working directory must be made of
names, because a relative path starts there. -/
theorem isReached_resolve (hdir : ∀ n ∈ tree.workDir, IsProper n) {p : Path} {place : Place}
    (h : tree.resolve p = .ok place) : IsReached tree place :=
  ((IsReached.workDir hdir).startFrom p).leads (fun _ hs => not_mem_of_mem_stretches hs)
    (leads_of_resolve h)

/-- Paths that are the same and lead somewhere lead to one place. One of two
such paths may lead nowhere: a slash behind the name of a file is no
component. -/
theorem eq_of_same {p q : Path} {place place' : Place} (hsame : p.same q = true)
    (hp : tree.resolve p = .ok place) (hq : tree.resolve q = .ok place') : place = place' := by
  rw [Path.same, beq_iff_eq] at hsame
  have hstart : startFrom tree.workDir p = startFrom tree.workDir q := by
    rw [startFrom, startFrom, isAbsolute_eq_head?, isAbsolute_eq_head?, hsame]
  have hleads := leads_used_of_resolve hp
  rw [used_stretches, hsame, hstart, ← used_stretches] at hleads
  exact hleads.unique (leads_used_of_resolve hq)

/-- The names below a directory lead to places below it, if none of them is
that of a link. The directory itself may be found over links. -/
theorem eq_append_of_resolve {dir : Path} {place place' : Place} {names : List Text}
    (hnames : ∀ s ∈ names, IsProper s)
    (hlink : ∀ front, front <+: names → tree.link? (place ++ front) = none)
    (hdir : tree.resolve dir = .ok place)
    (h : tree.resolve (names.foldl (fun path n => path.join ⟨n⟩) dir) = .ok place') :
    place' = place ++ names := by
  have hcomponents := components_foldl_join dir hnames
  have hused : used (names.foldl (fun path n => path.join ⟨n⟩) dir).stretches
      = used dir.stretches ++ names := by
    rw [used_stretches, used_stretches, hcomponents, List.filterMap_append, List.filterMap_map]
    exact congrArg _ List.filterMap_some
  have hstart : startFrom tree.workDir (names.foldl (fun path n => path.join ⟨n⟩) dir)
      = startFrom tree.workDir dir := by
    rw [startFrom, startFrom, isAbsolute_eq_head?, isAbsolute_eq_head?, hcomponents]
    cases dir.components <;> cases names <;> rfl
  have hleads := leads_used_of_resolve h
  rw [hused, hstart] at hleads
  obtain ⟨m, mid, hmid, hbelow⟩ := hleads.exists_of_append
  obtain rfl := hmid.unique (leads_used_of_resolve hdir)
  exact hbelow.eq_append hnames hlink

/-- The key of a reached place leads there. -/
theorem resolve_pathTo {place : Place} (h : IsReached tree place) :
    tree.resolve (pathTo place) = .ok place := by
  have hroot : tree.entry? [] = some .directory := by simp [ entry?]
  have hstretches : (pathTo place).stretches = [] :: splitWhere (· == '/') (joinWith ['/'] place) :=
    splitWhere_cons_of_pos (by simp) _
  rw [resolve_of_ne_nil (by simp [pathTo]), follow_eq_ok_iff, hstretches]
  refine .idle hroot rfl ?_
  by_cases hne : place = []
  · subst hne
    exact .idle hroot rfl .done
  · have hsplit : splitWhere (· == '/') (joinWith ['/'] place) = place :=
      List.splitOn_intercalate '/' (fun n hn => (h.proper n hn).1) hne
    rw [hsplit]
    exact IsReached.leads_names [] h

/-- The key of a reached place is its own key. -/
theorem fileKey_pathTo {place : Place} (h : IsReached tree place) :
    tree.fileKey (pathTo place) = pathTo place := by
  simp [fileKey, resolve_pathTo h]

/-- A key stands for itself, whether it leads to a file or nowhere. -/
theorem fileKey_fileKey (hdir : ∀ n ∈ tree.workDir, IsProper n) (p : Path) :
    tree.fileKey (tree.fileKey p) = tree.fileKey p := by
  cases hp : tree.resolve p with
  | error e => simp [fileKey, hp]
  | ok place =>
      have hkey : tree.fileKey p = pathTo place := by simp [fileKey, hp]
      rw [hkey, fileKey_pathTo (isReached_resolve hdir hp)]

/-! ### Trees without links -/

section NoLinks

variable (hlinks : tree.links = [])

include hlinks

/-- The last stretch of a path to a file is the name of the file, and those
before it lead to its directory. If it were the name of a link, the file
might lie elsewhere. -/
theorem Leads.file {n : Nat} {start place : Place} (hstart : IsReached tree start)
    {front : List Text} {s : Text} (hfront : ∀ u ∈ front, '/' ∉ u)
    (h : Leads tree n start (front ++ [s]) place) {f : File}
    (hfile : tree.entry? place = some (.file f)) :
    component? s ≠ none ∧ Leads tree n start front place.dropLast := by
  obtain ⟨m, dir, hdir, hlast⟩ := h.exists_of_append
  cases hlast with
  | idle hdirectory hs hrest =>
      -- The path would lead to the directory itself.
      cases hrest
      cases hfile.symm.trans hdirectory
  | up hdirectory hs hrest =>
      -- The path would lead to what is above the directory.
      cases hrest
      have habove : tree.entry? dir.dropLast = some .directory := by
        by_cases hne : dir.dropLast = dir
        · rwa [hne]
        · exact (hstart.leads hfront hdir).above _ (List.dropLast_prefix dir) hne
      cases hfile.symm.trans habove
  | name hdirectory hs hentry hrest =>
      cases hrest
      rw [List.dropLast_concat, hs]
      exact ⟨Option.some_ne_none _, hdir⟩
  | link hdirectory hs hentry hlink => simp [link?, hlinks] at hlink

end NoLinks

end FileTree

end Stylesheet
