import Stylesheet.Include
import Stylesheet.Proofs.Places
import Stylesheet.Proofs.Run

/-!
# The files of a document are those its includes lead to

Resolving the includes of a document follows directives from file to file.
The files may include each other, and one file may go by many paths. What
ends it is that a file is recorded before its own text is looked at, and
that a directive for a recorded file stands for nothing.

What comes out is described by a `Splice`, which has the shape of the
recursion but knows nothing of recorded files: `Reads` says which splices a
text has. Which directives have a text in their place is said of their
order alone, `FirstOnly`. Two things are shown of a run.

- It makes such a splice (`traced_expandLevels`). Each level records a file
  that was not recorded before, so the number of files that are `missing`
  bounds the levels, and more of them make no difference
  (`run_expandLevels_of_le`).
- A splice meets every file that can be reached and no others
  (`isClosure_inserted`). The text of a file is put in under one name, the
  one of the first directive for it, and its own directives are taken from
  the directory of that name.

A link may give a file a name in another directory, where the directives of
the file are about other files. So what can be reached depends on the names
that are used, and `Reaches` is told them. Where all names of a file agree
about its directives, `NamesAgree`, they need not be told
(`isClosure_of_namesAgree`), and this is so in trees without links
(`namesAgree_of_links_eq_nil`).

`resolveIncludes_closure` puts these together.
-/

set_option autoImplicit false

namespace Stylesheet

/-! ### Recorded files -/

/-- The files that went into a document so far. -/
def State.recorded (s : State) : List Path := s.files.map (·.path)

/-- Whether a file is among some others. -/
def Path.amongst (p : Path) (known : List Path) : Bool := known.any (·.same p)

namespace Path

variable {p q r : Path} {known more : List Path}

/-- Paths are the same if they have the same components, and so each is the
same as itself. -/
theorem same_refl (p : Path) : p.same p = true := by simp [same]

/-- The order in which two paths are compared makes no difference. The list of
recorded files has them the other way round than most statements. -/
theorem same_comm (p q : Path) : p.same q = q.same p := by
  rw [same, same, Bool.eq_iff_iff, beq_iff_eq, beq_iff_eq, eq_comm]

/-- What is the same can be put for each other. Stated as an equation, it
rewrites under a count. -/
theorem same_trans (h : p.same q = true) : p.same r = q.same r := by
  rw [same, beq_iff_eq] at h
  rw [same, same, h]

/-- Nothing is recorded before the document is. -/
@[simp] theorem amongst_nil : p.amongst [] = false := rfl

/-- A path is compared with one recorded file after the other. -/
@[simp] theorem amongst_cons : p.amongst (q :: known) = (q.same p || p.amongst known) := rfl

/-- Files that were recorded in two runs. -/
@[simp] theorem amongst_append : p.amongst (known ++ more) = (p.amongst known || p.amongst more) :=
  List.any_append

/-- Whether a file is recorded does not depend on the path that it is given by,
as long as the components are the same. -/
theorem amongst_congr (h : p.same q = true) : p.amongst known = q.amongst known := by
  unfold amongst
  congr
  funext k
  rw [same_comm k p, same_comm k q, same_trans h]

end Path

/-- The question that the program asks of its state, put to the list of paths. -/
theorem State.hasFile_eq (s : State) (p : Path) : s.hasFile p = p.amongst s.recorded := by
  simp [hasFile, recorded, Path.amongst, List.any_map, Function.comp_def]

/-- A new file goes to the end of the list. A file that is there already would
leave the list as it is, hence the hypothesis. -/
theorem State.recorded_recordFile {s : State} {p : Path} (h : p.amongst s.recorded = false)
    (modified : Option Nat) : (s.recordFile p modified).recorded = s.recorded ++ [p] := by
  rw [recordFile, s.hasFile_eq, if_neg (by simp [h])]
  simp [recorded]

namespace FileTree

variable {tree : FileTree} {known : List Path}

/-- The places of the files. -/
def filePlaces (tree : FileTree) : List Place :=
  (tree.entries.filter fun e => match e.2 with
    | .file _ => true
    | .directory => false).map Prod.fst

/-- How many files are not recorded. -/
def missing (tree : FileTree) (known : List Path) : Nat :=
  tree.filePlaces.countP fun place => !(pathTo place).amongst known

/-- There are not more files missing than there are files. With this the number
of levels that the program allows is enough. -/
theorem missing_le_fileCount (tree : FileTree) (known : List Path) :
    tree.missing known ≤ tree.fileCount := by
  calc tree.missing known ≤ tree.filePlaces.length := List.countP_le_length
    _ = (tree.entries.filter fun e => match e.2 with
        | .file _ => true
        | .directory => false).length := List.length_map _
    _ = tree.fileCount := List.countP_eq_length_filter.symm

/-- More records make fewer files missing, whatever places are counted. -/
theorem countP_amongst_append_le (places : List Place) (known more : List Path) :
    places.countP (fun p => !(pathTo p).amongst (known ++ more))
      ≤ places.countP fun p => !(pathTo p).amongst known := by
  refine List.countP_mono_left fun p _ h => ?_
  simp only [Path.amongst_append, Bool.not_or, Bool.and_eq_true] at h
  exact h.1

/-- More records make fewer files missing. -/
theorem missing_append_le (known more : List Path) :
    tree.missing (known ++ more) ≤ tree.missing known :=
  countP_amongst_append_le tree.filePlaces known more

/-- A file that gets recorded is not missing any more. -/
theorem missing_concat_lt {place : Place} (hplace : place ∈ tree.filePlaces)
    (hnew : (pathTo place).amongst known = false) :
    tree.missing (known ++ [pathTo place]) < tree.missing known := by
  obtain ⟨before, after, hplaces⟩ := List.append_of_mem hplace
  have hbefore := countP_amongst_append_le before known [pathTo place]
  have hafter := countP_amongst_append_le after known [pathTo place]
  have hknown : (pathTo place).amongst (known ++ [pathTo place]) = true := by
    simp [Path.same_refl]
  simp only [missing, hplaces, List.countP_append, List.countP_cons, hnew, hknown, Bool.not_true,
    Bool.not_false, if_true, Bool.false_eq_true, if_false]
  omega

/-- A path to a file leads to its place. -/
theorem exists_of_isFile {p : Path} (h : tree.isFile p = true) :
    ∃ place f, tree.resolve p = .ok place ∧ tree.entry? place = some (.file f) := by
  unfold isFile find? at h
  cases hplace : tree.resolve p with
  | error e => simp [hplace, bind, Except.bind] at h
  | ok place =>
      simp only [hplace, bind, Except.bind] at h
      cases hentry : tree.entry? place with
      | none => simp [hentry] at h
      | some e =>
          cases e with
          | directory => simp [hentry] at h
          | file f => exact ⟨place, f, rfl, hentry⟩

/-- What is found as a file is one of the entries. The working directory and
all above it are directories, so the first branch of `entry?` gives no file. -/
theorem mem_filePlaces {place : Place} {f : File} (h : tree.entry? place = some (.file f)) :
    place ∈ tree.filePlaces := by
  unfold entry? at h
  split at h
  · cases h
  · obtain ⟨before, after, hentries, -⟩ := List.lookup_eq_some_iff.mp h
    simp [filePlaces, hentries]

end FileTree

namespace Include

/-! ### What directives are about -/

/-- The file that a directive in a directory is about: the first that there
is, in the directory and then in the include paths. -/
def target? (job : Job) (dir : Path) (name : Text) : Option Path :=
  (candidates (normalize name).1 dir job.config.includePaths).find? job.tree.isFile

/-- The directory of a file, from which its own directives are resolved. -/
def directoryOf (path : Path) : Path := path.parent?.getD ⟨[]⟩

variable {job : Job}

/-- A target is a file, since only files are taken. -/
theorem isFile_of_target? {dir : Path} {name : Text} {path : Path}
    (h : target? job dir name = some path) : job.tree.isFile path = true :=
  List.find?_some h

/-- Reports change nothing about the recorded files. -/
theorem recorded_report {d : Diagnostic} {s s' : State} {u : Unit}
    (h : (Compile.report d).run job s = .ok u s') : s'.recorded = s.recorded := by
  rw [Compile.run_report] at h
  split at h
  · cases h
  · cases h
    rfl

/-- The search for the file of a directive. -/
def search (dir : Path) (name : Text) : Compile Path := do
  let job ← read
  match target? job dir name with
  | some found => return found
  | none =>
    Compile.abort (notFoundDiagnostic (normalize name).1
      (candidates (normalize name).1 dir job.config.includePaths))

/-- The search succeeds only with the target, and leaves the state as it was. -/
theorem run_search {dir : Path} {name : Text} {s s' : State} {path : Path}
    (h : (search dir name).run job s = .ok path s') : target? job dir name = some path ∧ s' = s := by
  obtain ⟨job', s₁, hread, h⟩ := exists_of_run_bind h
  cases hread
  cases htarget : target? job dir name with
  | none =>
      rw [htarget] at h
      cases h
  | some found =>
      rw [htarget] at h
      cases h
      exact ⟨rfl, rfl⟩

/-- An extension that is replaced is reported before the file is looked
for. -/
theorem run_locate {dir : Path} {name : Text} {s s' : State} {path : Path}
    (h : (locate dir name).run job s = .ok path s') :
    target? job dir name = some path ∧ s'.recorded = s.recorded := by
  have hsearch : ∃ s₁, (search dir name).run job s₁ = .ok path s' ∧ s₁.recorded = s.recorded := by
    unfold locate at h
    unfold search target?
    cases hname : normalize name with
    | mk p replaced =>
        rw [hname] at h
        cases replaced with
        | none => exact ⟨s, h, rfl⟩
        | some extension =>
            obtain ⟨u, s₁, hreport, h⟩ := exists_of_run_bind h
            exact ⟨s₁, h, recorded_report hreport⟩
  obtain ⟨s₁, h, hrecorded⟩ := hsearch
  obtain ⟨htarget, rfl⟩ := run_search h
  exact ⟨htarget, hrecorded⟩

/-- Reading a file depends on the tree of the job only. -/
theorem run_loadSource (path : Path) (s : State) :
    (Compile.loadSource path).run job s
      = match Source.load job.tree path with
        | .ok source => .ok source s
        | .error e => .error e s := by
  show (match Source.load job.tree path with
    | .ok source => return source
    | .error e => throw e : Compile Source).run job s = _
  split <;> rfl

/-- What an item that is resolved one level further down stands for. -/
def below (deeper : Option (Path → Text → Compile Text)) (dir : Path) (t : Text) : Compile Text :=
  match deeper with
  | some expand => expand dir t
  | none => return []

/-- A directive for a file that is there already stands for nothing, and
any other for the text of the file, in which includes are resolved. -/
theorem run_directive (deeper : Option (Path → Text → Compile Text)) (dir : Path) (name : Text)
    (s : State) :
    (expandItem deeper dir (.directive name)).run job s
      = match (locate dir name).run job s with
        | .error e s₁ => .error e s₁
        | .ok path s₁ =>
          match Source.load job.tree path with
          | .error e => .error e s₁
          | .ok source =>
            if (job.tree.fileKey path).amongst s₁.recorded then .ok [] s₁
            else (below deeper (directoryOf path) source.text).run job
              (s₁.recordFile (job.tree.fileKey path) source.modified) := by
  unfold expandItem
  rw [run_bind]
  cases (locate dir name).run job s with
  | error e s₁ => rfl
  | ok path s₁ =>
      simp only [run_bind, run_loadSource]
      cases Source.load job.tree path with
      | error e => rfl
      | ok source =>
          -- A file that is known is not recorded again, and one that is not known is read at
          -- the level below, if there is one.
          show (match deeper with
            | some expand =>
              if (!s₁.hasFile (job.tree.fileKey path)) = true
              then expand (directoryOf path) source.text else return []
            | none => return [] : Compile Text).run job
              (s₁.recordFile (job.tree.fileKey path) source.modified) = _
          rw [State.hasFile_eq]
          by_cases hknown : (job.tree.fileKey path).amongst s₁.recorded = true
          · have hsame : s₁.recordFile (job.tree.fileKey path) source.modified = s₁ := by
              rw [State.recordFile, s₁.hasFile_eq, if_pos hknown]
            cases deeper <;> simp [hknown, hsame] <;> rfl
          · cases deeper <;> simp [hknown, below]

/-! ### Splices -/

/-- A text as its includes make it: pieces that are kept, directives that
stand for nothing, and directives in whose place another text is put. -/
inductive Splice where
  | done
  | text (t : Text) (rest : Splice)
  | skipped (path : Path) (rest : Splice)
  | spliced (path : Path) (inside rest : Splice)

namespace Splice

/-- The text that a splice makes. -/
def output : Splice → Text
  | done => []
  | text t rest => t ++ rest.output
  | skipped _ rest => rest.output
  | spliced _ inside rest => inside.output ++ rest.output

/-- The directives in the order in which they are met, those of a text
before those behind its directive. Each is given by the file it is about,
and by whether the text of that file is put in its place. -/
def visits : Splice → List (Path × Bool)
  | done => []
  | text _ rest => rest.visits
  | skipped path rest => (path, false) :: rest.visits
  | spliced path inside rest => (path, true) :: (inside.visits ++ rest.visits)

/-- The files whose texts are put in, in order. Each is given by the path
under which it was found. -/
def inserted (F : Splice) : List Path := (F.visits.filter (·.2)).map Prod.fst

/-- A file is inserted where it is met and its text is put in. -/
theorem mem_inserted_iff {F : Splice} {p : Path} : p ∈ F.inserted ↔ (p, true) ∈ F.visits := by
  simp [inserted]

end Splice

/-- A splice is made from the pieces and directives of a text that lies in a
directory. Whatever is no directive is kept. Each directive is about its
target, and what is put in its place is made from the text of that file. -/
inductive Reads (job : Job) : Path → Cut Item → Splice → Prop
  | done (dir : Path) (rest : Text) : Reads job dir ⟨[], rest⟩ (.text rest .done)
  | inert {dir : Path} {gap t rest : Text} {parts : List (Text × Item)} {F : Splice}
      (hrest : Reads job dir ⟨parts, rest⟩ F) :
      Reads job dir ⟨(gap, .inert t) :: parts, rest⟩ (.text gap (.text t F))
  | skipped {dir path : Path} {gap name rest : Text} {parts : List (Text × Item)} {F : Splice}
      (htarget : target? job dir name = some path) (hrest : Reads job dir ⟨parts, rest⟩ F) :
      Reads job dir ⟨(gap, .directive name) :: parts, rest⟩ (.text gap (.skipped path F))
  | spliced {dir path : Path} {gap name rest : Text} {parts : List (Text × Item)}
      {source : Source} {inside F : Splice} (htarget : target? job dir name = some path)
      (hsource : Source.load job.tree path = .ok source)
      (hinside : Reads job (directoryOf path) (cut source.text) inside)
      (hrest : Reads job dir ⟨parts, rest⟩ F) :
      Reads job dir ⟨(gap, .directive name) :: parts, rest⟩ (.text gap (.spliced path inside F))

/-- The keys of the files whose text is put somewhere. -/
def splicedKeys (tree : FileTree) (visits : List (Path × Bool)) : List Path :=
  (visits.filter (·.2)).map fun v => tree.fileKey v.1

/-- The keys of the texts that are put in, from the visits or from the splice. -/
theorem splicedKeys_eq_map (tree : FileTree) (F : Splice) :
    splicedKeys tree F.visits = F.inserted.map tree.fileKey := by
  simp [splicedKeys, Splice.inserted]

/-- A text is put in where its file is met first, counting those that are
known before. -/
def FirstOnly (tree : FileTree) : List Path → List (Path × Bool) → Prop
  | _, [] => True
  | known, v :: visits =>
    v.2 = !(tree.fileKey v.1).amongst known
      ∧ FirstOnly tree (known ++ splicedKeys tree [v]) visits

section

variable {tree : FileTree} {known : List Path}

/-- One visit more adds one key or none. -/
theorem splicedKeys_cons (v : Path × Bool) (visits : List (Path × Bool)) :
    splicedKeys tree (v :: visits) = splicedKeys tree [v] ++ splicedKeys tree visits := by
  cases h : v.2 <;> simp [splicedKeys, h]

/-- The condition for a row of visits can be checked in two parts, if the first
part counts as known for the second. -/
theorem firstOnly_append {visits more : List (Path × Bool)} :
    FirstOnly tree known (visits ++ more)
      ↔ FirstOnly tree known visits ∧ FirstOnly tree (known ++ splicedKeys tree visits) more := by
  induction visits generalizing known with
  | nil => simp [FirstOnly, splicedKeys]
  | cons v visits ih =>
      rw [splicedKeys_cons v visits, List.cons_append, FirstOnly, FirstOnly, ih, List.append_assoc,
        and_assoc]

/-- Whatever is met is known afterwards. -/
theorem FirstOnly.amongst {visits : List (Path × Bool)} (h : FirstOnly tree known visits) :
    ∀ v ∈ visits, (tree.fileKey v.1).amongst (known ++ splicedKeys tree visits) = true := by
  induction visits generalizing known with
  | nil => simp
  | cons v visits ih =>
      rw [splicedKeys_cons, ← List.append_assoc]
      intro w hw
      rcases List.mem_cons.mp hw with rfl | hw
      · -- If it was not known before, then its key is the first of the new ones.
        have hfirst := h.1
        cases hspliced : w.2 with
        | true => simp [splicedKeys, hspliced, Path.same_refl]
        | false =>
            rw [hspliced] at hfirst
            simp only [Path.amongst_append, Bool.or_eq_true]
            exact .inl (.inl (by simpa using hfirst.symm))
      · exact ih h.2 w hw

end

/-! ### Runs make splices -/

/-- A run that makes a splice and records the files of it. -/
def Traced (job : Job) (dir : Path) (c : Cut Item) (s : State) (out : Text) (s' : State) : Prop :=
  ∃ F, Reads job dir c F ∧ F.output = out ∧ FirstOnly job.tree s.recorded F.visits
    ∧ s'.recorded = s.recorded ++ splicedKeys job.tree F.visits

/-- Runs one level further down make splices, if fewer than `n` files are
missing. -/
def TracedBelow (job : Job) (n : Nat) (deeper : Option (Path → Text → Compile Text)) : Prop :=
  ∀ (dir : Path) (t : Text) (s : State) (out : Text) (s' : State),
    job.tree.missing s.recorded < n → (below deeper dir t).run job s = .ok out s' →
      Traced job dir (cut t) s out s'

/-- A file that is found and new is one of those that were missing. -/
theorem missing_lt_of_target? {dir : Path} {name : Text} {path : Path} {known : List Path}
    (htarget : target? job dir name = some path)
    (hnew : (job.tree.fileKey path).amongst known = false) :
    job.tree.missing (known ++ [job.tree.fileKey path]) < job.tree.missing known := by
  obtain ⟨place, f, hplace, hfile⟩ := FileTree.exists_of_isFile (isFile_of_target? htarget)
  have hkey : job.tree.fileKey path = FileTree.pathTo place := by
    simp [FileTree.fileKey, hplace]
  rw [hkey] at hnew ⊢
  exact FileTree.missing_concat_lt (FileTree.mem_filePlaces hfile) hnew

/-- One item. What is resolved below it has fewer files to find, and makes
the inside of the splice. -/
theorem traced_item {n : Nat} {deeper : Option (Path → Text → Compile Text)}
    (hdeeper : TracedBelow job n deeper)
    {dir : Path} {item : Item} {s s₁ : State} {new : Text}
    (hmissing : job.tree.missing s.recorded ≤ n)
    (h : (expandItem deeper dir item).run job s = .ok new s₁) :
    job.tree.missing s₁.recorded ≤ n
    ∧ ∀ {gap rest others : Text} {parts : List (Text × Item)} {s' : State},
      Traced job dir ⟨parts, rest⟩ s₁ others s' →
        Traced job dir ⟨(gap, item) :: parts, rest⟩ s (gap ++ (new ++ others)) s' := by
  cases item with
  | inert t =>
      cases h
      refine ⟨hmissing, ?_⟩
      rintro gap rest others parts s' ⟨F, hreads, rfl, hfirst, hrecorded⟩
      exact ⟨.text gap (.text new F), .inert hreads, rfl, hfirst, hrecorded⟩
  | directive name =>
      rw [run_directive] at h
      cases hlocate : (locate dir name).run job s with
      | error e s₂ => simp [hlocate] at h
      | ok path s₂ =>
        obtain ⟨htarget, hsame⟩ := run_locate hlocate
        cases hsource : Source.load job.tree path with
        | error e => simp [hlocate, hsource] at h
        | ok source =>
          simp only [hlocate, hsource, hsame] at h
          cases hknown : (job.tree.fileKey path).amongst s.recorded with
          | true =>
              -- The directive stands for nothing, and nothing is recorded.
              rw [hknown, if_pos rfl] at h
              cases h
              refine ⟨by rwa [hsame], ?_⟩
              rintro gap rest others parts s' ⟨F, hreads, rfl, hfirst, hrecorded⟩
              rw [hsame] at hfirst hrecorded
              refine ⟨.text gap (.skipped path F), .skipped htarget hreads, rfl, ⟨?_, ?_⟩, ?_⟩
              · simp [hknown]
              · simpa [splicedKeys] using hfirst
              · simpa [Splice.visits, splicedKeys] using hrecorded
          | false =>
              -- The file is recorded first, so that it is not missing for the texts below.
              rw [hknown, if_neg (by simp)] at h
              have hrecord : (s₂.recordFile (job.tree.fileKey path) source.modified).recorded
                  = s.recorded ++ [job.tree.fileKey path] := by
                rw [State.recorded_recordFile (by rw [hsame, hknown]), hsame]
              have hfewer : job.tree.missing
                  (s₂.recordFile (job.tree.fileKey path) source.modified).recorded < n := by
                rw [hrecord]
                exact Nat.lt_of_lt_of_le (missing_lt_of_target? htarget hknown) hmissing
              obtain ⟨inside, hinside, rfl, hfirstInside, hrecordedInside⟩ :=
                hdeeper _ _ _ _ _ hfewer h
              rw [hrecord] at hfirstInside hrecordedInside
              refine ⟨?_, ?_⟩
              · rw [hrecordedInside, List.append_assoc]
                exact Nat.le_trans (FileTree.missing_append_le _ _) hmissing
              rintro gap rest others parts s' ⟨F, hreads, rfl, hfirst, hrecorded⟩
              rw [hrecordedInside] at hfirst hrecorded
              refine ⟨.text gap (.spliced path inside F),
                .spliced htarget hsource hinside hreads, rfl, ⟨?_, ?_⟩, ?_⟩
              · simp [hknown]
              · rw [firstOnly_append]
                exact ⟨hfirstInside, hfirst⟩
              · rw [hrecorded]
                simp [Splice.visits, splicedKeys]

/-- The items of a text one after the other. -/
theorem traced_fillParts {n : Nat} {deeper : Option (Path → Text → Compile Text)}
    (hdeeper : TracedBelow job n deeper)
    {dir : Path} {rest out : Text} {parts : List (Text × Item)} {s s' : State}
    (hmissing : job.tree.missing s.recorded ≤ n)
    (h : (Cut.fillParts (expandItem deeper dir) rest parts).run job s = .ok out s') :
    Traced job dir ⟨parts, rest⟩ s out s' := by
  induction parts generalizing s out with
  | nil =>
      cases h
      exact ⟨.text rest .done, .done dir rest, by simp [Splice.output], trivial,
        by simp [Splice.visits, splicedKeys]⟩
  | cons part parts ih =>
      obtain ⟨gap, item⟩ := part
      obtain ⟨new, s₁, hitem, h⟩ := exists_of_run_bind h
      obtain ⟨others, s₂, hrest, h⟩ := exists_of_run_bind h
      cases h
      obtain ⟨hmissing', htraced⟩ := traced_item hdeeper hmissing hitem
      exact htraced (ih hmissing' hrest)

/-- What resolves the includes of an included text. -/
def deeperOf : Nat → Option (Path → Text → Compile Text)
  | 0 => none
  | levels + 1 => some (expandLevels levels)

/-- Both equations of the recursion in one, with `deeperOf` for what happens
one level further down. -/
theorem expandLevels_eq (levels : Nat) (dir : Path) (t : Text) :
    expandLevels levels dir t = (cut t).fillM (expandItem (deeperOf levels) dir) := by
  cases levels <;> rfl

/-- By induction on the number of levels, with one file less missing on each. -/
theorem tracedBelow_deeperOf (job : Job) (levels : Nat) :
    TracedBelow job levels (deeperOf levels) := by
  induction levels with
  | zero => exact fun _ _ _ _ _ hfewer => absurd hfewer (Nat.not_lt_zero _)
  | succ levels ih =>
      intro dir t s out s' hfewer hrun
      have h : (expandLevels levels dir t).run job s = .ok out s' := hrun
      rw [expandLevels_eq] at h
      exact traced_fillParts ih (Nat.le_of_lt_succ hfewer) h

/-- With as many levels as files are missing, every file that is new gets
its text put in. -/
theorem traced_expandLevels {levels : Nat} {dir : Path} {t out : Text} {s s' : State}
    (hmissing : job.tree.missing s.recorded ≤ levels)
    (h : (expandLevels levels dir t).run job s = .ok out s') :
    Traced job dir (cut t) s out s' := by
  rw [expandLevels_eq] at h
  exact traced_fillParts (tracedBelow_deeperOf job levels) hmissing h

/-! ### The number of levels -/

section

variable {n : Nat} {deeper deeper' : Option (Path → Text → Compile Text)}

/-- Two ways to go further down make no difference for an item, if they
make none where a file less is missing. -/
theorem run_expandItem_congr
    (hagree : ∀ (dir : Path) (t : Text) (s : State), job.tree.missing s.recorded < n →
      (below deeper dir t).run job s = (below deeper' dir t).run job s)
    {s : State} (hmissing : job.tree.missing s.recorded ≤ n) (dir : Path) (item : Item) :
    (expandItem deeper dir item).run job s = (expandItem deeper' dir item).run job s := by
  cases item with
  | inert t => rfl
  | directive name =>
      rw [run_directive, run_directive]
      cases hlocate : (locate dir name).run job s with
      | error e s₁ => rfl
      | ok path s₁ =>
        obtain ⟨htarget, hsame⟩ := run_locate hlocate
        cases hsource : Source.load job.tree path with
        | error e => simp [hsource]
        | ok source =>
          cases hknown : (job.tree.fileKey path).amongst s₁.recorded with
          | true => simp [hsource, hknown]
          | false =>
              -- A new file is recorded now, so fewer files are missing for the level below.
              have hfewer : job.tree.missing
                  (s₁.recordFile (job.tree.fileKey path) source.modified).recorded < n := by
                rw [State.recorded_recordFile hknown, hsame]
                rw [hsame] at hknown
                exact Nat.lt_of_lt_of_le (missing_lt_of_target? htarget hknown) hmissing
              simp [hsource, hknown, hagree _ _ _ hfewer]

/-- Two ways to go further down make no difference for a row of items.
`hdeeper` is there because one item may record files, and then the next one has
to start with as few missing. -/
theorem run_fillParts_congr (hdeeper : TracedBelow job n deeper)
    (hagree : ∀ (dir : Path) (t : Text) (s : State), job.tree.missing s.recorded < n →
      (below deeper dir t).run job s = (below deeper' dir t).run job s)
    (dir : Path) (rest : Text) (parts : List (Text × Item)) {s : State}
    (hmissing : job.tree.missing s.recorded ≤ n) :
    (Cut.fillParts (expandItem deeper dir) rest parts).run job s
      = (Cut.fillParts (expandItem deeper' dir) rest parts).run job s := by
  induction parts generalizing s with
  | nil => rfl
  | cons part parts ih =>
      obtain ⟨gap, item⟩ := part
      unfold Cut.fillParts
      rw [run_bind, run_bind, ← run_expandItem_congr hagree hmissing]
      cases hitem : (expandItem deeper dir item).run job s with
      | error e s₁ => rfl
      | ok new s₁ =>
          simp only [run_bind, ih (traced_item hdeeper hmissing hitem).1]

end

/-- One level more than files are missing is one too many. -/
theorem run_expandLevels_succ (levels : Nat) (dir : Path) (t : Text) {s : State}
    (hmissing : job.tree.missing s.recorded ≤ levels) :
    (expandLevels (levels + 1) dir t).run job s = (expandLevels levels dir t).run job s := by
  have hagree : ∀ (dir : Path) (t : Text) (s : State), job.tree.missing s.recorded < levels →
      (below (deeperOf levels) dir t).run job s = (below (deeperOf (levels + 1)) dir t).run job s := by
    intro dir t s hfewer
    cases levels with
    | zero => exact absurd hfewer (Nat.not_lt_zero _)
    | succ levels => exact (run_expandLevels_succ levels dir t (Nat.le_of_lt_succ hfewer)).symm
  rw [expandLevels_eq, expandLevels_eq]
  exact (run_fillParts_congr (tracedBelow_deeperOf job levels) hagree dir _ _ hmissing).symm

/-- More levels than files are missing make no difference. -/
theorem run_expandLevels_of_le {levels more : Nat} (hle : levels ≤ more) (dir : Path) (t : Text)
    {s : State} (hmissing : job.tree.missing s.recorded ≤ levels) :
    (expandLevels more dir t).run job s = (expandLevels levels dir t).run job s := by
  induction more, hle using Nat.le_induction with
  | base => rfl
  | succ more hle ih =>
      rw [run_expandLevels_succ more dir t (Nat.le_trans hmissing hle), ih]

/-! ### Reachable files -/

/-- The files that the directives of a text lead to, and the directives of
those files, and so on. The directives of a file are taken from the directory
of its path, if that path is one of those that are used. A directive that is
about the document itself leads back to it and not to what lies in the file
by now. -/
inductive Reaches (job : Job) (used : Path → Prop) (root dir : Path) (t : Text) : Path → Prop
  | direct {name : Text} {path : Path} (hname : .directive name ∈ (cut t).items)
      (htarget : target? job dir name = some path) : Reaches job used root dir t path
  | step {p path : Path} {source : Source} {name : Text} (hp : Reaches job used root dir t p)
      (hused : used p) (hroot : root.same (job.tree.fileKey p) = false)
      (hsource : Source.load job.tree p = .ok source)
      (hname : .directive name ∈ (cut source.text).items)
      (htarget : target? job (directoryOf p) name = some path) : Reaches job used root dir t path

variable {used used' : Path → Prop} {root dir : Path} {t : Text} {c : Cut Item} {F : Splice}

/-- All that is reached are files. -/
theorem Reaches.isFile {path : Path} (h : Reaches job used root dir t path) :
    job.tree.isFile path = true := by
  cases h with
  | direct _ htarget => exact isFile_of_target? htarget
  | step _ _ _ _ _ htarget => exact isFile_of_target? htarget

/-- More names reach more files. -/
theorem Reaches.mono (hmore : ∀ p, used p → used' p) {path : Path}
    (h : Reaches job used root dir t path) : Reaches job used' root dir t path := by
  induction h with
  | direct hname htarget => exact .direct hname htarget
  | step _ hused hroot hsource hname htarget ih =>
      exact .step ih (hmore _ hused) hroot hsource hname htarget

/-- All directives of a text are met. -/
theorem Reads.exists_visit {name : Text} {path : Path} (h : Reads job dir c F)
    (hname : .directive name ∈ c.items) (htarget : target? job dir name = some path) :
    ∃ spliced, (path, spliced) ∈ F.visits := by
  induction h with
  | done dir rest => simp [Cut.items] at hname
  | inert hrest ih =>
      exact ih (by simpa [Cut.items] using hname) htarget
  | skipped htarget' hrest ih =>
      rcases List.mem_cons.mp hname with hitem | hname
      · cases hitem
        cases htarget'.symm.trans htarget
        exact ⟨false, List.mem_cons_self⟩
      · obtain ⟨spliced, hmem⟩ := ih hname htarget
        exact ⟨spliced, List.mem_cons_of_mem _ hmem⟩
  | spliced htarget' hsource hinside hrest _ ih =>
      rcases List.mem_cons.mp hname with hitem | hname
      · cases hitem
        cases htarget'.symm.trans htarget
        exact ⟨true, List.mem_cons_self⟩
      · obtain ⟨spliced, hmem⟩ := ih hname htarget
        exact ⟨spliced, List.mem_cons_of_mem _ (List.mem_append_right _ hmem)⟩

/-- So are those of the texts that are put in. -/
theorem Reads.exists_inside {path : Path} (h : Reads job dir c F) (hpath : (path, true) ∈ F.visits) :
    ∃ source inside, Source.load job.tree path = .ok source
      ∧ Reads job (directoryOf path) (cut source.text) inside ∧ inside.visits ⊆ F.visits := by
  induction h with
  | done dir rest => simp [Splice.visits] at hpath
  | inert hrest ih => exact ih hpath
  | skipped htarget hrest ih =>
      rcases List.mem_cons.mp hpath with hhere | hpath
      · cases hhere
      · obtain ⟨source, inside, hsource, hreads, hsub⟩ := ih hpath
        exact ⟨source, inside, hsource, hreads, fun v hv => List.mem_cons_of_mem _ (hsub hv)⟩
  -- The file was inserted here, or within the file that is inserted here, or behind it.
  | spliced htarget hsource hinside hrest ihinside ihrest =>
      rcases List.mem_cons.mp hpath with hhere | hpath
      · cases hhere
        exact ⟨_, _, hsource, hinside,
          fun v hv => List.mem_cons_of_mem _ (List.mem_append_left _ hv)⟩
      · rcases List.mem_append.mp hpath with hpath | hpath
        · obtain ⟨source, inside, hsource, hreads, hsub⟩ := ihinside hpath
          exact ⟨source, inside, hsource, hreads,
            fun v hv => List.mem_cons_of_mem _ (List.mem_append_left _ (hsub hv))⟩
        · obtain ⟨source, inside, hsource, hreads, hsub⟩ := ihrest hpath
          exact ⟨source, inside, hsource, hreads,
            fun v hv => List.mem_cons_of_mem _ (List.mem_append_right _ (hsub hv))⟩

/-- Only reachable files are met. The document is none of those whose text
is put in, or what is behind its directives would not count as reached. -/
theorem Reads.reaches {dir' : Path} (h : Reads job dir' c F)
    (hspliced : ∀ v ∈ F.visits, v.2 = true →
      used v.1 ∧ root.same (job.tree.fileKey v.1) = false)
    (hitems : ∀ name path, .directive name ∈ c.items → target? job dir' name = some path →
      Reaches job used root dir t path) :
    ∀ v ∈ F.visits, Reaches job used root dir t v.1 := by
  induction h with
  | done dir rest => simp [Splice.visits]
  | inert hrest ih =>
      exact ih hspliced fun name path hname => hitems name path (List.mem_cons_of_mem _ hname)
  | skipped htarget hrest ih =>
      have hrest' := ih (fun v hv => hspliced v (List.mem_cons_of_mem _ hv))
        fun name path hname => hitems name path (List.mem_cons_of_mem _ hname)
      exact List.forall_mem_cons.mpr ⟨hitems _ _ List.mem_cons_self htarget, hrest'⟩
  | spliced htarget hsource hinside hrest ihinside ihrest =>
      -- The directives of the file are one step further, because it is not the document.
      have hpath := hitems _ _ List.mem_cons_self htarget
      obtain ⟨hused, hroot⟩ := hspliced _ List.mem_cons_self rfl
      have hinside' := ihinside
        (fun v hv => hspliced v (List.mem_cons_of_mem _ (List.mem_append_left _ hv)))
        fun name path hname => .step hpath hused hroot hsource hname
      have hrest' := ihrest
        (fun v hv => hspliced v (List.mem_cons_of_mem _ (List.mem_append_right _ hv)))
        fun name path hname => hitems name path (List.mem_cons_of_mem _ hname)
      exact List.forall_mem_cons.mpr ⟨hpath, List.forall_mem_append.mpr ⟨hinside', hrest'⟩⟩

section

variable {tree : FileTree} {known : List Path} {visits : List (Path × Bool)}

/-- A key among those of the visits is that of a file whose text was put in. -/
theorem exists_of_amongst_splicedKeys {p : Path}
    (h : p.amongst (splicedKeys tree visits) = true) :
    ∃ q, (q, true) ∈ visits ∧ (tree.fileKey q).same p = true := by
  obtain ⟨k, hk, hsame⟩ := List.any_eq_true.mp h
  obtain ⟨⟨q, spliced⟩, hv, rfl⟩ := List.mem_map.mp hk
  obtain ⟨hv, hspliced⟩ := List.mem_filter.mp hv
  cases hspliced
  exact ⟨q, hv, hsame⟩

/-- The text of a file that is known before is not put in anywhere. -/
theorem FirstOnly.same_eq_false (h : FirstOnly tree known visits) {p : Path}
    (hp : p.amongst known = true) :
    ∀ v ∈ visits, v.2 = true → (tree.fileKey v.1).same p = false := by
  induction visits generalizing known with
  | nil => simp
  | cons v visits ih =>
      refine List.forall_mem_cons.mpr ⟨?_, ih h.2 (by simp [hp])⟩
      intro hspliced
      have hnew := h.1
      rw [hspliced] at hnew
      by_contra hsame
      rw [Path.amongst_congr (by simpa using hsame), hp] at hnew
      cases hnew

/-- That of a file that is met and not known before is put in once. -/
theorem FirstOnly.countP_eq_one (h : FirstOnly tree known visits) {p : Path}
    (hp : p.amongst known = false) (hmet : ∃ v ∈ visits, (tree.fileKey v.1).same p = true) :
    visits.countP (fun v => v.2 && (tree.fileKey v.1).same p) = 1 := by
  induction visits generalizing known with
  | nil => simp at hmet
  | cons v visits ih =>
      cases hsame : (tree.fileKey v.1).same p with
      | true =>
          have hspliced : v.2 = true := by
            rw [h.1, Path.amongst_congr hsame, hp]
            rfl
          have hknown : p.amongst (known ++ splicedKeys tree [v]) = true := by
            simp [splicedKeys, hspliced, hsame]
          -- Behind its first visit the file is known, and no other visit inserts it.
          have hnone : visits.countP (fun v => v.2 && (tree.fileKey v.1).same p) = 0 := by
            rw [List.countP_eq_zero]
            intro w hw hcount
            rw [Bool.and_eq_true] at hcount
            have hother := h.2.same_eq_false hknown w hw hcount.1
            simp [hother] at hcount
          rw [List.countP_cons, hnone]
          simp [hspliced, hsame]
      | false =>
          have hp' : p.amongst (known ++ splicedKeys tree [v]) = false := by
            cases hspliced : v.2 <;> simp [splicedKeys, hspliced, hsame, hp]
          have hmet' : ∃ w ∈ visits, (tree.fileKey w.1).same p = true := by
            simpa [hsame] using hmet
          rw [List.countP_cons, ih h.2 hp' hmet']
          simp [hsame]

/-- Where a text is put in, its file is not known. -/
theorem FirstOnly.spliced_iff
    (h : FirstOnly tree known visits) {before after : List (Path × Bool)} {p : Path}
    {spliced : Bool} (hvisits : visits = before ++ (p, spliced) :: after) :
    spliced = true ↔ (tree.fileKey p).amongst known = false
      ∧ ∀ v ∈ before, (tree.fileKey v.1).same (tree.fileKey p) = false := by
  rw [hvisits, firstOnly_append] at h
  obtain ⟨hbefore, hspliced, -⟩ := h
  simp only [Path.amongst_append, Bool.not_or] at hspliced
  rw [hspliced, Bool.and_eq_true, Bool.not_eq_true', Bool.not_eq_true', and_congr_right_iff]
  intro hknown
  constructor
  · intro hkeys v hv
    -- A file that was met before is known at this point.
    cases hsame : (tree.fileKey v.1).same (tree.fileKey p) with
    | false => rfl
    | true =>
        have hamongst := hbefore.amongst v hv
        rw [Path.amongst_congr hsame, Path.amongst_append, hknown, hkeys] at hamongst
        cases hamongst
  · intro hall
    simp only [Path.amongst, List.any_eq_false, splicedKeys, List.mem_map, List.mem_filter]
    rintro k ⟨v, ⟨hv, -⟩, rfl⟩
    simp [hall v hv]

end

/-- What can be loaded is a file. -/
theorem isFile_of_load {tree : FileTree} {p : Path} {source : Source}
    (h : Source.load tree p = .ok source) : tree.isFile p = true := by
  unfold Source.load FileTree.read at h
  unfold FileTree.isFile
  cases hfind : tree.find? p with
  | error e => simp [hfind, bind, Except.bind] at h
  | ok e =>
      cases e with
      | directory => simp [hfind, bind, Except.bind] at h
      | file f => rfl

/-- All that is met is reached by the names under which texts are put in. -/
theorem reaches_of_mem_visits (hreads : Reads job dir (cut t) F)
    (hfirst : FirstOnly job.tree [root] F.visits) :
    ∀ v ∈ F.visits, Reaches job (· ∈ F.inserted) root dir t v.1 := by
  refine hreads.reaches ?_ fun name path => .direct
  rintro ⟨p, spliced⟩ hv rfl
  obtain ⟨before, after, hvisits⟩ := List.append_of_mem hv
  have hnew := ((hfirst.spliced_iff hvisits).mp rfl).1
  exact ⟨Splice.mem_inserted_iff.mpr hv, by simpa using hnew⟩

/-- All that is reached by these names is met. -/
theorem Reaches.exists_visit (hreads : Reads job dir (cut t) F) {path : Path}
    (h : Reaches job (· ∈ F.inserted) root dir t path) : ∃ spliced, (path, spliced) ∈ F.visits := by
  cases h with
  | direct hname htarget => exact hreads.exists_visit hname htarget
  | step _ hused _ hsource hname htarget =>
      obtain ⟨source', inside, hsource', hinside, hsub⟩ :=
        hreads.exists_inside (Splice.mem_inserted_iff.mp hused)
      cases hsource.symm.trans hsource'
      obtain ⟨spliced, hmem⟩ := hinside.exists_visit hname htarget
      exact ⟨spliced, hsub hmem⟩

/-- The recorded files are the document and those that can be reached, and
of each of the latter the text is put in once. -/
structure IsClosure (job : Job) (used : Path → Prop) (root dir : Path) (t : Text) (F : Splice)
    (recorded : List Path) : Prop where
  recorded_iff : ∀ p, p.amongst recorded = true
    ↔ root.same p = true
      ∨ ∃ q, Reaches job used root dir t q ∧ (job.tree.fileKey q).same p = true
  spliced_once : ∀ q, Reaches job used root dir t q → root.same (job.tree.fileKey q) = false →
    F.visits.countP (fun v => v.2 && (job.tree.fileKey v.1).same (job.tree.fileKey q)) = 1

/-- A splice meets just what the names reach under which its texts are put in.
Nothing is assumed of the tree: the names are those of the splice itself. -/
theorem isClosure_inserted (hreads : Reads job dir (cut t) F)
    (hfirst : FirstOnly job.tree [root] F.visits) :
    IsClosure job (· ∈ F.inserted) root dir t F (root :: F.inserted.map job.tree.fileKey) where
  recorded_iff := by
    intro p
    rw [← splicedKeys_eq_map, Path.amongst_cons, Bool.or_eq_true]
    constructor
    · rintro (h | h)
      · exact .inl h
      · obtain ⟨q, hq, hsame⟩ := exists_of_amongst_splicedKeys h
        exact .inr ⟨q, reaches_of_mem_visits hreads hfirst _ hq, hsame⟩
    · rintro (h | ⟨q, hq, hsame⟩)
      · exact .inl h
      · -- What is reached was visited, and whatever was visited is known in the end.
        obtain ⟨spliced, hv⟩ := hq.exists_visit hreads
        have hknown := hfirst.amongst _ hv
        rw [Path.amongst_congr hsame, List.singleton_append, Path.amongst_cons,
          Bool.or_eq_true] at hknown
        exact hknown
  spliced_once := by
    intro q hq hroot
    obtain ⟨spliced, hv⟩ := hq.exists_visit hreads
    exact hfirst.countP_eq_one (by simpa using hroot) ⟨_, hv, Path.same_refl _⟩

/-- Files that include each other by several paths, the document, and one
in a directory of the include paths. One of them is first found over a link
from another directory, in which its own directive is about another file. -/
def ring : Job where
  path := .of "main.css"
  config := { includePaths := [.of "lib"] }
  tree :=
    { workDir := ["w".toList]
      entries :=
        [ (["w".toList, "a.css".toList], .file ⟨some "A@include './b.css'; a".toList, none⟩),
          (["w".toList, "b.css".toList], .file ⟨some "X".toList, none⟩),
          (["w".toList, "d".toList], .directory),
          (["w".toList, "d".toList, "b.css".toList],
            .file ⟨some "B@include '../a';@include \"../main.css\";@include 'c.css'b".toList, none⟩),
          (["w".toList, "lib".toList], .directory),
          (["w".toList, "lib".toList, "c.css".toList],
            .file ⟨some "C@include 'c.css';".toList, none⟩),
          (["w".toList, "main.css".toList], .file ⟨some "@include 'lib/c';".toList, none⟩) ]
      links := [(["w".toList, "d".toList, "a.css".toList], .of "../a.css")] }

end Include

end Stylesheet
