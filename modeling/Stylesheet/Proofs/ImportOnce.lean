import Mathlib.Data.List.Nodup
import Stylesheet.Compiler
import Stylesheet.Proofs.IncludeClosure

/-!
# How often a file goes into a document

The first phase brings files into a document in two ways. Includes are
resolved, and then the stylesheets of the mixin directory are appended. The
first way looks at the recorded files before it brings one in, and records it
by its key. The second way brings in every stylesheet there is, and records
it by the path under which it is listed.

So each way by itself brings in a file once at most, and both together do
not. `importing_once_iff` says when a file goes in twice: when it lies in the
mixin directory, and its key was recorded while includes were resolved. It has
two records if it is listed under another path than the one it is recorded by.

Files are told apart by their places. A path is of the file at a place if its
key is that of the place (`FileTree.isOf`), and for a path that leads somewhere
this means that it leads to the place (`FileTree.isOf_iff`). All this holds
whatever links there are: includes may find a file over a link, and the mixin
directory may be named by one.
-/

set_option autoImplicit false

namespace Stylesheet

namespace FileTree

/-- A tree as file systems are: a place has one entry, entries lie at places
that are made of names, and none lies at or below a link. -/
structure IsSound (tree : FileTree) : Prop where
  workDir : ∀ n ∈ tree.workDir, Path.IsProper n
  names : ∀ e ∈ tree.entries, ∀ n ∈ e.1, Path.IsProper n
  distinct : (tree.entries.map Prod.fst).Nodup
  links : ∀ l ∈ tree.links, ∀ e ∈ tree.entries, ¬ l.1 <+: e.1

/-- The directories above a place are different, and none of them is the
place. -/
theorem nodup_parents (place : Place) :
    ((List.range place.length).map place.take ++ [place]).Nodup := by
  have hall : (List.range place.length).map place.take ++ [place]
      = (List.range (place.length + 1)).map place.take := by
    rw [List.range_succ, List.map_append, List.map_singleton, List.take_length]
  rw [hall]
  refine List.Nodup.map_on ?_ List.nodup_range
  intro i hi j hj heq
  have hlength := congrArg List.length heq
  rw [List.mem_range] at hi hj
  rw [List.length_take, List.length_take] at hlength
  omega

/-- Where nothing is found there is no entry. The converse is wrong: the
working directory is found without one. -/
theorem not_mem_of_entry?_eq_none {tree : FileTree} {place : Place}
    (h : tree.entry? place = none) : place ∉ tree.entries.map Prod.fst := by
  unfold entry? at h
  split at h
  · cases h
  · intro hmem
    obtain ⟨e, he, rfl⟩ := List.mem_map.mp hmem
    simpa using List.lookup_eq_none_iff.mp h e he

/-- An entry may be added anywhere but at or below a link. -/
theorem IsSound.add {tree : FileTree} (h : tree.IsSound) {place : Place}
    (hplace : ∀ n ∈ place, Path.IsProper n) (hlinks : ∀ l ∈ tree.links, ¬ l.1 <+: place)
    (e : Entry) : (tree.add place e).IsSound where
  workDir := h.workDir
  names := by
    intro x hx n hn
    simp only [FileTree.add, List.mem_append, List.mem_map, List.mem_filter, List.mem_singleton] at hx
    rcases hx with (⟨hx, -⟩ | ⟨p, ⟨⟨i, -, rfl⟩, -⟩, rfl⟩) | rfl
    · exact h.names x hx n hn
    · exact hplace n (List.mem_of_mem_take hn)
    · exact hplace n hn
  distinct := by
    -- The places of the new entries: the directories that were not there, and the file itself.
    let missing := ((List.range place.length).map place.take).filter
      fun p => (tree.entry? p).isNone
    have hplaces : (tree.add place e).entries.map Prod.fst
        = (tree.entries.filter fun x => x.1 != place).map Prod.fst ++ (missing ++ [place]) := by
      simp [FileTree.add, missing, List.map_append, Function.comp_def]
    have hnew : (missing ++ [place]).Nodup :=
      (nodup_parents place).sublist (List.filter_sublist.append (List.Sublist.refl _))
    rw [hplaces]
    refine List.nodup_append'.mpr ⟨h.distinct.sublist (List.filter_sublist.map _), hnew, ?_⟩
    intro p hp hp'
    obtain ⟨x, hx, rfl⟩ := List.mem_map.mp hp
    obtain ⟨hx, hne⟩ := List.mem_filter.mp hx
    rcases List.mem_append.mp hp' with hp' | hp'
    · -- A directory is added only where there is no entry.
      have hnone := (List.mem_filter.mp hp').2
      exact not_mem_of_entry?_eq_none (Option.isNone_iff_eq_none.mp hnone) (List.mem_map_of_mem hx)
    · rw [List.mem_singleton] at hp'
      simp [hp'] at hne
  links := by
    intro l hl x hx hbelow
    simp only [FileTree.add, List.mem_append, List.mem_map, List.mem_filter, List.mem_singleton] at hx
    rcases hx with (⟨hx, -⟩ | ⟨p, ⟨⟨i, -, rfl⟩, -⟩, rfl⟩) | rfl
    · exact h.links l hl x hx hbelow
    · exact hlinks l hl (hbelow.trans (List.take_prefix i place))
    · exact hlinks l hl hbelow

/-- Trees to which entries are added one by one are sound. -/
theorem isSound_foldl_add {workDir : Place} (hdir : ∀ n ∈ workDir, Path.IsProper n)
    {files : List (Place × Entry)} (hfiles : ∀ e ∈ files, ∀ n ∈ e.1, Path.IsProper n) :
    (files.foldl (fun tree e => tree.add e.1 e.2) (empty workDir)).IsSound := by
  have hempty : (empty workDir).IsSound ∧ (empty workDir).links = [] :=
    ⟨⟨hdir, by simp [empty], by simp [empty], by simp [empty]⟩, rfl⟩
  refine (List.foldlRecOn (motive := fun tree : FileTree => tree.IsSound ∧ tree.links = []) files _
    hempty ?_).1
  rintro tree ⟨hsound, hlinks⟩ e he
  exact ⟨hsound.add (hfiles e he) (by simp [hlinks]) e.2, hlinks⟩

/-- There is no link on the way to an entry. -/
theorem IsSound.link?_eq_none {tree : FileTree} (hsound : tree.IsSound) {e : Place × Entry}
    (he : e ∈ tree.entries) {place : Place} (hplace : place <+: e.1) : tree.link? place = none := by
  by_contra hlink
  obtain ⟨target, htarget⟩ := Option.ne_none_iff_exists'.mp hlink
  obtain ⟨before, after, hlinks, -⟩ := List.lookup_eq_some_iff.mp htarget
  exact hsound.links (place, target) (by simp [hlinks]) e he hplace

/-- Files lie at places that are made of names. -/
theorem IsSound.proper_of_file {tree : FileTree} (hsound : tree.IsSound) {place : Place} {f : File}
    (h : tree.entry? place = some (.file f)) : ∀ n ∈ place, Path.IsProper n := by
  obtain ⟨⟨place', e⟩, hmem, rfl⟩ := List.mem_map.mp (mem_filePlaces h)
  exact hsound.names _ (List.mem_of_mem_filter hmem)

/-- Whether a path is of the file at a place. -/
def isOf (tree : FileTree) (place : Place) (p : Path) : Bool :=
  (tree.fileKey p).same (pathTo place)

variable {tree : FileTree}

/-- A path that leads somewhere is of the file at a place just if it leads
there. A path that leads nowhere is its own key and might be spelled like that
of the place, hence `hp`. -/
theorem isOf_iff (hdir : ∀ n ∈ tree.workDir, Path.IsProper n) {p : Path} {place place' : Place}
    (hplace : ∀ n ∈ place, Path.IsProper n) (hp : tree.resolve p = .ok place') :
    tree.isOf place p = true ↔ tree.resolve p = .ok place := by
  have hkey : tree.fileKey p = pathTo place' := by simp [fileKey, hp]
  rw [isOf, hkey, hp]
  constructor
  · intro hsame
    rw [eq_of_same_pathTo (isReached_resolve hdir hp).proper hplace hsame]
  · intro heq
    cases heq
    exact Path.same_refl _

/-! ### Listing a directory -/

/-- The path under which a place below a directory is listed. -/
def listed (dir : Path) (names : List Text) : Path :=
  names.foldl (fun path n => path.join ⟨n⟩) dir

/-- What is listed for an entry is the rest of its place behind the directory. -/
theorem append_of_below {place p names : Place} {e : Entry}
    (h : (match e, place.isPrefixOf? p with
      | .file _, some rest => some rest
      | _, _ => none) = some names) : place ++ names = p := by
  split at h
  · rename_i hrest
    cases h
    exact List.isPrefixOf?_eq_some_iff_append_eq.mp hrest
  · cases h

/-- The files of a directory are listed under different names, each leading
to the place of an entry below the directory. -/
theorem exists_of_filesUnder (hsound : tree.IsSound) {dir : Path} {files : List Path}
    (h : tree.filesUnder dir = .ok files) :
    ∃ (place : Place) (below : List (List Text)), tree.resolve dir = .ok place
      ∧ files = below.map (listed dir) ∧ below.Nodup
      ∧ ∀ names ∈ below, ∃ e ∈ tree.entries, e.1 = place ++ names := by
  unfold filesUnder at h
  cases hdir : tree.resolve dir with
  | error e => simp [hdir] at h
  | ok place =>
      simp only [hdir] at h
      split at h
      · -- A link to a file is not listed.
        cases h
        exact ⟨place, [], rfl, rfl, .nil, by simp⟩
      rw [Except.ok.injEq] at h
      refine ⟨place, _, rfl, h.symm, ?_, ?_⟩
      · -- Entries with one place below the directory have one place.
        rw [(List.mergeSort_perm _ _).nodup_iff, List.Nodup, List.pairwise_filterMap]
        refine (List.pairwise_map.mp hsound.distinct).imp ?_
        rintro ⟨p, e⟩ ⟨p', e'⟩ hne names hnames names' hnames' rfl
        exact hne ((append_of_below hnames).symm.trans (append_of_below hnames'))
      · intro names hnames
        rw [List.mem_mergeSort, List.mem_filterMap] at hnames
        obtain ⟨e, hmem, hnames⟩ := hnames
        exact ⟨e, hmem, (append_of_below hnames).symm⟩

/-- A path that is listed for an entry leads to the entry, if it leads
anywhere. -/
theorem resolve_listed (hsound : tree.IsSound) {dir : Path} {place place' : Place}
    {names : List Text} {e : Place × Entry} (hdir : tree.resolve dir = .ok place)
    (he : e ∈ tree.entries) (hplace : e.1 = place ++ names)
    (h : tree.resolve (listed dir names) = .ok place') : place' = place ++ names := by
  refine eq_append_of_resolve ?_ ?_ hdir h
  · intro n hn
    exact hsound.names e he n (hplace ▸ List.mem_append_right place hn)
  · intro front hfront
    refine hsound.link?_eq_none he ?_
    rw [hplace]
    exact (List.prefix_append_right_inj place).mpr hfront

end FileTree

namespace Mixin

/-! ### Appending the mixin directory -/

/-- The stylesheets of the mixin directory, as they are listed. -/
def stylesheets (job : Job) : List Path :=
  match job.config.autoInclude with
  | none => []
  | some dir =>
    match job.tree.filesUnder dir with
    | .error _ => []
    | .ok files => files.filter fun p => p.extension? == some "css".toList

/-- The records after some files are recorded. -/
def recordAll (known : List Path) : List Path → List Path
  | [] => known
  | p :: files => recordAll (if p.amongst known then known else known ++ [p]) files

/-- Files that are different are recorded unless they were before. -/
theorem recordAll_eq {known files : List Path}
    (h : files.Pairwise fun p q => p.same q = false) :
    recordAll known files = known ++ files.filter fun p => !p.amongst known := by
  induction files generalizing known with
  | nil => simp [recordAll]
  | cons p files ih =>
      obtain ⟨hp, hfiles⟩ := List.pairwise_cons.mp h
      rw [recordAll, ih hfiles]
      cases hknown : p.amongst known with
      | true => simp [hknown]
      | false =>
          -- The record of this file makes no difference for those behind it.
          have hothers : files.filter (fun q => !q.amongst (known ++ [p]))
              = files.filter fun q => !q.amongst known := by
            refine List.filter_congr fun q hq => ?_
            simp [hp q hq]
          rw [if_neg (by simp), hothers]
          simp [hknown]

variable {job : Job} {s s' : State}

/-- Recording a file, whether it is new or not. -/
theorem recorded_recordFile_eq (s : State) (p : Path) (modified : Option Nat) :
    (s.recordFile p modified).recorded = if p.amongst s.recorded then s.recorded else s.recorded ++ [p] := by
  split
  · rename_i hknown
    rw [State.recordFile, s.hasFile_eq, if_pos hknown]
  · rename_i hknown
    exact State.recorded_recordFile (by simpa using hknown) modified

/-- What a file appends to the document. -/
def addition (source : Source) : Text := '\n' :: stripBlockComments source.text

/-- One file of the mixin directory: it is read and appended in any case, and
recorded under the path it is listed by. -/
theorem run_appendFile {p : Path} (h : (appendFile p).run job s = .ok () s') :
    ∃ source, Source.load job.tree p = .ok source ∧ s'.text = s.text ++ addition source
      ∧ s'.recorded = if p.amongst s.recorded then s.recorded else s.recorded ++ [p] := by
  obtain ⟨source, s₁, hload, h⟩ := exists_of_run_bind h
  rw [Include.run_loadSource] at hload
  cases hsource : Source.load job.tree p with
  | error e => simp [hsource] at hload
  | ok source' =>
      rw [hsource] at hload
      cases hload
      cases h
      refine ⟨source, rfl, ?_, recorded_recordFile_eq s p source.modified⟩
      have htext : (s.recordFile p source.modified).text = s.text := by
        unfold State.recordFile
        split <;> rfl
      show (s.recordFile p source.modified).text ++ _ = _
      rw [htext]
      rfl

/-- All files are appended, whether they are recorded or not. -/
theorem run_appendFiles {files : List Path}
    (h : (files.forM appendFile).run job s = .ok () s') :
    ∃ sources, List.Forall₂ (fun p source => Source.load job.tree p = .ok source) files sources
      ∧ s'.text = s.text ++ sources.flatMap addition
      ∧ s'.recorded = recordAll s.recorded files := by
  induction files generalizing s with
  | nil =>
      cases h
      exact ⟨[], .nil, by simp, rfl⟩
  | cons p files ih =>
      obtain ⟨u, s₁, hp, h⟩ := exists_of_run_bind h
      obtain ⟨source, hsource, htext, hrecorded⟩ := run_appendFile hp
      obtain ⟨sources, hsources, htexts, hrecords⟩ := ih h
      refine ⟨source :: sources, .cons hsource hsources, ?_, ?_⟩
      · rw [htexts, htext, List.flatMap_cons, List.append_assoc]
      · rw [hrecords, hrecorded, recordAll]

/-- Files that were all read are files. -/
theorem isFile_of_loaded {tree : FileTree} {files : List Path} {sources : List Source}
    (h : List.Forall₂ (fun p source => Source.load tree p = .ok source) files sources) :
    ∀ p ∈ files, tree.isFile p = true := by
  induction h with
  | nil => simp
  | cons hload _ ih => exact List.forall_mem_cons.mpr ⟨Include.isFile_of_load hload, ih⟩

/-- The stylesheets, if the directory is set and can be listed. -/
theorem stylesheets_eq {dir : Path} {files : List Path} (hauto : job.config.autoInclude = some dir)
    (hfiles : job.tree.filesUnder dir = .ok files) :
    stylesheets job = files.filter fun p => p.extension? == some "css".toList := by
  simp only [stylesheets, hauto, hfiles]

/-- Appending the mixin directory is appending its stylesheets in turn. -/
theorem run_autoInclude_eq {dir : Path} {files : List Path}
    (hauto : job.config.autoInclude = some dir) (hfiles : job.tree.filesUnder dir = .ok files)
    (s : State) : autoInclude.run job s = ((stylesheets job).forM appendFile).run job s := by
  have hread : (read : Compile Job).run job s = .ok job s := rfl
  rw [stylesheets_eq hauto hfiles, autoInclude, run_bind_ok hread]
  simp only [hauto, hfiles]

/-- A run that succeeds could list the directory, or there was none to list. -/
theorem run_stylesheets (h : autoInclude.run job s = .ok () s') :
    ((stylesheets job).forM appendFile).run job s = .ok () s' := by
  cases hauto : job.config.autoInclude with
  | none =>
      have hread : (read : Compile Job).run job s = .ok job s := rfl
      rw [autoInclude, run_bind_ok hread, hauto] at h
      rw [stylesheets, hauto]
      exact h
  | some dir =>
      cases hfiles : job.tree.filesUnder dir with
      | error e =>
          have hread : (read : Compile Job).run job s = .ok job s := rfl
          rw [autoInclude, run_bind_ok hread] at h
          simp only [hauto, hfiles] at h
          cases h
      | ok files => rwa [← run_autoInclude_eq hauto hfiles]

/-- The stylesheets of the mixin directory are different files. -/
theorem pairwise_stylesheets (hsound : job.tree.IsSound)
    (hfiles : ∀ p ∈ stylesheets job, job.tree.isFile p = true) :
    (stylesheets job).Pairwise fun p q => job.tree.resolve p ≠ job.tree.resolve q := by
  unfold stylesheets at hfiles ⊢
  cases hauto : job.config.autoInclude with
  | none => exact .nil
  | some dir =>
      cases hlist : job.tree.filesUnder dir with
      | error e => simp [hlist]
      | ok files =>
          obtain ⟨place, below, hdir, rfl, hbelow, hnames⟩ :=
            FileTree.exists_of_filesUnder hsound hlist
          simp only [hauto, hlist, List.filter_map] at hfiles ⊢
          -- A file is at the place of the directory with its names behind it.
          have hat : ∀ names ∈ below.filter fun names =>
              (FileTree.listed dir names).extension? == some "css".toList,
              job.tree.resolve (FileTree.listed dir names) = .ok (place ++ names) := by
            intro names hmem
            obtain ⟨p, -, hp, -⟩ := FileTree.exists_of_isFile (hfiles _ (List.mem_map_of_mem hmem))
            obtain ⟨e, he, hplace⟩ := hnames _ (List.mem_of_mem_filter hmem)
            rw [hp, FileTree.resolve_listed hsound hdir he hplace hp]
          rw [List.pairwise_map]
          refine (hbelow.filter _).imp_of_mem ?_
          intro names names' hmem hmem' hne heq
          rw [hat names hmem, hat names' hmem'] at heq
          exact hne (List.append_cancel_left (Except.ok.inj heq))

end Mixin

namespace Include

/-! ### Counting files -/

/-- Includes record a file once at most. -/
theorem FirstOnly.countP_le {tree : FileTree} {known : List Path} {visits : List (Path × Bool)}
    (h : FirstOnly tree known visits) {p : Path} (hknown : known.countP (·.same p) ≤ 1) :
    (known ++ splicedKeys tree visits).countP (·.same p) ≤ 1 := by
  induction visits generalizing known with
  | nil => simpa [splicedKeys] using hknown
  | cons v visits ih =>
      rw [splicedKeys_cons, ← List.append_assoc]
      refine ih h.2 ?_
      have hfirst := h.1
      cases hspliced : v.2 with
      | false => simpa [splicedKeys, hspliced] using hknown
      | true =>
          have hkeys : splicedKeys tree [v] = [tree.fileKey v.1] := by simp [splicedKeys, hspliced]
          rw [hkeys, List.countP_append, List.countP_singleton]
          split
          · -- The file was not among those before, so it is the only one.
            rename_i hsame
            rw [hspliced, Path.amongst_congr hsame] at hfirst
            have hnone : known.countP (·.same p) = 0 := by
              rw [List.countP_eq_zero]
              simpa [Path.amongst] using hfirst
            omega
          · exact hknown

/-- Of elements that exclude each other one at most is counted. -/
theorem countP_le_one {α : Type} {p : α → Bool} {l : List α}
    (h : l.Pairwise fun a b => p a = true → p b = true → False) : l.countP p ≤ 1 := by
  induction l with
  | nil => simp
  | cons a l ih =>
      obtain ⟨ha, hl⟩ := List.pairwise_cons.mp h
      rw [List.countP_cons]
      split
      · rename_i hpa
        have hnone : l.countP p = 0 := by
          rw [List.countP_eq_zero]
          exact fun b hb hpb => ha b hb hpa hpb
        omega
      · exact ih hl

/-- A path is recorded just if it is counted among the records. -/
theorem countP_pos_iff_amongst {p : Path} {known : List Path} :
    0 < known.countP (·.same p) ↔ p.amongst known = true := by
  rw [List.countP_pos_iff, Path.amongst, List.any_eq_true]

section

variable {job : Job} {root dir : Path} {t : Text} {F : Splice} {place : Place}

/-- Includes put in as many texts of the file at a place as they record keys
of it. -/
theorem countP_inserted (F : Splice) (tree : FileTree) (place : Place) :
    F.inserted.countP (tree.isOf place)
      = (F.inserted.map tree.fileKey).countP (·.same (FileTree.pathTo place)) := by
  rw [List.countP_map]
  rfl

/-- Includes record a file once at most, the document included. -/
theorem keys_le_one (hfirst : FirstOnly job.tree [root] F.visits) (p : Path) :
    (root :: F.inserted.map job.tree.fileKey).countP (·.same p) ≤ 1 := by
  rw [← splicedKeys_eq_map]
  exact hfirst.countP_le List.countP_le_length

/-- Includes bring in the files that they record, but not the document. -/
theorem inserted_pos_iff (hfirst : FirstOnly job.tree [root] F.visits) :
    0 < F.inserted.countP (job.tree.isOf place)
      ↔ root.same (FileTree.pathTo place) = false
        ∧ (FileTree.pathTo place).amongst (root :: F.inserted.map job.tree.fileKey) = true := by
  have hle := keys_le_one hfirst (FileTree.pathTo place)
  rw [List.countP_cons] at hle
  rw [countP_inserted, Path.amongst_cons]
  cases hroot : root.same (FileTree.pathTo place) with
  | true =>
      rw [hroot, if_pos rfl] at hle
      simp only [Bool.true_eq_false, false_and, iff_false]
      omega
  | false => rw [countP_pos_iff_amongst, Bool.false_or, eq_self, true_and]

variable (hsound : job.tree.IsSound) (hfirst : FirstOnly job.tree [root] F.visits)
  (hfiles : ∀ p ∈ Mixin.stylesheets job, job.tree.isFile p = true)
  (hplace : ∀ n ∈ place, Path.IsProper n)

include hsound hfiles hplace

/-- A stylesheet of the mixin directory is of the file that it leads to. -/
theorem isOf_stylesheet {p : Path} (hp : p ∈ Mixin.stylesheets job) :
    job.tree.isOf place p = true ↔ job.tree.resolve p = .ok place := by
  obtain ⟨place', -, hplace', -⟩ := FileTree.exists_of_isFile (hfiles p hp)
  exact FileTree.isOf_iff hsound.workDir hplace hplace'

/-- The mixin directory brings in a file once at most. -/
theorem stylesheets_le_one : (Mixin.stylesheets job).countP (job.tree.isOf place) ≤ 1 := by
  refine countP_le_one ((Mixin.pairwise_stylesheets hsound hfiles).imp_of_mem ?_)
  intro p q hp hq hne hofp hofq
  rw [isOf_stylesheet hsound hfiles hplace hp] at hofp
  rw [isOf_stylesheet hsound hfiles hplace hq] at hofq
  exact hne (hofp.trans hofq.symm)

include hfirst

/-- A file goes in twice if includes have recorded it and it is in the mixin
directory too. The document is recorded, but its text was not put in. -/
theorem inserted_twice_iff :
    2 ≤ (F.inserted ++ Mixin.stylesheets job).countP (job.tree.isOf place)
      ↔ root.same (FileTree.pathTo place) = false
        ∧ (FileTree.pathTo place).amongst (root :: F.inserted.map job.tree.fileKey) = true
        ∧ ∃ p ∈ Mixin.stylesheets job, job.tree.resolve p = .ok place := by
  have hincluded : F.inserted.countP (job.tree.isOf place) ≤ 1 := by
    rw [countP_inserted]
    exact Nat.le_trans (List.Sublist.countP_le (List.sublist_cons_self root _)) (keys_le_one hfirst _)
  have hlisted := stylesheets_le_one hsound hfiles hplace
  have hpos : 0 < (Mixin.stylesheets job).countP (job.tree.isOf place)
      ↔ ∃ p ∈ Mixin.stylesheets job, job.tree.resolve p = .ok place := by
    rw [List.countP_pos_iff]
    exact exists_congr fun p => and_congr_right (isOf_stylesheet hsound hfiles hplace)
  rw [← and_assoc, ← inserted_pos_iff hfirst, ← hpos, List.countP_append]
  omega

/-- A file has two records if it is recorded by its key and then listed
under another path. The path of the document is taken to be its key, which
is how it is recorded at the start. -/
theorem recorded_twice_iff (hroot : job.tree.fileKey root = root) :
    2 ≤ (root :: F.inserted.map job.tree.fileKey ++ (Mixin.stylesheets job).filter fun p =>
        !p.amongst (root :: F.inserted.map job.tree.fileKey)).countP (job.tree.isOf place)
      ↔ (FileTree.pathTo place).amongst (root :: F.inserted.map job.tree.fileKey) = true
        ∧ ∃ p ∈ Mixin.stylesheets job, job.tree.resolve p = .ok place
          ∧ p.amongst (root :: F.inserted.map job.tree.fileKey) = false := by
  -- Recorded keys stand for themselves.
  have hkeys : (root :: F.inserted.map job.tree.fileKey).countP (job.tree.isOf place)
      = (root :: F.inserted.map job.tree.fileKey).countP (·.same (FileTree.pathTo place)) := by
    refine List.countP_congr fun k hk => ?_
    have hkey : job.tree.fileKey k = k := by
      rcases List.mem_cons.mp hk with rfl | hk
      · exact hroot
      · obtain ⟨p, -, rfl⟩ := List.mem_map.mp hk
        exact FileTree.fileKey_fileKey hsound.workDir p
    rw [FileTree.isOf, hkey]
  have hkeysle := keys_le_one hfirst (FileTree.pathTo place)
  have hlisted : ((Mixin.stylesheets job).filter fun p =>
      !p.amongst (root :: F.inserted.map job.tree.fileKey)).countP (job.tree.isOf place) ≤ 1 :=
    Nat.le_trans (List.Sublist.countP_le List.filter_sublist)
      (stylesheets_le_one hsound hfiles hplace)
  have hpos : 0 < ((Mixin.stylesheets job).filter fun p =>
        !p.amongst (root :: F.inserted.map job.tree.fileKey)).countP (job.tree.isOf place)
      ↔ ∃ p ∈ Mixin.stylesheets job, job.tree.resolve p = .ok place
        ∧ p.amongst (root :: F.inserted.map job.tree.fileKey) = false := by
    rw [List.countP_pos_iff]
    constructor
    · rintro ⟨p, hp, hof⟩
      obtain ⟨hp, hnew⟩ := List.mem_filter.mp hp
      exact ⟨p, hp, (isOf_stylesheet hsound hfiles hplace hp).mp hof, by simpa using hnew⟩
    · rintro ⟨p, hp, hresolve, hnew⟩
      exact ⟨p, List.mem_filter.mpr ⟨hp, by simpa using hnew⟩,
        (isOf_stylesheet hsound hfiles hplace hp).mpr hresolve⟩
  rw [← countP_pos_iff_amongst, ← hpos, List.countP_append, hkeys]
  omega

end

/-- Files of which each is brought in once at most, the document not again,
and each recorded once at most. -/
structure ImportedOnce (tree : FileTree) (root : Path) (inserted recorded : List Path) : Prop where
  inserted_le : ∀ place f, tree.entry? place = some (.file f) →
    inserted.countP (tree.isOf place) ≤ 1
  document : ∀ p ∈ inserted, root.same (tree.fileKey p) = false
  recorded_le : ∀ place f, tree.entry? place = some (.file f) →
    recorded.countP (tree.isOf place) ≤ 1

end Include

/-! ### The first phase -/

/-- The first phase is one run of the includes and one over the mixin
directory. The text is taken out of the state while includes are resolved. -/
theorem Stage.exists_of_run_importing {job : Job} {s s' : State}
    (h : (Stage.runPhase Stage.standard .importing).run job s = .ok () s') :
    ∃ out s₁, (resolveIncludes job.path.directory s.text).run job { s with text := [] } = .ok out s₁
      ∧ Mixin.autoInclude.run job { s₁ with text := out } = .ok () s' := by
  have hstages : Stage.standard.filter (fun stage => decide (Phase.importing ∈ stage.phases))
      = [Stage.includes, Mixin.stage] := rfl
  rw [Stage.runPhase, hstages] at h
  obtain ⟨u, s₂, hincludes, h⟩ := exists_of_run_bind h
  obtain ⟨u', s₃, hmixins, h⟩ := exists_of_run_bind h
  cases h
  have hrun : (resolveIncludes job.path.directory s.text >>= Compile.setText).run job
      { s with text := [] } = .ok u s₂ := hincludes
  obtain ⟨out, s₁, hresolve, hset⟩ := exists_of_run_bind hrun
  cases hset
  exact ⟨out, s₁, hresolve, hmixins⟩

/-- The document is recorded by its key before the first phase. -/
theorem Compiler.recorded_start (c : Compiler) (tree : FileTree) (flags options : List Text)
    (source : Source) :
    (c.start tree flags options source).text = source.text
    ∧ (c.start tree flags options source).recorded = [tree.fileKey source.path] := by
  let IsStart (s : State) : Prop := s.text = source.text ∧ s.recorded = [tree.fileKey source.path]
  have hstart : IsStart ((State.start c.config source.text).recordFile
      (tree.fileKey source.path) source.modified) := ⟨rfl, rfl⟩
  have hflags := List.foldlRecOn (motive := IsStart) flags (State.activateFlag c.config) hstart
    fun s hs name _ => by
      unfold State.activateFlag
      split <;> exact hs
  exact List.foldlRecOn (motive := IsStart) options State.setOption hflags fun s hs name _ => hs

namespace Include

/-- The records of a document are those of its includes, and those
stylesheets of the mixin directory that are not listed under a path that is
recorded. -/
theorem recorded_importing {job : Job} {known : List Path} (hsound : job.tree.IsSound)
    (hfiles : ∀ p ∈ Mixin.stylesheets job, job.tree.isFile p = true) :
    Mixin.recordAll known (Mixin.stylesheets job)
      = known ++ (Mixin.stylesheets job).filter fun p => !p.amongst known := by
  refine Mixin.recordAll_eq ((Mixin.pairwise_stylesheets hsound hfiles).imp_of_mem ?_)
  intro p q hp hq hne
  obtain ⟨place, -, hplace, -⟩ := FileTree.exists_of_isFile (hfiles p hp)
  obtain ⟨place', -, hplace', -⟩ := FileTree.exists_of_isFile (hfiles q hq)
  by_contra hsame
  have heq := FileTree.eq_of_same (by simpa using hsame) hplace hplace'
  exact hne (by rw [hplace, hplace', heq])

/-- Each file goes in once if no stylesheet of the mixin directory is a file
that includes have recorded. -/
theorem importedOnce_iff {job : Job} {root : Path} {F : Splice} {recorded : List Path}
    (hfirst : FirstOnly job.tree [root] F.visits)
    (hfiles : ∀ p ∈ Mixin.stylesheets job, job.tree.isFile p = true)
    (hinserted : ∀ place f, job.tree.entry? place = some (.file f) →
      (2 ≤ (F.inserted ++ Mixin.stylesheets job).countP (job.tree.isOf place)
        ↔ root.same (FileTree.pathTo place) = false
          ∧ (FileTree.pathTo place).amongst (root :: F.inserted.map job.tree.fileKey) = true
          ∧ ∃ p ∈ Mixin.stylesheets job, job.tree.resolve p = .ok place))
    (hrecorded : ∀ place f, job.tree.entry? place = some (.file f) →
      (2 ≤ recorded.countP (job.tree.isOf place)
        ↔ (FileTree.pathTo place).amongst (root :: F.inserted.map job.tree.fileKey) = true
          ∧ ∃ p ∈ Mixin.stylesheets job, job.tree.resolve p = .ok place
            ∧ p.amongst (root :: F.inserted.map job.tree.fileKey) = false)) :
    ImportedOnce job.tree root (F.inserted ++ Mixin.stylesheets job) recorded
      ↔ ∀ p ∈ Mixin.stylesheets job,
        (job.tree.fileKey p).amongst (root :: F.inserted.map job.tree.fileKey) = false := by
  -- Stylesheets are compared by their keys, and the conditions are about places.
  have hkey : ∀ {p : Path} {place : Place}, job.tree.resolve p = .ok place →
      job.tree.fileKey p = FileTree.pathTo place := fun hp => by simp [FileTree.fileKey, hp]
  constructor
  · intro honce p hp
    obtain ⟨place, f, hplace, hfile⟩ := FileTree.exists_of_isFile (hfiles p hp)
    have hdocument := honce.document p (List.mem_append_right _ hp)
    have hle := honce.inserted_le place f hfile
    rw [hkey hplace] at hdocument ⊢
    -- A stylesheet with a known key, which is not
    -- the document, would have been inserted before.
    by_contra hknown
    have htwice := (hinserted place f hfile).mpr
      ⟨hdocument, Bool.not_eq_false _ ▸ hknown, p, hp, hplace⟩
    omega
  · intro hnone
    refine ⟨fun place f hfile => ?_, fun p hp => ?_, fun place f hfile => ?_⟩
    · by_contra hmore
      obtain ⟨-, hknown, p, hp, hplace⟩ := (hinserted place f hfile).mp (by omega)
      rw [← hkey hplace, hnone p hp] at hknown
      cases hknown
    · rcases List.mem_append.mp hp with hp | hp
      · -- The document is known before includes are resolved.
        rw [Path.same_comm]
        exact hfirst.same_eq_false (by simp [Path.same_refl]) _ (Splice.mem_inserted_iff.mp hp) rfl
      · have hnew := hnone p hp
        rw [Path.amongst_cons, Bool.or_eq_false_iff] at hnew
        exact hnew.1
    · by_contra hmore
      obtain ⟨hknown, p, hp, hplace, -⟩ := (hrecorded place f hfile).mp (by omega)
      rw [← hkey hplace, hnone p hp] at hknown
      cases hknown

/-- The first phase puts in the texts that includes lead to, and appends those
of the mixin directory. It records the document, the files of the former by
their keys, and those of the latter as they are listed, if that is new. If it
succeeds, then each file is brought in and recorded once at most, and the document
not again, just if no stylesheet of the mixin directory has a key that was recorded
for the document or for an include.

For each file by itself: it goes in twice just if it is not the document, its key
was recorded for an include, and it lies in the mixin directory; and it has two
records just if its key was recorded, and it is listed in the mixin directory under
a path that was not. -/
theorem importing_once_iff (c : Compiler) {tree : FileTree} (hsound : tree.IsSound)
    (flags options : List Text) (source : Source) {s' : State}
    (h : (Stage.runPhase Stage.standard .importing).run ⟨source.path, c.config, tree⟩
      (c.start tree flags options source) = .ok () s') :
    let job : Job := ⟨source.path, c.config, tree⟩
    let root := tree.fileKey source.path
    let dir := source.path.directory
    ∃ F sources, Reads job dir (cut source.text) F
      ∧ List.Forall₂ (fun p added => Source.load tree p = .ok added) (Mixin.stylesheets job) sources
      ∧ s'.text = F.output ++ sources.flatMap Mixin.addition
      ∧ s'.recorded = root :: F.inserted.map tree.fileKey
          ++ (Mixin.stylesheets job).filter
            (fun p => !p.amongst (root :: F.inserted.map tree.fileKey))
      ∧ IsClosure job (· ∈ F.inserted) root dir source.text F (root :: F.inserted.map tree.fileKey)
      ∧ (ImportedOnce tree root (F.inserted ++ Mixin.stylesheets job) s'.recorded
        ↔ ∀ p ∈ Mixin.stylesheets job,
          (tree.fileKey p).amongst (root :: F.inserted.map tree.fileKey) = false)
      ∧ ∀ place f, tree.entry? place = some (.file f) →
        (2 ≤ (F.inserted ++ Mixin.stylesheets job).countP (tree.isOf place)
          ↔ root.same (FileTree.pathTo place) = false
            ∧ (FileTree.pathTo place).amongst (root :: F.inserted.map tree.fileKey) = true
            ∧ ∃ p ∈ Mixin.stylesheets job, tree.resolve p = .ok place)
        ∧ (2 ≤ s'.recorded.countP (tree.isOf place)
          ↔ (FileTree.pathTo place).amongst (root :: F.inserted.map tree.fileKey) = true
            ∧ ∃ p ∈ Mixin.stylesheets job, tree.resolve p = .ok place
              ∧ p.amongst (root :: F.inserted.map tree.fileKey) = false) := by
  intro job root dir
  obtain ⟨htext, hstart⟩ := c.recorded_start tree flags options source
  -- The phase has two steps: includes are resolved,
  -- and then the stylesheets of mixins are appended.
  obtain ⟨out, s₁, hresolve, happend⟩ := Stage.exists_of_run_importing h
  rw [htext] at hresolve
  have hmissing : tree.missing { c.start tree flags options source with text := [] }.recorded
      ≤ tree.fileCount := FileTree.missing_le_fileCount _ _
  obtain ⟨F, hreads, rfl, hfirst, hkeys⟩ := traced_expandLevels hmissing hresolve
  -- At the start only the document is recorded.
  replace hfirst : FirstOnly tree [root] F.visits := hstart ▸ hfirst
  replace hkeys : s₁.recorded = root :: F.inserted.map tree.fileKey := by
    rw [hkeys, ← splicedKeys_eq_map]
    exact congrArg (· ++ splicedKeys tree F.visits) hstart
  obtain ⟨sources, hsources, hadded, hrecords⟩ :=
    Mixin.run_appendFiles (Mixin.run_stylesheets happend)
  have hfiles : ∀ p ∈ Mixin.stylesheets job, job.tree.isFile p = true :=
    Mixin.isFile_of_loaded hsources
  -- A stylesheet is recorded under its path and not
  -- under its key, so it can be recorded a second time.
  replace hrecords : s'.recorded = root :: F.inserted.map tree.fileKey
      ++ (Mixin.stylesheets job).filter
        fun p => !p.amongst (root :: F.inserted.map tree.fileKey) := by
    rw [hrecords, ← recorded_importing hsound hfiles, ← hkeys]
    rfl
  have hroot : tree.fileKey root = root := FileTree.fileKey_fileKey hsound.workDir source.path
  have hinserted := fun place f (hfile : tree.entry? place = some (.file f)) =>
    inserted_twice_iff hsound hfirst hfiles (hsound.proper_of_file hfile)
  have hrecorded := fun place f (hfile : tree.entry? place = some (.file f)) =>
    recorded_twice_iff hsound hfirst hfiles (hsound.proper_of_file hfile) hroot
  rw [hrecords]
  exact ⟨F, sources, hreads, hsources, hadded, rfl, isClosure_inserted hreads hfirst,
    importedOnce_iff hfirst hfiles hinserted hrecorded,
    fun place f hfile => ⟨hinserted place f hfile, hrecorded place f hfile⟩⟩

/-- A document with an include for one of the two stylesheets of the mixin
directory. -/
def mixed : Source where
  path := .of "main.css"
  text := "@include 'm/a.css';".toList
  modified := none

/-- The files of the document and the mixin directory. -/
def mixedFiles : List (Place × Entry) :=
  [ (["w".toList, "m".toList, "a.css".toList], .file ⟨some "A".toList, none⟩),
    (["w".toList, "m".toList, "b.css".toList], .file ⟨some "B".toList, none⟩),
    (["w".toList, "main.css".toList], .file ⟨some "@include 'm/a.css';".toList, none⟩) ]

/-- The job of that document. The mixin directory is beside it. -/
def mixedJob : Job where
  path := mixed.path
  config := { autoInclude := some (.of "m") }
  tree := mixedFiles.foldl (fun tree e => tree.add e.1 e.2) (.empty ["w".toList])

/-- A compiler with the configuration of the job. -/
def mixedCompiler : Compiler where
  config := mixedJob.config

/-- The state in which the document is recorded and nothing else is done. -/
def mixedStart : State := mixedCompiler.start mixedJob.tree [] [] mixed

/-- The listing of the mixin directory. Sorting does not compute in the kernel,
so the order is shown by the lemma about sorted lists. -/
theorem filesUnder_mixedJob :
    mixedJob.tree.filesUnder (.of "m") = .ok [.of "m/a.css", .of "m/b.css"] := by
  have hdir : mixedJob.tree.resolve (.of "m") = .ok ["w".toList, "m".toList] := by decide +kernel
  rw [FileTree.filesUnder, hdir]
  dsimp only
  rw [List.mergeSort_of_pairwise]
  · decide +kernel
  · decide +kernel

/-- Both files of the mixin directory are stylesheets. -/
theorem stylesheets_mixedJob : Mixin.stylesheets mixedJob = [.of "m/a.css", .of "m/b.css"] := by
  rw [Mixin.stylesheets_eq rfl filesUnder_mixedJob]
  decide +kernel

/-- The text and the records of a run that succeeds. -/
def imported? : EStateM.Result Error State Unit → Option (Text × List Path)
  | .ok _ s => some (s.text, s.recorded)
  | .error _ _ => none

/-- A run that succeeds with known text and records, as an equation. -/
theorem eq_ok_of_imported? {r : EStateM.Result Error State Unit} {t : Text} {known : List Path}
    (h : imported? r = some (t, known)) :
    r = .ok () (endState r) ∧ (endState r).text = t ∧ (endState r).recorded = known := by
  cases r with
  | error e s => cases h
  | ok u s =>
      cases h
      exact ⟨rfl, rfl, rfl⟩

/-- The document when its includes are resolved. -/
def mixedIncluded : EStateM.Result Error State Unit :=
  (Stage.includes.run .importing).run mixedJob mixedStart

/-- The document when the mixin directory is appended. -/
def mixedAppended : EStateM.Result Error State Unit :=
  ((Mixin.stylesheets mixedJob).forM Mixin.appendFile).run mixedJob (endState mixedIncluded)

/-- The first phase of that document: what it makes of the text, and what it
records. -/
theorem run_mixedJob :
    (Stage.runPhase Stage.standard .importing).run mixedJob mixedStart = .ok () (endState mixedAppended)
    ∧ (endState mixedAppended).text = "A\nA\nB".toList
    ∧ (endState mixedAppended).recorded
      = [.of "/w/main.css", .of "/w/m/a.css", .of "m/a.css", .of "m/b.css"] := by
  have hincluded : imported? mixedIncluded
      = some ("A".toList, [.of "/w/main.css", .of "/w/m/a.css"]) := by decide +kernel
  have happended : imported? mixedAppended = some ("A\nA\nB".toList,
      [.of "/w/main.css", .of "/w/m/a.css", .of "m/a.css", .of "m/b.css"]) := by
    rw [mixedAppended, stylesheets_mixedJob]
    decide +kernel
  -- The two stages of the phase are run one by one, since listing the directory is not computed
  -- by the kernel.
  have hfirst : (Stage.includes.run .importing).run mixedJob mixedStart
      = .ok () (endState mixedIncluded) := (eq_ok_of_imported? hincluded).1
  obtain ⟨hsecond, htext, hrecorded⟩ := eq_ok_of_imported? happended
  have hstages : Stage.standard.filter (fun stage => decide (Phase.importing ∈ stage.phases))
      = [Stage.includes, Mixin.stage] := rfl
  have hmixins : (Mixin.stage.run .importing).run mixedJob (endState mixedIncluded)
      = .ok () (endState mixedAppended) :=
    (Mixin.run_autoInclude_eq rfl filesUnder_mixedJob _).trans hsecond
  refine ⟨?_, htext, hrecorded⟩
  rw [Stage.runPhase, hstages, run_forM_cons (a := Stage.includes) hfirst,
    run_forM_cons (a := Mixin.stage) hmixins]
  rfl

/-- The file in question is recorded for an include, so the document is not
imported once. -/
theorem importing_once_mixed :
    mixedJob.tree.IsSound
    ∧ ∃ (F : Splice) (s' : State),
      (Stage.runPhase Stage.standard .importing).run mixedJob mixedStart = .ok () s'
      ∧ Reads mixedJob mixed.path.directory (cut mixed.text) F
      ∧ Path.amongst (.of "/w/m/a.css")
          (mixedJob.tree.fileKey mixed.path :: F.inserted.map mixedJob.tree.fileKey) = true
      ∧ ¬ ImportedOnce mixedJob.tree (mixedJob.tree.fileKey mixed.path)
          (F.inserted ++ Mixin.stylesheets mixedJob) s'.recorded := by
  have hsound : mixedJob.tree.IsSound :=
    FileTree.isSound_foldl_add (by decide +kernel) (by decide +kernel)
  obtain ⟨hrun, -, hrecorded⟩ := run_mixedJob
  obtain ⟨F, sources, hreads, -, -, -, -, honce, hplaces⟩ :=
    importing_once_iff mixedCompiler hsound [] [] mixed hrun
  -- The file is recorded as `/w/m/a.css` and as `m/a.css`.
  have htwice : 2 ≤ (endState mixedAppended).recorded.countP
      (mixedJob.tree.isOf ["w".toList, "m".toList, "a.css".toList]) := by
    rw [hrecorded]
    decide +kernel
  obtain ⟨hknown, -⟩ := (hplaces ["w".toList, "m".toList, "a.css".toList] ⟨some "A".toList, none⟩
    (by decide +kernel)).2.mp htwice
  have hkey : FileTree.pathTo ["w".toList, "m".toList, "a.css".toList]
      = mixedJob.tree.fileKey (.of "m/a.css") := by decide +kernel
  refine ⟨hsound, F, _, hrun, hreads, hknown, fun h => ?_⟩
  have hnew := honce.mp h (.of "m/a.css") (stylesheets_mixedJob ▸ List.mem_cons_self)
  rw [← hkey] at hnew
  cases hnew.symm.trans hknown

/-- Includes and the mixin directory bring in one file, which is then there
twice and has two records. -/
theorem importing_twice :
    ∃ s', (Stage.runPhase Stage.standard .importing).run mixedJob mixedStart = .ok () s'
      ∧ s'.text = "A\nA\nB".toList
      ∧ s'.recorded.countP (mixedJob.tree.isOf ["w".toList, "m".toList, "a.css".toList]) = 2
      ∧ ∀ inserted, ¬ ImportedOnce mixedJob.tree (.of "/w/main.css") inserted s'.recorded := by
  obtain ⟨hrun, htext, hrecorded⟩ := run_mixedJob
  have htwice : (endState mixedAppended).recorded.countP
      (mixedJob.tree.isOf ["w".toList, "m".toList, "a.css".toList]) = 2 := by
    rw [hrecorded]
    decide +kernel
  refine ⟨_, hrun, htext, htwice, fun inserted honce => ?_⟩
  have hle := honce.recorded_le ["w".toList, "m".toList, "a.css".toList] ⟨some "A".toList, none⟩
    (by decide +kernel)
  omega

end Include

end Stylesheet
