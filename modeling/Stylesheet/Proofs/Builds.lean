import Stylesheet.Build
import Stylesheet.Proofs.Acceptance
import Stylesheet.Proofs.Balance
import Stylesheet.Proofs.Run
import Stylesheet.Proofs.Seams

/-!
# The documents of a build

A build compiles its documents one by one and puts the texts one after the
other, with nothing between them. `build_eq` says what it is made of: the
documents that were compiled, and a failure for each of the others. A text that
is cut inside a character is no failure of its document, it ends the build.

Is the stylesheet of a build read as its documents are read alone? It need not
be: `build_swallows` has a document that ends with an open comment, and all of
the next one becomes a part of that. `build_parse` says when it is: every
document but the last has to be at rest, and this is what each of them needs if
it should not matter what follows. In lines, a document is at rest if the text
that was formatted leaves no literal and no bracket open and its imports stay
in one piece (`passes_pretty`). A declaration at the end gets its semicolon
there. In compressed output it does not, and takes in what follows.
-/

set_option autoImplicit false

namespace Stylesheet

namespace Node

/-! ### Stylesheets in lines -/

/-- An import that is written down stays in one statement. -/
def StaysWhole : Node → Prop
  | importUrl url media => Text.IsContained (renderImport url media) ∧ IsUncut url media
  | _ => True

instance : (n : Node) → Decidable n.StaysWhole
  | importUrl _ _ => inferInstanceAs (Decidable (_ ∧ _))
  | comment _ => inferInstanceAs (Decidable True)
  | declaration _ _ => inferInstanceAs (Decidable True)
  | statement _ => inferInstanceAs (Decidable True)
  | rule _ _ => inferInstanceAs (Decidable True)

/-- No bracket is left open in the last line. -/
def LastClosed (nodes : List Node) : Prop :=
  ∀ n ∈ nodes.getLast?, n.needsSelector = true → depthBehind 0 (pieces n.compact) = 0

instance (nodes : List Node) : Decidable (LastClosed nodes) :=
  inferInstanceAs (Decidable (∀ n ∈ nodes.getLast?, _))

/-- The last line is that of the nodes behind the first, if there are any. -/
theorem LastClosed.tail {n : Node} {rest : List Node} (h : LastClosed (n :: rest)) :
    LastClosed rest := by
  intro m hm
  have hne : rest ≠ [] := by
    rintro rfl
    cases hm
  exact h m (by rwa [List.getLast?_cons_of_ne_nil hne])

/-- Nothing that was read from a text takes in what follows when it is written in
lines: no literal is open, no bracket in the last line, and imports stay in one
piece. -/
structure EndsWhole (t : Text) (nodes : List Node) : Prop where
  closed : ∀ p ∈ pieces t, p.closed = true
  lastClosed : LastClosed nodes
  imports : ∀ n ∈ descendants nodes, n.StaysWhole

instance (t : Text) (nodes : List Node) : Decidable (EndsWhole t nodes) :=
  decidable_of_iff
    ((∀ p ∈ pieces t, p.closed = true) ∧ LastClosed nodes ∧ ∀ n ∈ descendants nodes, n.StaysWhole)
    ⟨fun h => ⟨h.1, h.2.1, h.2.2⟩, fun h => ⟨h.closed, h.lastClosed, h.imports⟩⟩

section

variable {nested : Bool}

/-- What can be passed can be passed on a line of its own. -/
theorem Passes.padded {t : Text} (h : Passes nested t) (depth : Nat) :
    Passes nested (indent depth ++ (t ++ ['\n'])) := by
  obtain ⟨nodes, h⟩ := h
  exact ⟨nodes, h.padded depth⟩

/-- What fills a block fills it on a line of its own. -/
theorem Fills.padded {t : Text} (h : Fills nested t) (depth : Nat) :
    Fills nested (indent depth ++ (t ++ ['\n'])) := by
  obtain ⟨nodes, h⟩ := h
  have hfront : ReadsAs [] (indent depth) nested := .gap (blank_indent depth)
  have hnewline : Text.blank ['\n'] = true := rfl
  exact ⟨_, hfront.append_fills (h.append_gap hnewline)⟩

namespace IsRead

variable {depth : Nat} {n : Node}

/-- On one line a node leaves as many brackets open as were when it was read. -/
theorem depthBehind_compact (h : n.IsRead nested depth) :
    depthBehind 0 (pieces n.compact) = depth := by
  obtain ⟨t, htext, -, hline, -⟩ := h.isLine
  have hsegment := hline.isSegment
  rw [htext, pieces_semicolon hsegment.closed, depthBehind_append,
    depthBehind_of_passed hsegment.passed]
  rfl

/-- A declaration or a statement as it stands on its line. -/
theorem exists_line (h : n.IsRead nested depth) :
    ∃ t, (∀ k, prettyNode k n = indent k ++ (t ++ [';'] ++ ['\n'])) ∧ Text.IsSegment nested depth t
      ∧ Text.beginsImport t = false
      ∧ ∃ node, ∀ gap, Text.blank gap = true → ofSegment (gap ++ t) = .ok node := by
  cases h with
  -- A statement is written collapsed.
  | @statement t hline hne himport hat hcolon =>
      have himport' : Text.beginsImport (Text.collapse t) = false := by
        rw [Text.beginsImport_collapse hline.toHasEnds, himport]
      exact ⟨Text.collapse t, fun k => by simp [prettyNode], hline.collapse.isSegment, himport',
        exists_ofSegment hline.collapse.toHasEnds himport'⟩
  | @declaration name value hname hvalue hfront hback hcolon hat hcomment =>
      have hspace : Text.blank [' '] = true := rfl
      -- The line of a declaration has a space behind its colon and a collapsed value.
      have hends : Scan.EndsAt nested ⟨.plain, 0⟩ (name ++ ':' :: ([' '] ++ Text.collapse value))
          depth :=
        hfront.append_colon ((Scan.EndsAt.gap_iff hspace).mpr (hback.collapse hvalue))
      obtain ⟨hclosed, hpassed⟩ := (Scan.endsAt_iff _).mp hends
      obtain ⟨hnameClosed, hnamePassed⟩ := (Scan.endsAt_iff name).mp hfront
      refine ⟨name ++ ':' :: ([' '] ++ Text.collapse value), fun k => by simp [prettyNode],
        ⟨hclosed, hpassed, ?_, ?_⟩, ?_, some (.declaration name (Text.collapse value)),
        fun gap hgap => ?_⟩
      · cases name with
        | nil => simp [isBlank]
        | cons c name => exact hname.head
      · exact Text.beginsComment_append_cons (u := []) (by rwa [List.append_nil]) (by decide)
          (by decide) _
      · refine Text.beginsImport_eq_false ?_
        cases name with
        | nil => simp
        | cons c name => exact hat
      · exact ofSegment_declaration hname (Text.isCollapsed_collapse value).toHasEnds hat hnameClosed
          hcolon (depthBehind_of_passed hnamePassed) hgap hspace

/-- A line without open brackets is passed. -/
theorem passes_prettyNode (h : n.IsRead nested 0) (k : Nat) : Passes nested (prettyNode k n) := by
  obtain ⟨t, htext, hsegment, -, node, hnode⟩ := h.exists_line
  have hline : Passes nested (t ++ [';']) := ⟨node.toList, .segment hsegment hnode⟩
  rw [htext]
  exact hline.padded k

/-- With a bracket open, the semicolon and the end of the line go to the last
line of a block. -/
theorem fills_prettyNode (h : n.IsRead nested depth) (k : Nat) : Fills nested (prettyNode k n) := by
  cases depth with
  | zero => exact (h.passes_prettyNode k).fills
  | succ depth =>
      obtain ⟨t, htext, hsegment, himport, -⟩ := h.exists_line
      rw [htext]
      exact (fills_openLine hsegment himport).padded k

end IsRead

/-- A comment on its line is passed. -/
theorem passes_prettyComment {t : Text} (halone : pieces t = [.comment t])
    (hclosed : (Piece.comment t).closed = true) (depth : Nat) :
    Passes nested (prettyNode depth (.comment t)) := by
  have hcomment : Passes nested t := ⟨_, .comment halone hclosed⟩
  simpa [prettyNode] using hcomment.padded depth

/-- An import on its line is passed if it stays in one statement. -/
theorem passes_prettyImport {url media : Text} (hmedia : Text.IsCollapsed media)
    (hwhole : (importUrl url media).StaysWhole) (depth : Nat) :
    Passes nested (prettyNode depth (.importUrl url media)) := by
  have himport := passes_import nested hmedia.toHasEnds hwhole.1 hwhole.2
  simpa [prettyNode] using himport.padded depth

/-- The lines of a rule are passed if those inside fill the block. A bracket
may be left open in the last of them, since a block ends at its brace whatever
brackets are open. -/
theorem passes_prettyRule {header : Text} {children : List Node}
    (hheader : Text.IsLine nested 0 header) {depth : Nat}
    (hchildren : Fills true (prettyNodes (depth + 1) children)) :
    Passes nested (prettyNode depth (.rule header children)) := by
  obtain ⟨nodes, hchildren⟩ := hchildren
  have hspace : Text.blank [' '] = true := rfl
  -- Inside the braces: the end of the line, the children, and the blanks before the brace.
  have hinside : FillsAs nodes (['\n'] ++ (prettyNodes (depth + 1) children ++ indent depth)) :=
    (ReadsAs.gap (t := ['\n']) rfl).append_fills (hchildren.append_gap (blank_indent depth))
  have hrule : Passes nested _ := ⟨_, ReadsAs.block hheader.isSegment hspace hinside⟩
  simpa [prettyNode] using hrule.padded depth

/-- The lines of a block. -/
theorem fills_prettyNodes {nodes : List Node} (h : Items nested nodes)
    (hwhole : ∀ n ∈ descendants nodes, n.StaysWhole) (depth : Nat) :
    Fills nested (prettyNodes depth nodes) := by
  induction h generalizing depth with
  | nil nested => exact Passes.nil.fills
  | comment halone hclosed hrest ih =>
      rw [descendants, List.forall_mem_append] at hwhole
      exact (passes_prettyComment halone hclosed depth).append_fills (ih hwhole.2 depth)
  | importUrl hmedia hrest ih =>
      rw [descendants, List.forall_mem_append] at hwhole
      exact (passes_prettyImport hmedia (hwhole.1 _ (by simp [withDescendants])) depth).append_fills
        (ih hwhole.2 depth)
  | line hn hrest ih =>
      rw [descendants, List.forall_mem_append] at hwhole
      exact (hn.passes_prettyNode depth).append_fills (ih hwhole.2 depth)
  -- Only here a bracket may be open, and nothing follows.
  | last hn =>
      rw [prettyNodes, prettyNodes, List.append_nil]
      exact hn.fills_prettyNode depth
  | rule hheader hcollapsed hchildren hrest ihchildren ih =>
      rw [descendants, List.forall_mem_append] at hwhole
      obtain ⟨hrule, hothers⟩ := hwhole
      rw [withDescendants, List.forall_mem_cons] at hrule
      exact (passes_prettyRule hheader (ihchildren hrule.2 (depth + 1))).append_fills
        (ih hothers depth)

/-- A node at the top, which may be followed by others. -/
theorem passes_prettyNode {n : Node} {rest : List Node} (h : Items nested (n :: rest))
    (hlast : LastClosed (n :: rest)) (hwhole : ∀ m ∈ withDescendants n, m.StaysWhole) :
    Passes nested (prettyNode 0 n) := by
  cases h with
  | comment halone hclosed hrest => exact passes_prettyComment halone hclosed 0
  | importUrl hmedia hrest =>
      exact passes_prettyImport hmedia (hwhole _ (by simp [withDescendants])) 0
  | line hn hrest => exact hn.passes_prettyNode 0
  | last hn =>
      have hclosed := hlast n rfl hn.needsSelector
      rw [hn.depthBehind_compact] at hclosed
      subst hclosed
      exact hn.passes_prettyNode 0
  | rule hheader hcollapsed hchildren hrest =>
      rw [withDescendants, List.forall_mem_cons] at hwhole
      exact passes_prettyRule hheader (fills_prettyNodes hchildren hwhole.2 1)

/-- The blank line before a node makes no difference. -/
theorem passes_prettyFollowing {n : Node} (h : Passes nested (prettyNode 0 n)) :
    Passes nested (prettyFollowing n) := by
  have hnewline : Passes nested ['\n'] := ⟨[], .gap rfl⟩
  unfold prettyFollowing
  split
  · exact hnewline.append h
  · exact h

/-- What is written in lines may stand before anything else. -/
theorem passes_pretty {nodes : List Node} (h : Items nested nodes) (hlast : LastClosed nodes)
    (hwhole : ∀ n ∈ descendants nodes, n.StaysWhole) : Passes nested (pretty nodes) := by
  have hfollowing : ∀ rest, Items nested rest → LastClosed rest →
      (∀ n ∈ descendants rest, n.StaysWhole) → Passes nested (rest.flatMap prettyFollowing) := by
    intro rest hrest hlast hwhole
    induction rest with
    | nil => exact .nil
    | cons n rest ih =>
        rw [descendants, List.forall_mem_append] at hwhole
        rw [List.flatMap_cons]
        exact (passes_prettyFollowing (passes_prettyNode hrest hlast hwhole.1)).append
          (ih hrest.tail hlast.tail hwhole.2)
  cases nodes with
  | nil => exact .nil
  | cons n rest =>
      rw [descendants, List.forall_mem_append] at hwhole
      exact (passes_prettyNode h hlast hwhole.1).append
        (hfollowing rest h.tail hlast.tail hwhole.2)

end

/-- Texts of which all but the last are at rest are read one by one. -/
theorem parse_flatten {texts : List Text} {forests : List (List Node)}
    (h : List.Forall₂ (fun t nodes => parse t = .ok nodes) texts forests)
    (hrest : ∀ t ∈ texts.dropLast, AtRest t) : parse texts.flatten = .ok forests.flatten := by
  induction h with
  | nil => exact (ReadsAs.gap (t := []) rfl).parse_eq
  | @cons t nodes texts forests ht htexts ih =>
      rw [List.flatten_cons, List.flatten_cons]
      cases htexts with
      | nil => simpa using ht
      | @cons s _ more _ hs hmore =>
          rw [List.dropLast_cons_cons, List.forall_mem_cons] at hrest
          exact parse_append hrest.1 ht (ih hrest.2)

end Node

/-! ### The last stage -/

namespace Stage

/-- The formatter reads the text and writes it anew, and nothing else in the
state changes. -/
theorem run_formatter {phase : Phase} {job : Job} {s s' : State}
    (h : (formatter.run phase).run job s = .ok () s') :
    ∃ nodes, Node.parse s.text = .ok nodes
      ∧ s' = { s with text := Node.format job.config.format nodes } := by
  obtain ⟨s₁, s₂, hget, hread⟩ := exists_of_run_bind h
  cases hget
  obtain ⟨nodes, s₃, hparse, hwrite⟩ := exists_of_run_bind hread
  obtain ⟨hnodes, rfl⟩ := Compile.eq_of_run_parse hparse
  cases hwrite
  exact ⟨nodes, hnodes, rfl⟩

/-- The formatter takes part in the last phase only, and if it is the last stage
it comes behind everything else. -/
theorem runAll_formatter (stages : List Stage) :
    runAll (stages ++ [formatter]) = runAll stages >>= fun _ => formatter.run .formatting := by
  have hbefore : ∀ phase, phase ≠ .formatting →
      runPhase (stages ++ [formatter]) phase = runPhase stages phase := by
    intro phase hphase
    have hout : decide (phase ∈ formatter.phases) = false := by simpa [formatter] using hphase
    rw [runPhase, List.filter_append, List.filter_singleton, hout]
    simp [runPhase]
  have hlast : runPhase (stages ++ [formatter]) .formatting
      = runPhase stages .formatting >>= fun _ => formatter.run .formatting := by
    have hin : decide (Phase.formatting ∈ formatter.phases) = true := rfl
    rw [runPhase, List.filter_append, List.filter_singleton, hin]
    simp [runPhase]
  have hall : ∀ f : Phase → Compile Unit, Phase.all.forM f = f .importing >>= fun _ =>
      f .preProcess >>= fun _ => f .process >>= fun _ => f .postProcess >>= fun _ =>
      f .formatting := by
    intro f
    simp [Phase.all]
  rw [runAll, runAll, hall, hall, hlast, hbefore .importing (by decide),
    hbefore .preProcess (by decide), hbefore .process (by decide), hbefore .postProcess (by decide)]
  simp

end Stage

namespace Compiler

variable {c : Compiler} {tree : FileTree}

/-- The compiler without its last stage. -/
def withoutLast (c : Compiler) : Compiler := { c with stages := c.stages.dropLast }

/-- If the formatter is the last stage, it writes anew what the other stages have
made. -/
theorem exists_of_compile {flags options : List Text} {source : Source} {d : Compiled}
    (hlast : c.stages.getLast? = some Stage.formatter)
    (h : c.compile tree flags options source = .ok d) :
    ∃ d' nodes, c.withoutLast.compile tree flags options source = .ok d'
      ∧ Node.parse d'.css = .ok nodes ∧ d = { d' with css := Node.format c.config.format nodes } := by
  -- The run of all stages is that of the others and then that of the formatter.
  have hstages : c.stages = c.withoutLast.stages ++ [Stage.formatter] :=
    (List.dropLast_append_getLast? _ hlast).symm
  unfold compile at h
  dsimp only at h
  cases hrun : (Stage.runAll c.stages).run ⟨source.path, c.config, tree⟩
      (c.start tree flags options source) with
  | error e s =>
      rw [hrun] at h
      cases h
  | ok u s =>
      rw [hrun] at h
      cases h
      rw [hstages, Stage.runAll_formatter] at hrun
      obtain ⟨u, s₁, hbefore, hformat⟩ := exists_of_run_bind hrun
      obtain ⟨nodes, hparse, rfl⟩ := Stage.run_formatter hformat
      refine ⟨⟨s₁.text, s₁.lastModified, s₁.diagnostics⟩, nodes, ?_, hparse, rfl⟩
      -- Leaving the last stage out changes neither the job nor the state at the start.
      have hrun' : (Stage.runAll c.withoutLast.stages).run ⟨source.path, c.withoutLast.config, tree⟩
          (c.withoutLast.start tree flags options source) = .ok u s₁ := hbefore
      unfold compile
      dsimp only
      rw [hrun']

/-- The same for a file. -/
theorem exists_of_compileFile {flags options : List Text} {path : Path} {d : Compiled}
    (hlast : c.stages.getLast? = some Stage.formatter)
    (h : c.compileFile tree flags options path = .ok d) :
    ∃ d' nodes, c.withoutLast.compileFile tree flags options path = .ok d'
      ∧ Node.parse d'.css = .ok nodes ∧ d = { d' with css := Node.format c.config.format nodes } := by
  unfold compileFile at h ⊢
  cases hload : Source.load tree path with
  | error e =>
      rw [hload] at h
      cases h
  | ok source =>
      rw [hload] at h
      exact exists_of_compile hlast h

end Compiler

/-! ### One document after the other -/

namespace BuildOutput

/-- The outcome of a build with given documents and failures. -/
def of (documents : List Compiled) (failures : List Failure) : BuildOutput where
  css := documents.flatMap (·.css)
  lastModified := (documents.filterMap (·.lastModified)).max?
  diagnostics := documents.flatMap (·.diagnostics)
  failures := failures

/-- The latest of some times, counted at once or in two steps. -/
theorem max?_toList_append (ms ns : List Nat) : (ms.max?.toList ++ ns).max? = (ms ++ ns).max? := by
  cases ms with
  | nil => rfl
  | cons m ms => rw [List.max?_cons', Option.toList_some, List.singleton_append, List.cons_append,
      List.max?_cons', List.max?_cons', List.foldl_append]

/-- Adding a document to an outcome is adding it at the end of the list. -/
theorem addDocument_of (documents : List Compiled) (failures : List Failure) (d : Compiled) :
    (of documents failures).addDocument d = of (documents ++ [d]) failures := by
  have htime : [d].filterMap (·.lastModified) = d.lastModified.toList := by
    cases hd : d.lastModified <;> simp [hd]
  simp only [addDocument, of, max?_toList_append, List.flatMap_append, List.filterMap_append, htime,
    List.flatMap_singleton]

/-- Adding a failure is too. -/
theorem addFailure_of (documents : List Compiled) (failures : List Failure) (path : Path)
    (d : Diagnostic) :
    (of documents failures).addFailure path d = of documents (failures ++ [⟨path, d.located path⟩]) :=
  rfl

end BuildOutput

namespace Compiler

variable (c : Compiler) (tree : FileTree) (request : BuildRequest)

/-- What becomes of one document. A file that is no stylesheet is an error
too. -/
def attempt (path : Path) : Except Error Compiled :=
  if path.hasExtension "css".toList then c.compileFile tree request.flags request.options path
  else .error (.fatal (unsupportedDiagnostic path))

/-- The failure of a document that is not compiled. -/
def failure? (path : Path) : Option Failure :=
  match c.attempt tree request path with
  | .ok _ => none
  | .error e => some ⟨path, e.diagnostic.located path⟩

/-- The documents of a request that are compiled, in order. -/
def documents : List Compiled :=
  request.files.filterMap fun path => (c.attempt tree request path).toOption

/-- The failures of the others, in order. -/
def failures : List Failure := request.files.filterMap (c.failure? tree request)

section

variable {c tree request}

/-- The step of a build, by what becomes of its document. -/
theorem buildFile_eq (o : BuildOutput) (path : Path) :
    c.buildFile tree request o path
      = match c.attempt tree request path with
        | .ok d => .ok (o.addDocument d)
        | .error .broken => .error {}
        | .error e => .ok (o.addFailure path e.diagnostic) := by
  unfold buildFile attempt
  cases path.hasExtension "css".toList <;> rfl

/-- One step adds the document, or its failure. -/
theorem buildFile_of {path : Path} (h : c.attempt tree request path ≠ .error .broken)
    (documents : List Compiled) (failures : List Failure) :
    c.buildFile tree request (.of documents failures) path
      = .ok (.of (documents ++ (c.attempt tree request path).toOption.toList)
          (failures ++ (c.failure? tree request path).toList)) := by
  unfold failure?
  rw [buildFile_eq]
  cases hpath : c.attempt tree request path with
  | ok d => simp [BuildOutput.addDocument_of, Except.toOption]
  | error e =>
      rw [hpath] at h
      cases e with
      | broken => exact absurd rfl h
      | _ => simp [BuildOutput.addFailure_of, Except.toOption]

/-- One element and then the others. -/
theorem filterMap_cons_toList {α β : Type} (f : α → Option β) (a : α) (as : List α) :
    (a :: as).filterMap f = (f a).toList ++ as.filterMap f := by
  cases ha : f a <;> simp [ha]

/-- A run adds all documents and all failures. -/
theorem foldlM_buildFile {files : List Path}
    (h : ∀ path ∈ files, c.attempt tree request path ≠ .error .broken) (documents : List Compiled)
    (failures : List Failure) :
    files.foldlM (c.buildFile tree request) (.of documents failures)
      = .ok (.of (documents ++ files.filterMap fun path => (c.attempt tree request path).toOption)
          (failures ++ files.filterMap (c.failure? tree request))) := by
  induction files generalizing documents failures with
  | nil => simp [pure, Except.pure]
  | cons path files ih =>
      rw [List.forall_mem_cons] at h
      rw [List.foldlM_cons, buildFile_of h.1, filterMap_cons_toList, filterMap_cons_toList,
        ← List.append_assoc, ← List.append_assoc]
      exact ih h.2 _ _

/-- A text that is cut inside a character ends the run. -/
theorem foldlM_buildFile_broken {files : List Path}
    (h : ∃ path ∈ files, c.attempt tree request path = .error .broken) (o : BuildOutput) :
    files.foldlM (c.buildFile tree request) o = .error {} := by
  induction files generalizing o with
  | nil => simp at h
  | cons path files ih =>
      rw [List.foldlM_cons]
      cases hstep : c.buildFile tree request o path with
      | error e => rfl
      | ok o' =>
          -- The step succeeds, so it is one of the other documents.
          refine ih ?_ o'
          obtain ⟨broken, hmem, hbroken⟩ := h
          rcases List.mem_cons.mp hmem with rfl | hmem
          · rw [buildFile_eq, hbroken] at hstep
            cases hstep
          · exact ⟨broken, hmem, hbroken⟩

/-- A build is made of its documents and failures if none of the texts is cut
inside a character. -/
theorem build_eq (h : ∀ path ∈ request.files, c.attempt tree request path ≠ .error .broken) :
    c.build tree request = .ok (.of (c.documents tree request) (c.failures tree request)) :=
  foldlM_buildFile h [] []

/-- A build ends early because of such a text only. -/
theorem build_eq_error_iff : c.build tree request = .error {} ↔
    ∃ path ∈ request.files, c.attempt tree request path = .error .broken := by
  constructor
  · intro hbuild
    by_contra hnone
    rw [build_eq fun path hpath hbroken => hnone ⟨path, hpath, hbroken⟩] at hbuild
    cases hbuild
  · exact fun h => foldlM_buildFile_broken h {}

/-- A build that succeeds is made of its documents and failures. -/
theorem eq_of_build {o : BuildOutput} (h : c.build tree request = .ok o) :
    o = .of (c.documents tree request) (c.failures tree request) := by
  have hnone : ∀ path ∈ request.files, c.attempt tree request path ≠ .error .broken := by
    intro path hpath hbroken
    rw [build_eq_error_iff.mpr ⟨path, hpath, hbroken⟩] at h
    cases h
  rw [build_eq hnone] at h
  exact (Except.ok.inj h).symm

/-- A document in lines is at rest if nothing was left open in what was
formatted. -/
theorem exists_of_attempt {path : Path} {d : Compiled} (hlines : c.config.format.compress = false)
    (hlast : c.stages.getLast? = some Stage.formatter) (h : c.attempt tree request path = .ok d) :
    ∃ d' nodes, c.withoutLast.attempt tree request path = .ok d' ∧ Node.parse d'.css = .ok nodes
      ∧ d.css = Node.pretty nodes
      ∧ (Node.EndsWhole d'.css nodes → Node.AtRest d.css ∧ ∃ own, Node.parse d.css = .ok own) := by
  unfold attempt at h ⊢
  split at h
  · obtain ⟨d', nodes, hbefore, hparse, rfl⟩ := exists_of_compileFile hlast h
    have hcss : Node.format c.config.format nodes = Node.pretty nodes := by
      rw [Node.format, hlines]
      rfl
    refine ⟨d', nodes, by rw [if_pos ‹_›, hbefore], hparse, hcss, fun hwhole => ?_⟩
    obtain ⟨own, hown⟩ := Node.passes_pretty (Node.items_of_parse hwhole.closed hparse)
      hwhole.lastClosed hwhole.imports
    rw [hcss]
    exact ⟨hown.atRest, own, hown.fills.run [] [] rfl⟩
  · cases h

end

/-- A build is made of its documents and failures, unless a text is cut inside a
character. Its stylesheet is read as the documents are read alone if all but the
last are at rest, and for each of them this is what it takes to stand before
anything else. A document in lines is at rest if nothing was left open in what
was formatted. -/
theorem build_parse :
    (c.build tree request = .error {}
      ↔ ∃ path ∈ request.files, c.attempt tree request path = .error .broken)
    ∧ ∀ o, c.build tree request = .ok o →
      o = .of (c.documents tree request) (c.failures tree request)
      ∧ (∀ forests, List.Forall₂ (fun t nodes => Node.parse t = .ok nodes)
            ((c.documents tree request).map (·.css)) forests →
          (∀ t ∈ ((c.documents tree request).map (·.css)).dropLast, Node.AtRest t) →
          Node.parse o.css = .ok forests.flatten)
      ∧ (∀ d ∈ c.documents tree request, ∀ nodes, Node.parse d.css = .ok nodes →
          (Node.AtRest d.css ↔ ∀ t more, Node.parse t = .ok more →
            Node.parse (d.css ++ t) = .ok (nodes ++ more)))
      ∧ (c.config.format.compress = false → c.stages.getLast? = some Stage.formatter →
          ∀ path d, c.attempt tree request path = .ok d →
            ∃ d' nodes, c.withoutLast.attempt tree request path = .ok d'
              ∧ Node.parse d'.css = .ok nodes ∧ d.css = Node.pretty nodes
              ∧ (Node.EndsWhole d'.css nodes →
                Node.AtRest d.css ∧ ∃ own, Node.parse d.css = .ok own)) := by
  refine ⟨build_eq_error_iff, fun o hbuild => ⟨eq_of_build hbuild, ?_, ?_, ?_⟩⟩
  · intro forests hforests hrest
    -- The stylesheet of a build is the documents one after the other.
    have hcss : o.css = ((c.documents tree request).map (·.css)).flatten := by
      rw [eq_of_build hbuild, ← List.flatMap_def]
      rfl
    rw [hcss]
    exact Node.parse_flatten hforests hrest
  · exact fun d _ nodes hnodes => Node.parse_append_iff hnodes
  · exact fun hlines hlast path d hd => exists_of_attempt hlines hlast hd

end Compiler

/-! ### Two files -/

/-- Two files in a working directory. -/
def twoFiles (first second : String) : FileTree :=
  let tree := FileTree.empty ["w".toList]
  let tree := tree.add ["w".toList, "a.css".toList] (.file ⟨some first.toList, some 3⟩)
  tree.add ["w".toList, "b.css".toList] (.file ⟨some second.toList, some 5⟩)

/-- Both of them, and a file that is no stylesheet between them. -/
def bothFiles : BuildRequest := { files := [.of "a.css", .of "a.txt", .of "b.css"] }

/-- The compiler that writes lines. -/
def inLines : Compiler := { config := {} }

/-- The compiler that writes few characters. -/
def inFewCharacters : Compiler := { config := { format := { compress := true } } }

/-- An import, a brace in a string, and a declaration without a semicolon at the
end. -/
def varied : FileTree := twoFiles "@import 'x' y; a\x7bb\x7bc:'\x7d'\x7d\x7d d:e" "f\x7bg:h\x7d"

/-- What is read from the first file when it is compiled. -/
def variedNodes : List Node :=
  [.importUrl ['x'] ['y'], .rule "a b".toList [.declaration ['c'] "'\x7d'".toList],
    .declaration ['d'] ['e']]

/-- What is read from the second. -/
def plainNodes : List Node := [.rule ['f'] [.declaration ['g'] ['h']]]

/-- A result that is there, and what is read from it. -/
theorem exists_of_toOption {ε α β : Type} {x : Except ε α} {f : α → β} {b : β}
    (h : x.toOption.map f = some b) : ∃ a, x = .ok a ∧ f a = b := by
  cases x with
  | error e => cases h
  | ok a => exact ⟨a, rfl, Option.some.inj h⟩

namespace Compiler

/-- The import stays in one piece and the declaration gets its semicolon, so the
first document is at rest and the second one is read behind it. -/
theorem build_parse_varied :
    ∃ o, inLines.build varied bothFiles = .ok o ∧ o.failures.length = 1
      ∧ (inLines.documents varied bothFiles).map (·.css)
        = [Node.pretty variedNodes, Node.pretty plainNodes]
      ∧ Node.AtRest (Node.pretty variedNodes)
      ∧ Node.parse o.css = .ok (variedNodes ++ plainNodes) := by
  have hbuild : (inLines.build varied bothFiles).toOption.map (·.failures.length) = some 1 := by
    decide +kernel
  have htexts : (inLines.documents varied bothFiles).map (·.css)
      = [Node.pretty variedNodes, Node.pretty plainNodes] := by
    decide +kernel
  have hreadable : Node.AllReadable variedNodes := by decide +kernel
  have hfirst := (Node.readsAs_pretty variedNodes hreadable).parse_eq
  have hsecond := (Node.readsAs_pretty plainNodes (by decide +kernel)).parse_eq
  obtain ⟨o, hok, hfailures⟩ := exists_of_toOption hbuild
  obtain ⟨-, hapart⟩ := build_parse inLines varied bothFiles
  obtain ⟨-, hparse, -, hlines⟩ := hapart o hok
  have hrest : Node.AtRest (Node.pretty variedNodes) := by
    have hcompiled : (inLines.attempt varied bothFiles (.of "a.css")).toOption.map (·.css)
        = some (Node.pretty variedNodes) := by decide +kernel
    -- The stages before the formatter leave the nodes in the fewest characters.
    have hbefore : (inLines.withoutLast.attempt varied bothFiles (.of "a.css")).toOption.map (·.css)
        = some (Node.compactAll variedNodes) := by decide +kernel
    obtain ⟨d, hd, hcss⟩ := exists_of_toOption hcompiled
    obtain ⟨d', nodes, hd', hnodes, -, hwhole⟩ := hlines rfl rfl (.of "a.css") d hd
    rw [hd'] at hbefore
    have htext : d'.css = Node.compactAll variedNodes := Option.some.inj hbefore
    rw [htext, (Node.readsAs_compactAll variedNodes hreadable).parse_eq] at hnodes
    cases hnodes
    rw [htext] at hwhole
    rw [← hcss]
    exact (hwhole (by decide +kernel)).1
  refine ⟨o, hok, hfailures, htexts, hrest, ?_⟩
  have hboth := hparse [variedNodes, plainNodes] (htexts ▸ .cons hfirst (.cons hsecond .nil))
    (htexts ▸ List.forall_mem_singleton.mpr hrest)
  rwa [List.flatten_cons, List.flatten_singleton] at hboth

/-- How many nodes are read from a text. -/
def nodeCount (t : Text) : Option Nat := (Node.parse t).toOption.map List.length

/-- Two documents of one node each that are one node together: a comment that is
open at the end takes in the next document, and so does a declaration that
compressed output does not end. A text that is cut inside a character takes the
other document down. -/
theorem build_swallows :
    (∃ o, inLines.build (twoFiles "/* open" "a\x7bb:c\x7d") bothFiles = .ok o
      ∧ (inLines.documents (twoFiles "/* open" "a\x7bb:c\x7d") bothFiles).map (nodeCount ·.css)
        = [some 1, some 1]
      ∧ nodeCount o.css = some 1)
    ∧ (∃ o, inFewCharacters.build (twoFiles "a:b" "c:d") bothFiles = .ok o
      ∧ (inFewCharacters.documents (twoFiles "a:b" "c:d") bothFiles).map (nodeCount ·.css)
        = [some 1, some 1]
      ∧ nodeCount o.css = some 1)
    ∧ inLines.build (twoFiles "a\x7bb:c\x7d" "@import 'abé';") bothFiles = .error {} := by
  have hopen : (inLines.build (twoFiles "/* open" "a\x7bb:c\x7d") bothFiles).toOption.map
      (nodeCount ·.css) = some (some 1) := by decide +kernel
  have hbare : (inFewCharacters.build (twoFiles "a:b" "c:d") bothFiles).toOption.map
      (nodeCount ·.css) = some (some 1) := by decide +kernel
  have hcut : (inLines.build (twoFiles "a\x7bb:c\x7d" "@import 'abé';") bothFiles).toOption.isNone
      = true := by
    decide +kernel
  obtain ⟨first, hfirst, hfirstCount⟩ := exists_of_toOption hopen
  obtain ⟨second, hsecond, hsecondCount⟩ := exists_of_toOption hbare
  refine ⟨⟨first, hfirst, by decide +kernel, hfirstCount⟩,
    ⟨second, hsecond, by decide +kernel, hsecondCount⟩, ?_⟩
  cases h : inLines.build (twoFiles "a\x7bb:c\x7d" "@import 'abé';") bothFiles with
  | error e => rfl
  | ok o =>
      rw [h] at hcut
      cases hcut

end Compiler

end Stylesheet
