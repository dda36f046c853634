import JackCompiler.Proofs.Acceptance
import JackCompiler.Proofs.SourceFiles

/-!
Building files in memory. What becomes of a source is told by its bytes and by what was at its
output before; a build puts these results together and touches nothing but the outputs.
-/

namespace JackCompiler

open CommandLine Session

namespace Session

/-- All that the log was told, in order. -/
def records (session : Session) : List LogRecord :=
  session.log.reverse

/-- The session goes on with these files, and its log was told these records. -/
def goOn (session : Session) (files : FileTree) (records : List LogRecord) : Session :=
  { session with files, log := records.reverse ++ session.log }

theorem goOn_goOn (session : Session) (x y : FileTree) (earlier later : List LogRecord) :
    (session.goOn x earlier).goOn y later = session.goOn y (earlier ++ later) := by
  simp [goOn]

end Session

/-! ### The result of one file -/

/-- Why a file fails, if it does, what is at its output afterwards, and what its compilation
logs. -/
structure BuildResult where
  failure : Option Diagnostic
  output : Option Entry
  records : List LogRecord

namespace BuildResult

/-- What becomes of a source with this content, by what was at its output before. -/
def ofContent (bytes : ByteArray) (previous : Option Entry) : BuildResult :=
  let transcript := compileBytes bytes
  match transcript.failure, previous with
  | some (.encoding fault), _ => ⟨some (.encoding fault), previous, []⟩
  | _, some .directory => ⟨some (.io .isDirectory), previous, []⟩
  | failure, _ =>
    { failure
      output := if failure.isNone then some (.file transcript.output.toUTF8) else none
      records := transcript.records }

variable {bytes : ByteArray} {source : String} {previous : Option Entry}

theorem compileBytes_text (h : bytes = source.toUTF8) : compileBytes bytes = compile source := by
  rw [compileBytes, Utf8.decode_eq_ok.2 h]

theorem ofContent_directory (h : bytes = source.toUTF8) :
    ofContent bytes (some .directory) = ⟨some (.io .isDirectory), some .directory, []⟩ := by
  unfold ofContent
  rw [compileBytes_text h]
  dsimp only
  split
  · rename_i fault hfailure
    exact absurd hfailure (compile_failure_ne_encoding source fault)
  · rfl
  · rename_i hother
    exact (hother rfl).elim

theorem ofContent_text (h : bytes = source.toUTF8) (hprevious : previous ≠ some .directory) :
    ofContent bytes previous =
      { failure := (compile source).failure
        output :=
          if (compile source).failure.isNone then some (.file (compile source).output.toUTF8)
          else none
        records := (compile source).records } := by
  unfold ofContent
  rw [compileBytes_text h]
  dsimp only
  split
  · rename_i fault hfailure
    exact absurd hfailure (compile_failure_ne_encoding source fault)
  · exact absurd rfl hprevious
  · rfl

/-- Bytes that are no text fail before the output is opened. -/
theorem ofContent_no_text (previous : Option Entry)
    (h : ∀ source : String, bytes ≠ source.toUTF8) :
    ∃ fault, Utf8.decode bytes = .error fault ∧
      ofContent bytes previous = ⟨some (.encoding fault), previous, []⟩ := by
  cases hdecode : Utf8.decode bytes with
  | error fault =>
    refine ⟨fault, rfl, ?_⟩
    unfold ofContent compileBytes
    rw [hdecode]
  | ok source => exact absurd (Utf8.decode_eq_ok.1 hdecode) (h source)

end BuildResult

namespace SourceFile

/-- What becomes of the file when it is built in the tree. -/
def result (file : SourceFile) (tree : FileTree) : BuildResult :=
  .ofContent file.bytes (tree.get? file.outputWay)

theorem result_congr (file : SourceFile) {tree after : FileTree}
    (h : after.get? file.outputWay = tree.get? file.outputWay) :
    file.result after = file.result tree := by
  rw [result, result, h]

/-- The record that tells how building the file ended. -/
def verdict (file : SourceFile) : Option Diagnostic → LogRecord
  | none => ⟨.info, "jackc", file.path ++ " -> " ++ file.output⟩
  | some failure => ⟨.error, "jackc", file.path ++ "\n" ++ failure.message⟩

/-- All that the log is told about a file with this result. -/
def report (file : SourceFile) (result : BuildResult) : List LogRecord :=
  result.records ++ [file.verdict result.failure]

end SourceFile

/-! ### Steps of the run -/

namespace CommandLine

section Steps

variable {session : Session} {after : FileTree}

theorem read_runs (session : Session) (path : String) :
    Runs (Host.read path) session (session.files.read path) session :=
  rfl

theorem elapsed?_runs (session : Session) : Runs Host.elapsed? session session.clock? session :=
  rfl

/-- An action on the files that succeeds. -/
theorem change_runs (session : Session) {f : FileTree → Except IoFault FileTree}
    (h : f session.files = .ok after) :
    Runs (do replaceFiles (f (← get).files)) session (.ok ()) (session.goOn after []) := by
  refine Runs.bind (rfl : Runs get _ _ _) ?_
  rw [h]
  rfl

theorem change_fails {f : FileTree → Except IoFault FileTree} {fault : IoFault}
    (h : f session.files = .error fault) :
    Runs (do replaceFiles (f (← get).files)) session (.error fault) session := by
  refine Runs.bind (rfl : Runs get _ _ _) ?_
  rw [h]
  rfl

theorem log_runs (session : Session) (record : LogRecord) :
    Runs (Host.log record) session () (session.goOn session.files [record]) :=
  rfl

theorem log_all_runs (session : Session) (records : List LogRecord) :
    Runs (records.forM Host.log) session () (session.goOn session.files records) := by
  induction records generalizing session with
  | nil => exact Runs.pure () _
  | cons record rest ih =>
    refine Runs.bind (log_runs session record) ?_
    have hrest := ih (session.goOn session.files [record])
    rwa [goOn_goOn] at hrest

end Steps

section Files

variable {session : Session} {file : SourceFile} {source : String}

/-- Removes an output that was begun. -/
theorem discard_runs (session : Session)
    (h : session.files.resolve? file.output = some file.outputWay)
    {bytes : ByteArray} (hget : session.files.get? file.outputWay = some (.file bytes)) :
    Runs (discard file.output) session ()
      (session.goOn (session.files.erase file.outputWay) []) := by
  have hremove : session.files.remove file.output = .ok (session.files.erase file.outputWay) := by
    rw [FileTree.remove, h]
    simp only [hget]
  exact Runs.bind (change_runs session (f := (·.remove file.output)) hremove) (Runs.pure () _)

/-- A directory in the place of the output is left as it is. -/
theorem compileTo_directory (hin : file.IsIn session.files)
    (hdirectory : session.files.get? file.outputWay = some .directory) (source : String) :
    Runs (compileTo source file.output) session (some (.io .isDirectory)) session := by
  have hwrite : session.files.write file.output .empty = .error .isDirectory := by
    rw [FileTree.write, hin.resolve?_output]
    exact if_pos (decide_eq_true hdirectory)
  exact Runs.bind (change_fails (f := (·.write file.output .empty)) hwrite) (Runs.pure _ _)

theorem write_output {tree : FileTree} (h : tree.resolve? file.output = some file.outputWay)
    (hfree : tree.isDirectory file.outputWay = false) (bytes : ByteArray) :
    tree.write file.output bytes = .ok (tree.insert file.outputWay (.file bytes)) := by
  rw [FileTree.write, h]
  exact if_neg (by rw [hfree]; exact Bool.false_ne_true)

/-- The output of a text: all of its code, or nothing, whatever was there. -/
theorem compileTo_runs (hin : file.IsIn session.files)
    (hfree : session.files.isDirectory file.outputWay = false) (source : String) :
    ∃ after, FileTree.Changes file.outputWay session.files after ∧
      (after.get? file.outputWay =
        if (compile source).failure.isNone then some (.file (compile source).output.toUTF8)
        else none) ∧
      Runs (compileTo source file.output) session (compile source).failure
        (session.goOn after (compile source).records) := by
  -- The empty output comes first, and the rest of the run knows only these facts about it.
  have hcreate := write_output hin.resolve?_output hfree .empty
  have hchanges := FileTree.Changes.insert hfree .empty
  have hget := (session.files.get?_insert (session.files.ne_nil_of_not_directory hfree)
    (.file .empty) _).trans (if_pos rfl)
  generalize session.files.insert file.outputWay (.file .empty) = begun at hcreate hchanges hget
  have hresolve := (FileTree.resolve?_congr hchanges.isDirectory _).trans hin.resolve?_output
  have hstill := (hchanges.isDirectory _).trans hfree
  have hnil := begun.ne_nil_of_not_directory hstill
  have hlog := log_all_runs (session.goOn begun []) (compile source).records
  rw [goOn_goOn, List.nil_append] at hlog
  cases hsource : (compile source).failure with
  | none =>
    refine ⟨_, hchanges.trans (.insert hstill (compile source).output.toUTF8), ?_, ?_⟩
    · rw [begun.get?_insert hnil, if_pos rfl]
      rfl
    · refine Runs.bind (change_runs session (f := (·.write file.output .empty)) hcreate) ?_
      refine Runs.bind hlog ?_
      rw [hsource]
      have hwrite := change_runs (session.goOn begun (compile source).records)
        (f := (·.write file.output (compile source).output.toUTF8))
        (write_output hresolve hstill (compile source).output.toUTF8)
      rw [goOn_goOn, List.append_nil] at hwrite
      exact Runs.bind hwrite (Runs.pure _ _)
  | some failure =>
    refine ⟨_, hchanges.trans (.erase hstill), ?_, ?_⟩
    · rw [begun.get?_erase hnil, if_pos rfl]
      rfl
    · refine Runs.bind (change_runs session (f := (·.write file.output .empty)) hcreate) ?_
      refine Runs.bind hlog ?_
      rw [hsource]
      have hdiscard := discard_runs (session.goOn begun (compile source).records) hresolve hget
      rw [goOn_goOn, List.append_nil] at hdiscard
      exact Runs.bind hdiscard (Runs.pure _ _)

/-- One file: its result is told by its bytes and its own output, and only that output changes. -/
theorem compileFile_runs (hin : file.IsIn session.files) :
    ∃ after, FileTree.Changes file.outputWay session.files after ∧
      after.get? file.outputWay = (file.result session.files).output ∧
      Runs (compileFile file.path) session (file.result session.files).failure
        (session.goOn after (file.result session.files).records) := by
  have hread : session.files.read file.path = .ok file.bytes := by
    rw [FileTree.read, hin.resolve?, Option.bind_some, hin.get?]
  rw [SourceFile.result]
  by_cases htext : ∃ source : String, file.bytes = source.toUTF8
  · obtain ⟨source, hsource⟩ := htext
    have hcompile {failure : Option Diagnostic} {last : Session}
        (h : Runs (compileTo source file.output) session failure last) :
        Runs (compileFile file.path) session failure last := by
      refine Runs.bind (read_runs session file.path) ?_
      rw [hread]
      simp only [Utf8.decode_eq_ok.2 hsource, SourceFile.outputPath_path]
      exact h
    by_cases hdirectory : session.files.get? file.outputWay = some .directory
    · rw [hdirectory, BuildResult.ofContent_directory hsource]
      exact ⟨session.files, .refl _ _, hdirectory,
        hcompile (compileTo_directory hin hdirectory source)⟩
    · rw [BuildResult.ofContent_text hsource hdirectory]
      obtain ⟨after, hchanges, hget, hruns⟩ :=
        compileTo_runs hin (decide_eq_false hdirectory) source
      exact ⟨after, hchanges, hget, hcompile hruns⟩
  · obtain ⟨fault, hdecode, hresult⟩ := BuildResult.ofContent_no_text
      (session.files.get? file.outputWay) (not_exists.1 htext)
    rw [hresult]
    refine ⟨session.files, .refl _ _, rfl, Runs.bind (read_runs session file.path) ?_⟩
    rw [hread]
    simp only [hdecode]
    exact Runs.pure _ _

/-- The number of the files that fail. -/
def failures (tree : FileTree) (files : List SourceFile) : Nat :=
  files.countP fun file => (file.result tree).failure.isSome

/-- All that the log is told about the files, one after the other. -/
def reports (tree : FileTree) (files : List SourceFile) : List LogRecord :=
  files.flatMap fun file => file.report (file.result tree)

theorem reports_cons (tree : FileTree) (file : SourceFile) (rest : List SourceFile) :
    reports tree (file :: rest) = file.report (file.result tree) ++ reports tree rest :=
  List.flatMap_cons

theorem compileFiles_cons {result : BuildResult} {paths : List String} {middle : FileTree}
    {last : Session} {failed : Nat}
    (hfile : Runs (compileFile file.path) session result.failure
      (session.goOn middle result.records))
    (hrest : Runs (compileFiles paths) (session.goOn middle (file.report result)) failed last) :
    Runs (compileFiles (file.path :: paths)) session
      (failed + if result.failure.isSome then 1 else 0) last := by
  rw [SourceFile.report, ← goOn_goOn (x := middle)] at hrest
  refine Runs.bind hfile ?_
  cases hfailure : result.failure with
  | none =>
    simp only [hfailure, SourceFile.verdict, ← SourceFile.outputPath_path] at hrest
    exact Runs.bind (log_runs _ _) hrest
  | some failure =>
    rw [hfailure] at hrest
    exact Runs.bind (log_runs _ _) (Runs.bind hrest (Runs.pure _ _))

/-- Every output is as the result of its file has it, and nothing else has changed. -/
structure Builds (files : List SourceFile) (tree after : FileTree) : Prop where
  output : ∀ file ∈ files, after.get? file.outputWay = (file.result tree).output
  frame : ∀ way, (∀ file ∈ files, way ≠ file.outputWay) → after.get? way = tree.get? way

/-- Files with different outputs do not meet: after the first, each of the others is still there
and has the result that it had before. -/
theorem compileFiles_runs (session : Session) {files : List SourceFile}
    (hin : ∀ file ∈ files, file.IsIn session.files)
    (hdistinct : files.Pairwise fun x y => x.outputWay ≠ y.outputWay) :
    ∃ after, Builds files session.files after ∧
      Runs (compileFiles (files.map SourceFile.path)) session (failures session.files files)
        (session.goOn after (reports session.files files)) := by
  induction files generalizing session with
  | nil => exact ⟨session.files, ⟨List.forall_mem_nil _, fun _ _ => rfl⟩, Runs.pure 0 _⟩
  | cons file rest ih =>
    obtain ⟨hfirst, hlater⟩ := List.pairwise_cons.1 hdistinct
    obtain ⟨hfile, hrest⟩ := List.forall_mem_cons.1 hin
    obtain ⟨middle, hchanges, hget, hruns⟩ := compileFile_runs hfile
    have hresults : ∀ other ∈ rest, other.result middle = other.result session.files :=
      fun other hmem => other.result_congr (hchanges.get? _ (hfirst other hmem).symm)
    obtain ⟨after, hbuilds, hbuild⟩ :=
      ih (session.goOn middle (file.report (file.result session.files)))
        (fun other hmem => (hrest other hmem).changes hchanges) hlater
    refine ⟨after, ⟨?_, ?_⟩, ?_⟩
    · refine List.forall_mem_cons.2 ⟨?_, fun other hmem => ?_⟩
      · exact (hbuilds.frame file.outputWay hfirst).trans hget
      · exact (hbuilds.output other hmem).trans (congrArg _ (hresults other hmem))
    · intro way hway
      obtain ⟨hhere, hthere⟩ := List.forall_mem_cons.1 hway
      exact (hbuilds.frame way hthere).trans (hchanges.get? way hhere)
    · have hfailures : failures middle rest = failures session.files rest :=
        List.countP_congr fun other hmem => by rw [hresults other hmem]
      have hreports : reports middle rest = reports session.files rest :=
        List.flatMap_congr fun other hmem => by rw [hresults other hmem]
      change Runs _ _ (failures middle rest) (Session.goOn _ after (reports middle rest)) at hbuild
      rw [goOn_goOn, hfailures, hreports] at hbuild
      rw [failures, List.countP_cons, reports_cons]
      exact compileFiles_cons hruns hbuild

end Files

/-- The last record: how many of the files succeeded and how long that took, or that there are
none. -/
def summary (session : Session) (path : String) (files : List SourceFile) : LogRecord :=
  let succeeded := files.countP fun file => (file.result session.files).failure.isNone
  if files.isEmpty then ⟨.warn, "jackc", "no .jack files found at " ++ path⟩
  else ⟨.info, "jackc",
    "compiled " ++ toString succeeded ++ " of " ++ toString files.length ++ " files" ++
      duration session.clock?⟩

theorem length_sub_failures (tree : FileTree) (files : List SourceFile) :
    files.length - failures tree files =
      files.countP fun file => (file.result tree).failure.isNone := by
  have hall := List.length_eq_countP_add_countP
    (fun file : SourceFile => (file.result tree).failure.isSome) (l := files)
  rw [hall, failures, Nat.add_sub_cancel_left]
  refine List.countP_congr fun file _ => ?_
  simp

/-- A build carries out the results of the sources at its path and sums them up. -/
theorem run_build {session : Session} (hproper : session.files.Proper) (verbosity : Verbosity)
    (path : String) (ignored : List String) :
    ∃ files after, session.files.Gathers path files ∧
      Runs (sources path) session (files.map SourceFile.path) session ∧
      Builds files session.files after ∧
      Runs (run verbosity ("build" :: path :: ignored)) session
        (if failures session.files files > 0 then 1 else 0)
        ({ session with verbosity }.goOn after
          (reports session.files files ++ [summary session path files])) := by
  obtain ⟨files, hgathers, hsources⟩ := sources_runs hproper path
  let opened : Session := { session with verbosity }
  have hopen : Runs (Host.openLog verbosity) session () opened := rfl
  cases files with
  | nil =>
    have hbuilds : Builds [] session.files session.files :=
      ⟨List.forall_mem_nil _, fun _ _ => rfl⟩
    refine ⟨[], session.files, hgathers, hsources session rfl, hbuilds, ?_⟩
    refine Runs.bind hopen (Runs.bind (hsources opened rfl) ?_)
    exact Runs.bind (log_runs _ _) (Runs.pure 0 _)
  | cons file rest =>
    obtain ⟨after, hbuilds, hruns⟩ :=
      compileFiles_runs opened hgathers.isIn hgathers.distinct
    have hstart : Runs Host.startClock opened () opened := rfl
    refine ⟨file :: rest, after, hgathers, hsources session rfl, hbuilds, Runs.bind hopen ?_⟩
    refine Runs.bind (hsources opened rfl) (Runs.bind hstart (Runs.bind hruns ?_))
    refine Runs.bind (elapsed?_runs _) ?_
    rw [List.length_map, length_sub_failures, ← goOn_goOn (x := after)]
    exact Runs.bind (log_runs _ _) (Runs.pure _ _)

end CommandLine

/-! ### Files on their own -/

section

variable {session : Session}

/-- What a text becomes whose output is not a directory. -/
theorem CommandLine.Builds.of_text {tree after : FileTree} {files : List SourceFile}
    (h : Builds files tree after) {file : SourceFile} (hmem : file ∈ files) {source : String}
    (hsource : file.bytes = source.toUTF8) (hfree : tree.get? file.outputWay ≠ some .directory) :
    (file.result tree).failure = (compile source).failure ∧
      after.get? file.outputWay =
        if (compile source).failure.isNone then some (.file (compile source).output.toUTF8)
        else none := by
  rw [h.output file hmem, SourceFile.result, BuildResult.ofContent_text hsource hfree]
  exact ⟨rfl, rfl⟩

/-- A directory with a source, another one that is no class, and the output of an earlier build. -/
def rowTree : FileTree :=
  (((⟨[]⟩ : FileTree).plant ["Row", "Row.jack"] (.file rowClass.toUTF8)).plant
    ["Row", "Notes.jack"] (.file "notes".toUTF8)).plant ["Row", "Notes.vm"] (.file "old".toUTF8)

theorem rowTree_proper : rowTree.Proper := by
  refine ((FileTree.Proper.empty.plant ?_ _).plant ?_ _).plant ?_ _ <;> decide

/-- A build of that directory that takes a millisecond and a half. -/
def rowSession : Session :=
  { files := rowTree, clock? := some 1500000 }

/-- A text that fails leaves no file at its output, and a file at the output of a text is all of its
code. Bytes that are no text fail and leave their output as it was. -/
theorem build_leaves_complete_outputs (hproper : session.files.Proper) (verbosity : Verbosity)
    (path : String) (ignored : List String) :
    ∃ (files : List SourceFile) (code : UInt32) (after : Session),
      session.files.Gathers path files ∧
      Runs (run verbosity ("build" :: path :: ignored)) session code after ∧
      ∀ file ∈ files,
        (∀ source : String, file.bytes = source.toUTF8 →
          ((file.result session.files).failure ≠ none →
            ∀ bytes, after.files.get? file.outputWay ≠ some (.file bytes)) ∧
          ∀ bytes, after.files.get? file.outputWay = some (.file bytes) →
            ((compile source).deliver {}).failure = none ∧
              bytes = ((compile source).deliver {}).device.written) ∧
        ((∀ source : String, file.bytes ≠ source.toUTF8) →
          (file.result session.files).failure ≠ none ∧
            after.files.get? file.outputWay = session.files.get? file.outputWay) := by
  obtain ⟨files, after, hgathers, -, hbuilds, hruns⟩ :=
    run_build hproper verbosity path ignored
  refine ⟨files, _, _, hgathers, hruns, fun file hmem => ⟨fun source hsource => ?_, ?_⟩⟩
  · obtain ⟨hfailure, hwritten⟩ := (compile source).deliver_unlimited
    rw [hfailure, hwritten]
    change (_ → ∀ bytes, after.get? file.outputWay ≠ _) ∧ ∀ bytes, after.get? file.outputWay = _ → _
    by_cases hdirectory : session.files.get? file.outputWay = some .directory
    · rw [hbuilds.output file hmem, SourceFile.result, hdirectory,
        BuildResult.ofContent_directory hsource]
      exact ⟨by simp, by simp⟩
    · obtain ⟨hresult, hget⟩ := hbuilds.of_text hmem hsource hdirectory
      rw [hresult, hget]
      cases hcompile : (compile source).failure with
      | none => exact ⟨fun h => absurd rfl h, fun bytes h => ⟨rfl, by simpa using h.symm⟩⟩
      | some failure => exact ⟨by simp, by simp⟩
  · intro hbytes
    obtain ⟨fault, -, hresult⟩ :=
      BuildResult.ofContent_no_text (session.files.get? file.outputWay) hbytes
    change _ ∧ after.get? file.outputWay = _
    rw [hbuilds.output file hmem, SourceFile.result, hresult]
    exact ⟨by simp, rfl⟩

theorem build_leaves_complete_outputs_rowTree :
    rowSession.files.Proper ∧
    ∃ (files : List SourceFile) (code : UInt32) (after : Session),
      rowSession.files.Gathers "Row" files ∧
      Runs (run (.upTo .info) ["build", "Row"]) rowSession code after ∧
      ∀ file ∈ files,
        (∀ source : String, file.bytes = source.toUTF8 →
          ((file.result rowSession.files).failure ≠ none →
            ∀ bytes, after.files.get? file.outputWay ≠ some (.file bytes)) ∧
          ∀ bytes, after.files.get? file.outputWay = some (.file bytes) →
            ((compile source).deliver {}).failure = none ∧
              bytes = ((compile source).deliver {}).device.written) ∧
        ((∀ source : String, file.bytes ≠ source.toUTF8) →
          (file.result rowSession.files).failure ≠ none ∧
            after.files.get? file.outputWay = rowSession.files.get? file.outputWay) :=
  ⟨rowTree_proper, build_leaves_complete_outputs rowTree_proper (.upTo .info) "Row" []⟩

/-- A source that is no text, next to the output of an earlier build. -/
def staleTree : FileTree :=
  ((⟨[]⟩ : FileTree).plant ["A.jack"] (.file ⟨#[0xFF]⟩)).plant ["A.vm"] (.file "old".toUTF8)

theorem stale_output_left :
    ((run (.upTo .info) ["build", "A.jack"] : StateM Session UInt32).run
      { files := staleTree }).1 = 1 ∧
    ((run (.upTo .info) ["build", "A.jack"] : StateM Session UInt32).run
      { files := staleTree }).2.files.get? ["A.vm"] = some (.file "old".toUTF8) := by
  refine ⟨?_, ?_⟩ <;> decide +kernel

end

end JackCompiler
