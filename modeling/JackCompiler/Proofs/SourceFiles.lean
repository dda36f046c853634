import JackCompiler.Build.CommandLine
import JackCompiler.Proofs.FileTrees
import JackCompiler.Proofs.Utf8Texts
import Mathlib.Data.List.Sort

/-!
The sources at a path. A source is a regular file with the extension `jack`; its output is the file
of the same stem with the extension `vm` next to it. An output is never a source, and different
sources have different outputs.
-/

namespace JackCompiler

open FileTree (IsFolder IsName)

/-! ### Names of sources and outputs -/

namespace CommandLine

section Names

variable {folder stem name : String}

/-- The name of a source that declares this. -/
def sourceName (stem : String) : String :=
  stem ++ ".jack"

def outputName (stem : String) : String :=
  stem ++ ".vm"

/-- What can stand in front of an extension. -/
structure IsStem (stem : String) : Prop where
  noSlash : '/' ∉ stem.toList
  ne_empty : stem ≠ ""

theorem IsStem.isName (h : IsStem stem) {ext : String} (hslash : '/' ∉ ext.toList)
    (hlong : 2 ≤ ext.length) : IsName (stem ++ ext) := by
  have hlength : 3 ≤ (stem ++ ext).length := by
    have hstem : stem.length ≠ 0 := fun hzero => h.ne_empty (String.length_eq_zero_iff.1 hzero)
    rw [String.length_append]
    omega
  refine ⟨?_, ?_, ?_, ?_⟩
  · rw [String.toList_append, List.mem_append]
    exact not_or.2 ⟨h.noSlash, hslash⟩
  all_goals
    intro heq
    rw [heq] at hlength
    exact absurd hlength (by decide)

theorem IsStem.isName_source (h : IsStem stem) : IsName (sourceName stem) :=
  h.isName (by decide) (by decide)

theorem IsStem.isName_output (h : IsStem stem) : IsName (outputName stem) :=
  h.isName (by decide) (by decide)

/-- The stem of the name of a source. -/
def stemOf (name : String) : String :=
  String.ofList (name.toList.take (name.length - 5))

@[simp] theorem stemOf_sourceName (stem : String) : stemOf (sourceName stem) = stem := by
  have hchars : (sourceName stem).toList = stem.toList ++ ".jack".toList := String.toList_append
  have hlength : (sourceName stem).length = stem.toList.length + 5 := by
    rw [← String.length_toList, hchars, List.length_append]
    rfl
  rw [stemOf, hchars, hlength, Nat.add_sub_cancel, List.take_left, String.ofList_toList]

theorem outputName_inj {x y : String} : outputName x = outputName y ↔ x = y :=
  String.append_left_inj _

/-- No name ends in both extensions. -/
theorem outputName_ne_sourceName (x y : String) : outputName x ≠ sourceName y := by
  intro heq
  have hlast := congrArg (fun name : String => name.toList.getLast?) heq
  simp [outputName, sourceName] at hlast

end Names

/-! ### Paths of sources and outputs -/

section Paths

variable {folder stem name path : String}

theorem exists_folder (path : String) :
    ∃ folder name, path = folder ++ name ∧ IsFolder folder ∧ '/' ∉ name.toList := by
  by_cases hslash : '/' ∈ path.toList.reverse
  · obtain ⟨x, y, hsplit, hx⟩ := List.eq_append_cons_of_mem hslash
    refine ⟨String.ofList y.reverse ++ "/", String.ofList x.reverse, ?_, .inr ⟨_, rfl⟩, ?_⟩
    · rw [← String.toList_inj, ← List.reverse_inj, hsplit]
      simp
    · rwa [String.toList_ofList, List.mem_reverse]
  · exact ⟨"", path, String.empty_append.symm, .inl rfl, fun h => hslash (List.mem_reverse.2 h)⟩

/-- The last name of a path stands behind its folder. -/
theorem takeWhile_name (hfolder : IsFolder folder) (hname : '/' ∉ name.toList) :
    (folder ++ name).toList.reverse.takeWhile (· != '/') = name.toList.reverse := by
  have hpass : ∀ c ∈ name.toList.reverse, (c != '/') = true := by
    intro c hc
    rw [bne_iff_ne]
    rintro rfl
    exact hname (List.mem_reverse.1 hc)
  have hstop : folder.toList.reverse.takeWhile (· != '/') = [] := by
    rcases hfolder with rfl | ⟨shorter, rfl⟩
    · rfl
    · simp
  rw [String.toList_append, List.reverse_append, List.takeWhile_append_of_pos hpass, hstop,
    List.append_nil]

/-- A name is cut at its last dot. -/
theorem eq_append_of_dropWhile {x y : List Char} {c : Char}
    (h : name.toList.reverse.dropWhile (· != '.') = c :: y)
    (hext : name.toList.reverse.takeWhile (· != '.') = x) :
    name.toList = y.reverse ++ '.' :: x.reverse := by
  have hdot : c = '.' := by
    have hhead := List.head?_dropWhile_not (· != '.') name.toList.reverse
    rw [h] at hhead
    simpa using hhead
  have hsplit := List.takeWhile_append_dropWhile (p := (· != '.')) (l := name.toList.reverse)
  rw [h, hext, hdot] at hsplit
  rw [← List.reverse_inj, ← hsplit]
  simp

/-- A source is told by the last name of its path. -/
theorem isSource_append (hfolder : IsFolder folder) (hname : '/' ∉ name.toList) :
    isSource (folder ++ name) = true ↔ ∃ stem, IsStem stem ∧ name = sourceName stem := by
  rw [isSource, decide_eq_true_iff, extension?, takeWhile_name hfolder hname]
  constructor
  · intro h
    simp only at h
    split at h
    · rename_i c e more hdrop
      have hext : (name.toList.reverse.takeWhile (· != '.')).reverse = "jack".toList := by
        rw [← Option.some.inj h, String.toList_ofList]
      have hchars := eq_append_of_dropWhile hdrop rfl
      rw [hext] at hchars
      refine ⟨String.ofList (e :: more).reverse, ⟨?_, ?_⟩, ?_⟩
      · rw [String.toList_ofList]
        exact fun hmem => hname (hchars ▸ List.mem_append_left _ hmem)
      · rw [← String.toList_inj.ne]
        simp
      · rw [← String.toList_inj, hchars, sourceName, String.toList_append]
        exact congrArg (· ++ ".jack".toList) String.toList_ofList.symm
    · cases h
  · rintro ⟨stem, hstem, rfl⟩
    obtain ⟨e, more, hchars⟩ := List.exists_cons_of_ne_nil
      (mt List.reverse_eq_nil_iff.1 (mt String.toList_eq_nil_iff.1 hstem.ne_empty))
    have hreverse : (sourceName stem).toList.reverse = ".jack".toList.reverse ++ e :: more := by
      rw [sourceName, String.toList_append, List.reverse_append, hchars]
    rw [hreverse]
    rfl

theorem outputPath_append (folder stem : String) :
    outputPath (folder ++ sourceName stem) = folder ++ outputName stem := by
  have hreverse : (folder ++ sourceName stem).toList.reverse =
      ".jack".toList.reverse ++ (folder ++ stem).toList.reverse := by
    simp [sourceName]
  rw [outputPath, hreverse, ← String.toList_inj]
  simp [outputName, List.dropWhile]

example : outputPath "a.b/Row.old.jack" = "a.b/Row.old.vm" := by decide +kernel

example : isSource "a.b/.jack" = false := by decide +kernel

/-- The spelling of a directory in front of the names in it. -/
def folderOf (path : String) : String :=
  if path.toList.getLast? = some '/' then path else path ++ "/"

theorem join_eq (path name : String) : join path name = folderOf path ++ name := by
  unfold join folderOf
  split <;> rfl

theorem exists_shorter (h : path.toList.getLast? = some '/') :
    ∃ shorter, path = shorter ++ "/" := by
  obtain ⟨shorter, hshorter⟩ := List.getLast?_eq_some_iff.1 h
  refine ⟨String.ofList shorter, ?_⟩
  rw [← String.toList_inj, hshorter]
  simp

theorem isFolder_folderOf (path : String) : IsFolder (folderOf path) := by
  unfold folderOf
  split
  · rename_i hlast
    exact .inr (exists_shorter hlast)
  · exact .inr ⟨path, rfl⟩

theorem directoryOf?_folderOf {tree : FileTree} {directory : List String}
    (h : tree.resolve? path = some directory) (hdirectory : tree.isDirectory directory = true) :
    tree.directoryOf? (folderOf path) = some directory := by
  obtain ⟨hslash, hsame⟩ := FileTree.directoryOf?_of_resolve? h hdirectory
  unfold folderOf
  split
  · rename_i hlast
    exact hsame (exists_shorter hlast)
  · exact hslash

end Paths

end CommandLine

/-! ### Source files -/

open CommandLine

/-- A source file: the directory it is in, as spelled and as a way, the stem of its name, and what
it contains. -/
structure SourceFile where
  folder : String
  directory : List String
  stem : String
  bytes : ByteArray

namespace SourceFile

section

variable (file : SourceFile)

def path : String :=
  file.folder ++ sourceName file.stem

def output : String :=
  file.folder ++ outputName file.stem

def way : List String :=
  file.directory ++ [sourceName file.stem]

def outputWay : List String :=
  file.directory ++ [outputName file.stem]

/-- The tree has this file, and its path leads there. -/
structure IsIn (tree : FileTree) : Prop where
  isFolder : IsFolder file.folder
  isStem : IsStem file.stem
  resolve? : tree.resolve? file.path = some file.way
  get? : tree.get? file.way = some (.file file.bytes)

end

variable {file other : SourceFile} {tree after : FileTree}

@[simp] theorem outputPath_path (file : SourceFile) : outputPath file.path = file.output :=
  outputPath_append file.folder file.stem

theorem outputWay_ne_way (file other : SourceFile) : file.outputWay ≠ other.way := by
  intro heq
  have hname := List.append_inj_right' heq rfl
  exact outputName_ne_sourceName _ _ (List.singleton_inj.1 hname)

theorem outputWay_inj :
    file.outputWay = other.outputWay ↔
      file.directory = other.directory ∧ file.stem = other.stem := by
  constructor
  · intro heq
    obtain ⟨hdirectory, hname⟩ := List.append_inj' heq rfl
    exact ⟨hdirectory, outputName_inj.1 (List.singleton_inj.1 hname)⟩
  · rintro ⟨hdirectory, hstem⟩
    rw [outputWay, outputWay, hdirectory, hstem]

namespace IsIn

theorem directoryOf? (h : file.IsIn tree) :
    tree.directoryOf? file.folder = some file.directory := by
  have hway := h.resolve?
  rw [path, FileTree.resolve?_append h.isFolder h.isStem.isName_source] at hway
  obtain ⟨directory, hdirectory, hsame⟩ := Option.map_eq_some_iff.1 hway
  rw [hdirectory, List.append_inj_left' hsame rfl]

theorem of_directoryOf? (hfolder : IsFolder file.folder) (hstem : IsStem file.stem)
    (hdirectory : tree.directoryOf? file.folder = some file.directory)
    (hget : tree.get? file.way = some (.file file.bytes)) : file.IsIn tree := by
  refine ⟨hfolder, hstem, ?_, hget⟩
  rw [path, FileTree.resolve?_append hfolder hstem.isName_source, hdirectory]
  rfl

/-- The output of a file stands next to it. -/
theorem resolve?_output (h : file.IsIn tree) : tree.resolve? file.output = some file.outputWay := by
  rw [output, FileTree.resolve?_append h.isFolder h.isStem.isName_output, h.directoryOf?]
  rfl

/-- No source is touched when an output changes. -/
theorem changes (h : file.IsIn tree) (hchanges : FileTree.Changes other.outputWay tree after) :
    file.IsIn after where
  isFolder := h.isFolder
  isStem := h.isStem
  resolve? := (FileTree.resolve?_congr hchanges.isDirectory file.path).trans h.resolve?
  get? := (hchanges.get? file.way (outputWay_ne_way other file).symm).trans h.get?

end IsIn

end SourceFile

/-! ### Gathering the sources at a path -/

/-- The path has the extension of a source. -/
def IsSourcePath (path : String) : Prop :=
  ∃ folder stem, IsFolder folder ∧ IsStem stem ∧ path = folder ++ sourceName stem

theorem isSource_iff (path : String) : isSource path = true ↔ IsSourcePath path := by
  obtain ⟨folder, name, rfl, hfolder, hname⟩ := exists_folder path
  rw [isSource_append hfolder hname]
  constructor
  · rintro ⟨stem, hstem, rfl⟩
    exact ⟨folder, stem, hfolder, hstem, rfl⟩
  · rintro ⟨other, stem, hother, hstem, heq⟩
    have hlast : name.toList.reverse = (sourceName stem).toList.reverse := by
      rw [← takeWhile_name hfolder hname, heq, takeWhile_name hother hstem.isName_source.noSlash]
    exact ⟨stem, hstem, String.toList_inj.1 (List.reverse_inj.1 hlast)⟩

theorem SourceFile.exists_isIn {tree : FileTree} {path : String} {way : List String}
    {bytes : ByteArray} (hsource : IsSourcePath path) (hway : tree.resolve? path = some way)
    (hget : tree.get? way = some (.file bytes)) :
    ∃ file : SourceFile, file.path = path ∧ file.IsIn tree := by
  obtain ⟨folder, stem, hfolder, hstem, rfl⟩ := hsource
  obtain ⟨directory, hdirectory, rfl⟩ := Option.map_eq_some_iff.1
    ((FileTree.resolve?_append hfolder hstem.isName_source).symm.trans hway)
  exact ⟨⟨folder, directory, stem, bytes⟩, rfl, hfolder, hstem, hway, hget⟩

namespace FileTree

variable {tree : FileTree} {path folder name : String} {directory : List String}
  {files : List SourceFile}

/-- The sources directly inside a directory, in the byte order of their names. -/
structure Lists (tree : FileTree) (path : String) (directory : List String)
    (files : List SourceFile) : Prop where
  inside : ∀ file ∈ files, file.directory = directory ∧ file.path = join path (sourceName file.stem)
  complete : ∀ stem bytes, IsStem stem →
    tree.get? (directory ++ [sourceName stem]) = some (.file bytes) →
      ∃ file ∈ files, file.stem = stem
  ordered : files.Pairwise fun x y =>
    (sourceName x.stem).toUTF8.toList < (sourceName y.stem).toUTF8.toList

/-- What is at a path, if anything is. -/
def found? (tree : FileTree) (path : String) : Option Entry :=
  (tree.resolve? path).bind tree.get?

/-- The sources at a path: the file itself, or those directly inside the directory. -/
structure Gathers (tree : FileTree) (path : String) (files : List SourceFile) : Prop where
  isIn : ∀ file ∈ files, file.IsIn tree
  ofSource : ∀ bytes, tree.found? path = some (.file bytes) → IsSourcePath path →
    files.map SourceFile.path = [path]
  ofOther : ∀ bytes, tree.found? path = some (.file bytes) → ¬ IsSourcePath path → files = []
  ofDirectory : tree.found? path = some .directory →
    ∃ directory, tree.resolve? path = some directory ∧ tree.Lists path directory files
  ofNothing : tree.found? path = none → files = []

/-- Sources of one directory with different names have different outputs. -/
theorem Lists.distinct (h : tree.Lists path directory files) :
    files.Pairwise fun x y => x.outputWay ≠ y.outputWay := by
  refine h.ordered.imp fun hlt heq => ?_
  rw [(SourceFile.outputWay_inj.1 heq).2] at hlt
  exact List.lt_irrefl _ hlt

/-- No two sources at a path have the same output. -/
theorem Gathers.distinct (h : tree.Gathers path files) :
    files.Pairwise fun x y => x.outputWay ≠ y.outputWay := by
  cases hfound : tree.found? path with
  | none =>
    rw [h.ofNothing hfound]
    exact List.Pairwise.nil
  | some entry =>
    cases entry with
    | directory =>
      obtain ⟨directory, -, hlists⟩ := h.ofDirectory hfound
      exact hlists.distinct
    | file bytes =>
      have hlength : files.length ≤ 1 := by
        by_cases hsource : IsSourcePath path
        · rw [← List.length_map, h.ofSource bytes hfound hsource]
          exact le_rfl
        · rw [h.ofOther bytes hfound hsource]
          exact Nat.zero_le 1
      match files, hlength with
      | [], _ => exact List.Pairwise.nil
      | [file], _ => exact List.pairwise_singleton _ _

/-- The source of this name in a directory. -/
def sourceIn? (tree : FileTree) (folder : String) (directory : List String) (name : String) :
    Option SourceFile :=
  if isSource name then
    match tree.get? (directory ++ [name]) with
    | some (.file bytes) => some ⟨folder, directory, stemOf name, bytes⟩
    | _ => none
  else none

theorem sourceIn?_eq_some (hname : IsName name) {file : SourceFile} :
    tree.sourceIn? folder directory name = some file ↔
      file.folder = folder ∧ file.directory = directory ∧ IsStem file.stem ∧
        name = sourceName file.stem ∧
        tree.get? (directory ++ [name]) = some (.file file.bytes) := by
  have hsource := isSource_append (.inl rfl) hname.noSlash
  rw [String.empty_append] at hsource
  obtain ⟨_, _, stem, bytes⟩ := file
  unfold sourceIn?
  constructor
  · intro h
    split at h
    · rename_i hjack
      obtain ⟨stem', hstem, rfl⟩ := hsource.1 hjack
      split at h
      · rename_i hget
        cases h
        rw [stemOf_sourceName]
        exact ⟨rfl, rfl, hstem, rfl, hget⟩
      · cases h
    · cases h
  · rintro ⟨rfl, rfl, hstem, rfl, hget⟩
    rw [if_pos (hsource.2 ⟨stem, hstem, rfl⟩), hget, stemOf_sourceName]

/-- The names in a directory, sorted. -/
def sortedNames (tree : FileTree) (directory : List String) : List String :=
  (tree.names directory).mergeSort (· ≤ ·)

theorem mem_sortedNames :
    name ∈ tree.sortedNames directory ↔ (tree.get? (directory ++ [name])).isSome = true := by
  rw [sortedNames, List.mem_mergeSort, Proper.mem_names]

theorem Proper.ordered_sortedNames (h : tree.Proper) (directory : List String) :
    (tree.sortedNames directory).Pairwise (· < ·) := by
  have hsorted : (tree.sortedNames directory).Pairwise (· ≤ ·) :=
    List.pairwise_mergeSort' (· ≤ ·) (tree.names directory)
  have hnodup : (tree.sortedNames directory).Nodup :=
    (List.mergeSort_perm _ _).nodup_iff.2 (h.nodup_names directory)
  exact hsorted.imp₂ (fun _ _ hle hne => lt_of_le_of_ne hle hne) hnodup

/-- The sources in a directory, in the order in which they are built. -/
def sourcesIn (tree : FileTree) (folder : String) (directory : List String) : List SourceFile :=
  (tree.sortedNames directory).filterMap (tree.sourceIn? folder directory)

section Directory

variable (hproper : tree.Proper) (hpath : tree.resolve? path = some directory)
  (hdirectory : tree.isDirectory directory = true)

include hproper

theorem mem_sourcesIn {file : SourceFile} :
    file ∈ tree.sourcesIn folder directory ↔
      file.folder = folder ∧ file.directory = directory ∧ IsStem file.stem ∧
        tree.get? file.way = some (.file file.bytes) := by
  rw [sourcesIn, List.mem_filterMap]
  constructor
  · rintro ⟨name, hmem, hsource⟩
    have hname : IsName name := hproper.isName ((List.mem_mergeSort).1 hmem)
    obtain ⟨hfolder, rfl, hstem, rfl, hget⟩ := (sourceIn?_eq_some hname).1 hsource
    exact ⟨hfolder, rfl, hstem, hget⟩
  · rintro ⟨hfolder, rfl, hstem, hget⟩
    refine ⟨sourceName file.stem, mem_sortedNames.2 ?_,
      (sourceIn?_eq_some hstem.isName_source).2 ⟨hfolder, rfl, hstem, rfl, hget⟩⟩
    rw [← SourceFile.way, hget]
    rfl

theorem ordered_sourcesIn (folder : String) (directory : List String) :
    (tree.sourcesIn folder directory).Pairwise fun x y =>
      (sourceName x.stem).toUTF8.toList < (sourceName y.stem).toUTF8.toList := by
  have hnames := (hproper.ordered_sortedNames directory).imp_of_mem
    (S := fun x y => IsName x ∧ IsName y ∧ x < y) ?_
  · refine List.pairwise_filterMap.2 (hnames.imp ?_)
    rintro x y ⟨hx, hy, hlt⟩ file hfile other hother
    obtain ⟨-, -, -, rfl, -⟩ := (sourceIn?_eq_some hx).1 hfile
    obtain ⟨-, -, -, rfl, -⟩ := (sourceIn?_eq_some hy).1 hother
    exact Utf8.toUTF8_lt hlt
  · intro x y hx hy hlt
    exact ⟨hproper.isName (List.mem_mergeSort.1 hx), hproper.isName (List.mem_mergeSort.1 hy), hlt⟩

include hpath hdirectory in
theorem isIn_sourcesIn {file : SourceFile}
    (hmem : file ∈ tree.sourcesIn (folderOf path) directory) : file.IsIn tree := by
  obtain ⟨hfolder, hsame, hstem, hget⟩ := (mem_sourcesIn hproper).1 hmem
  refine .of_directoryOf? (hfolder ▸ isFolder_folderOf path) hstem ?_ hget
  rw [hfolder, hsame, directoryOf?_folderOf hpath hdirectory]

theorem lists_sourcesIn : tree.Lists path directory (tree.sourcesIn (folderOf path) directory) where
  inside file hmem := by
    obtain ⟨hfolder, hsame, -, -⟩ := (mem_sourcesIn hproper).1 hmem
    rw [join_eq, ← hfolder]
    exact ⟨hsame, rfl⟩
  complete stem bytes hstem hget :=
    ⟨⟨folderOf path, directory, stem, bytes⟩,
      (mem_sourcesIn hproper).2 ⟨rfl, rfl, hstem, hget⟩, rfl⟩
  ordered := ordered_sourcesIn hproper _ _

/-- The paths of the sources are what the test picks out of the paths of all names. -/
theorem map_path_sourcesIn (hpath : tree.resolve? path = some directory)
    (hdirectory : tree.isDirectory directory = true) :
    (tree.sourcesIn (folderOf path) directory).map SourceFile.path =
      ((tree.sortedNames directory).map (join path)).filter fun source =>
        isSource source && (tree.found? source).map Entry.kind = some .file := by
  rw [sourcesIn, List.map_filterMap, ← List.filterMap_eq_filter, List.filterMap_map]
  refine List.filterMap_congr fun name hmem => ?_
  have hname : IsName name := hproper.isName (List.mem_mergeSort.1 hmem)
  have hfound : tree.found? (folderOf path ++ name) = tree.get? (directory ++ [name]) := by
    rw [found?, resolve?_append (isFolder_folderOf path) hname,
      directoryOf?_folderOf hpath hdirectory]
    rfl
  have hsource : isSource (folderOf path ++ name) = isSource name := by
    rw [Bool.eq_iff_iff, isSource_append (isFolder_folderOf path) hname.noSlash,
      ← isSource_append (.inl rfl) hname.noSlash, String.empty_append]
  rw [Function.comp_apply, join_eq, Option.guard_eq_ite, hfound, hsource, sourceIn?]
  cases hjack : isSource name with
  | false => rfl
  | true =>
    have hstem := isSource_append (.inl rfl) hname.noSlash
    rw [String.empty_append] at hstem
    obtain ⟨stem, -, rfl⟩ := hstem.1 hjack
    rw [if_pos rfl]
    rcases tree.get? (directory ++ [sourceName stem]) with _ | _ | bytes
    · rfl
    · rfl
    · rw [if_pos (by rfl)]
      exact congrArg (fun stem => some (folderOf path ++ sourceName stem)) (stemOf_sourceName stem)

theorem gathers_directory (hpath : tree.resolve? path = some directory)
    (hdirectory : tree.isDirectory directory = true) :
    tree.Gathers path (tree.sourcesIn (folderOf path) directory) := by
  have hfound : tree.found? path = some .directory := by
    rw [found?, hpath, Option.bind_some, of_decide_eq_true hdirectory]
  exact {
    isIn := fun file hmem => isIn_sourcesIn hproper hpath hdirectory hmem
    ofSource := by simp [hfound]
    ofOther := by simp [hfound]
    ofDirectory := fun _ => ⟨directory, hpath, lists_sourcesIn hproper⟩
    ofNothing := by simp [hfound] }

end Directory

theorem gathers_source {bytes : ByteArray} (hfound : tree.found? path = some (.file bytes))
    (hsource : IsSourcePath path) :
    ∃ file : SourceFile, file.path = path ∧ tree.Gathers path [file] := by
  obtain ⟨way, hway, hget⟩ := Option.bind_eq_some_iff.1 hfound
  obtain ⟨file, hfile, hin⟩ := SourceFile.exists_isIn hsource hway hget
  exact ⟨file, hfile, {
    isIn := List.forall_mem_singleton.2 hin
    ofSource := fun _ _ _ => congrArg (fun path => [path]) hfile
    ofOther := fun _ _ hother => absurd hsource hother
    ofDirectory := by simp [hfound]
    ofNothing := by simp [hfound] }⟩

theorem gathers_other {bytes : ByteArray} (hfound : tree.found? path = some (.file bytes))
    (hother : ¬ IsSourcePath path) : tree.Gathers path [] where
  isIn := List.forall_mem_nil _
  ofSource _ _ hsource := absurd hsource hother
  ofOther _ _ _ := rfl
  ofDirectory := by simp [hfound]
  ofNothing _ := rfl

theorem gathers_nothing (hfound : tree.found? path = none) : tree.Gathers path [] where
  isIn := List.forall_mem_nil _
  ofSource := by simp [hfound]
  ofOther := by simp [hfound]
  ofDirectory := by simp [hfound]
  ofNothing _ := rfl

end FileTree

/-! ### The run -/

namespace CommandLine

open Session

theorem entry?_runs (session : Session) (path : String) :
    Runs (Host.entry? path) session ((session.files.found? path).map Entry.kind) session :=
  rfl

theorem names_runs (session : Session) (path : String) :
    Runs (Host.names path) session
      (((session.files.resolve? path).map session.files.names).getD []) session :=
  rfl

/-- The sources that are built are those at the path. -/
theorem sources_runs {tree : FileTree} (hproper : tree.Proper) (path : String) :
    ∃ files, tree.Gathers path files ∧ ∀ session : Session, session.files = tree →
      Runs (sources path) session (files.map SourceFile.path) session := by
  cases hfound : tree.found? path with
  | none =>
    refine ⟨[], FileTree.gathers_nothing hfound, ?_⟩
    rintro session rfl
    refine Runs.bind (entry?_runs session path) ?_
    rw [hfound]
    exact Runs.pure [] _
  | some entry =>
    cases entry with
    | directory =>
      obtain ⟨directory, hpath, hget⟩ := Option.bind_eq_some_iff.1 hfound
      have hdirectory : tree.isDirectory directory = true := decide_eq_true hget
      refine ⟨_, FileTree.gathers_directory hproper hpath hdirectory, ?_⟩
      rintro session rfl
      refine Runs.bind (entry?_runs session path) ?_
      rw [hfound]
      refine Runs.bind (names_runs session path) ?_
      rw [hpath, FileTree.map_path_sourcesIn hproper hpath hdirectory]
      refine Runs.filterM (fun source => ?_) _
      exact Runs.bind (entry?_runs session source) (Runs.pure _ _)
    | file bytes =>
      have hrun (session : Session) (hsession : session.files = tree) :
          Runs (sources path) session (if isSource path then [path] else []) session := by
        subst hsession
        refine Runs.bind (entry?_runs session path) ?_
        rw [hfound]
        exact Runs.pure _ _
      by_cases hsource : IsSourcePath path
      · obtain ⟨file, hfile, hgathers⟩ := FileTree.gathers_source hfound hsource
        rw [if_pos ((isSource_iff path).2 hsource)] at hrun
        refine ⟨[file], hgathers, ?_⟩
        rwa [List.map_singleton, hfile]
      · rw [if_neg (mt (isSource_iff path).1 hsource)] at hrun
        exact ⟨[], FileTree.gathers_other hfound hsource, hrun⟩

end CommandLine

end JackCompiler
