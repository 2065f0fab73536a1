import LambdaLift.FileSystem
import LambdaLift.Proofs.Sequencing

/-!
# What file operations change

A directory that is made and a file that is written stand where their paths lead, and nothing else
changes. No directory gets lost on the way, so a path that led somewhere leads there afterwards.
-/

namespace LambdaLift

theorem Text.split_concat {sep c : Char} (hc : c ≠ sep) (front : List Char) :
    ∃ parts part, split sep (front ++ [c]) = parts ++ [part ++ [c]] := by
  induction front with
  | nil => exact ⟨[], [], by simp [split, hc]⟩
  | cons d front ih =>
      obtain ⟨parts, part, hsplit⟩ := ih
      rw [List.cons_append, split, hsplit]
      by_cases hd : d = sep
      · exact ⟨[] :: parts, part, by rw [if_pos hd, List.cons_append]⟩
      · rw [if_neg hd]
        cases parts with
        | nil => exact ⟨[], d :: part, rfl⟩
        | cons first parts => exact ⟨(d :: first) :: parts, part, rfl⟩

namespace Path

/-- The last name of a path that does not end with a slash ends like the path. -/
theorem exists_names_eq {path : String} {c : Char} (h : path.toList.getLast? = some c)
    (hc : c ≠ '/') :
    ∃ others name, names path = others ++ [name] ∧ name.toList.getLast? = some c := by
  obtain ⟨front, hfront⟩ := List.getLast?_eq_some_iff.mp h
  obtain ⟨parts, part, hsplit⟩ := Text.split_concat hc front
  refine ⟨(parts.filter (!·.isEmpty)).map String.ofList, String.ofList (part ++ [c]), ?_, by simp⟩
  rw [names, hfront, hsplit]
  simp

theorem getLast?_join (dir : String) {path : String} {c : Char}
    (h : path.toList.getLast? = some c) :
    (join dir path).toList.getLast? = some c := by
  unfold join
  split
  · exact h
  · split
    · rw [String.toList_append, List.getLast?_append, h]
      rfl
    · rw [String.toList_append, List.getLast?_append, h]
      rfl

section Join

variable {dir path : String} (hdir : dir ≠ "") (hpath : isAbsolute path = false)
include hdir hpath

end Join

section Plain

variable {name : String} (hname : name ≠ "") (hslash : '/' ∉ name.toList)
include hslash

include hname

end Plain

end Path

namespace FileSystem

variable {fs fs' fs'' : FileSystem} {path name : String} {loc loc' : Location}

theorem entry?_set (hloc : loc ≠ []) (entry : Entry) (loc' : Location) :
    entry? (fs.set loc entry) loc' = if loc' = loc then some entry else fs.entry? loc' := by
  by_cases hnil : loc' = []
  · subst hnil
    rw [if_neg (Ne.symm hloc)]
    rfl
  · have hempty : ¬loc'.isEmpty := by simpa using hnil
    unfold entry?
    rw [if_neg hempty, if_neg hempty, set]
    by_cases heq : loc' = loc
    · subst heq
      rw [if_pos rfl, List.find?_cons_of_pos (by simp)]
      rfl
    · rw [if_neg heq, List.find?_cons_of_neg (by simpa using Ne.symm heq), List.find?_filter]
      congr 2
      funext e
      by_cases he : e.1 = loc'
      · simp [he, heq]
      · simp [he]

section Directories

/-- Where a path leads. What the last name of the path means need not be there. -/
def LeadsTo (fs : FileSystem) (path : String) (loc : Location) : Prop :=
  fs.walk path (Path.names path) = .ok loc

/-- All directories are still there. -/
structure KeepsDirs (fs fs' : FileSystem) : Prop where
  workDir : fs'.workDir = fs.workDir
  directory : ∀ loc, fs.entry? loc = some .directory → fs'.entry? loc = some .directory

theorem walk_eq_ok_iff {names : List String} :
    fs.walk path names = .ok loc ↔
      ¬(path.toList.contains '\x00' ∨ path.isEmpty ∨ path.utf8ByteSize ≥ pathLimit) ∧
      names.foldlM fs.step (if Path.isAbsolute path then [] else fs.workDir) = .ok loc := by
  unfold walk
  split
  · simp_all
  split
  · simp_all
  split
  · simp_all
  · simp_all

theorem directory_of_step (h : fs.step loc name = .ok loc') : fs.entry? loc = some .directory := by
  unfold step at h
  split at h
  · cases h
  · cases h
  · assumption

theorem step_eq_append (h : fs.step loc name = .ok loc') (hdot : name ≠ ".") (hdots : name ≠ "..") :
    loc' = loc ++ [name] := by
  have hdir := directory_of_step h
  simp only [step, hdir, hdot, hdots, if_false] at h
  split at h
  · cases h
  · cases h
    rfl

namespace KeepsDirs

theorem trans (h : KeepsDirs fs fs') (h' : KeepsDirs fs' fs'') : KeepsDirs fs fs'' :=
  ⟨h'.workDir.trans h.workDir, fun loc hloc => h'.directory loc (h.directory loc hloc)⟩

theorem step (h : KeepsDirs fs fs') (hstep : fs.step loc name = .ok loc') :
    fs'.step loc name = .ok loc' := by
  have hdir := directory_of_step hstep
  rw [← hstep, FileSystem.step, FileSystem.step, h.directory loc hdir, hdir]

theorem steps (h : KeepsDirs fs fs') {names : List String}
    (hsteps : names.foldlM fs.step loc = .ok loc') :
    names.foldlM fs'.step loc = .ok loc' := by
  induction names generalizing loc with
  | nil => exact hsteps
  | cons name names ih =>
      rw [List.foldlM_cons] at hsteps ⊢
      obtain ⟨next, hnext, hrest⟩ := except_bind_eq_ok_iff.mp hsteps
      exact except_bind_eq_ok_iff.mpr ⟨next, h.step hnext, ih hrest⟩

/-- A path leads where it led before. -/
theorem leadsTo (h : KeepsDirs fs fs') (hpath : fs.LeadsTo path loc) : fs'.LeadsTo path loc := by
  obtain ⟨hvalid, hsteps⟩ := walk_eq_ok_iff.mp hpath
  refine walk_eq_ok_iff.mpr ⟨hvalid, ?_⟩
  rw [h.workDir]
  exact h.steps hsteps

end KeepsDirs

/-- A path leads to something that has the last name of the path. -/
theorem LeadsTo.exists_append (h : fs.LeadsTo path loc) {others : List String}
    (hnames : Path.names path = others ++ [name]) (hdot : name ≠ ".") (hdots : name ≠ "..") :
    ∃ dir, loc = dir ++ [name] := by
  obtain ⟨_, hsteps⟩ := walk_eq_ok_iff.mp h
  rw [hnames, List.foldlM_append] at hsteps
  obtain ⟨dir, _, hlast⟩ := except_bind_eq_ok_iff.mp hsteps
  rw [List.foldlM_cons] at hlast
  obtain ⟨next, hstep, hnext⟩ := except_bind_eq_ok_iff.mp hlast
  cases hnext
  exact ⟨dir, step_eq_append hstep hdot hdots⟩

end Directories

section Making

theorem createDir_eq_ok (h : fs.createDir path = .ok fs') :
    ∃ loc, fs.LeadsTo path loc ∧ fs.entry? loc = none ∧ fs' = fs.set loc .directory := by
  obtain ⟨loc, hloc, h⟩ := except_bind_eq_ok_iff.mp h
  split at h
  · cases h
  · split at h
    · cases h
    · rename_i hnew
      cases h
      refine ⟨loc, hloc, ?_, rfl⟩
      simpa using fun hsome => hnew (.inr (.inr hsome))

/-- From `fs` to `fs'` directories were made where some of the paths lead, and nothing else was
changed. -/
structure MadeDirs (paths : List String) (fs fs' : FileSystem) : Prop where
  workDir : fs'.workDir = fs.workDir
  entry? : ∀ loc, fs'.entry? loc = fs.entry? loc ∨
    fs.entry? loc = none ∧ fs'.entry? loc = some .directory ∧ ∃ path ∈ paths, fs'.LeadsTo path loc

namespace MadeDirs

variable {paths : List String}

theorem refl : MadeDirs paths fs fs := ⟨rfl, fun _ => .inl rfl⟩

theorem keepsDirs (h : MadeDirs paths fs fs') : KeepsDirs fs fs' where
  workDir := h.workDir
  directory loc hloc := by
    rcases h.entry? loc with hsame | ⟨_, hmade, _⟩
    · rw [hsame, hloc]
    · exact hmade

theorem trans (h : MadeDirs paths fs fs') (h' : MadeDirs paths fs' fs'') :
    MadeDirs paths fs fs'' := by
  refine ⟨h'.workDir.trans h.workDir, fun loc => ?_⟩
  rcases h'.entry? loc with hsame' | ⟨hnone, hmade, hpath⟩
  · rw [hsame']
    rcases h.entry? loc with hsame | ⟨hnone, hmade, path, hpath, hleads⟩
    · exact .inl hsame
    · exact .inr ⟨hnone, hmade, path, hpath, h'.keepsDirs.leadsTo hleads⟩
  · rcases h.entry? loc with hsame | ⟨_, hmade', _⟩
    · exact .inr ⟨hsame ▸ hnone, hmade, hpath⟩
    · rw [hmade'] at hnone
      cases hnone

theorem mono (h : MadeDirs paths fs fs') {others : List String} (hsubset : paths ⊆ others) :
    MadeDirs others fs fs' := by
  refine ⟨h.workDir, fun loc => ?_⟩
  rcases h.entry? loc with hsame | ⟨hnone, hmade, path, hpath, hleads⟩
  · exact .inl hsame
  · exact .inr ⟨hnone, hmade, path, hsubset hpath, hleads⟩

theorem of_createDir (h : fs.createDir path = .ok fs') (hpath : path ∈ paths) :
    MadeDirs paths fs fs' := by
  obtain ⟨loc, hleads, hnone, rfl⟩ := createDir_eq_ok h
  have hloc : loc ≠ [] := by
    rintro rfl
    cases hnone
  have hkeeps : KeepsDirs fs (fs.set loc .directory) := by
    refine ⟨rfl, fun loc' hloc' => ?_⟩
    rw [entry?_set hloc]
    split
    · rfl
    · exact hloc'
  refine ⟨rfl, fun loc' => ?_⟩
  rw [entry?_set hloc]
  by_cases heq : loc' = loc
  · subst heq
    exact .inr ⟨hnone, if_pos rfl, path, hpath, hkeeps.leadsTo hleads⟩
  · exact .inl (if_neg heq)

end MadeDirs

/-- Making a directory with those around it makes directories only, also if it fails. -/
theorem madeDirs_createChain (paths : List String) (fs : FileSystem) :
    MadeDirs paths fs (fs.createChain paths).1 := by
  induction paths generalizing fs with
  | nil => exact .refl
  | cons path paths ih =>
      have hothers : MadeDirs (path :: paths) fs (fs.createChain paths).1 :=
        (ih fs).mono (List.subset_cons_self path paths)
      rw [createChain]
      split
      · rename_i hcreate
        exact .of_createDir hcreate List.mem_cons_self
      · split
        · rename_i hchain
          rwa [hchain] at hothers
        · rename_i fs₁ hchain
          rw [hchain] at hothers
          split
          · rename_i hcreate
            exact hothers.trans (.of_createDir hcreate List.mem_cons_self)
          · exact hothers
      · exact .refl

end Making

section Writing

variable {content : ByteArray} {text : String}

theorem KeepsDirs.of_set (h : fs.entry? loc ≠ some .directory) (entry : Entry) :
    KeepsDirs fs (fs.set loc entry) := by
  have hloc : loc ≠ [] := by
    rintro rfl
    exact h rfl
  refine ⟨rfl, fun loc' hloc' => ?_⟩
  rw [entry?_set hloc, if_neg, hloc']
  rintro rfl
  exact h hloc'

/-- A file that is written stands where its path leads, under a name that ends like the path. -/
theorem write_eq_ok (h : fs.write path content = .ok fs') :
    ∃ dir name, KeepsDirs fs fs' ∧ fs'.LeadsTo path (dir ++ [name]) ∧
      Path.endsWithSlash path = false ∧
      name.toList.getLast? = path.toList.getLast? ∧
      ∀ loc, fs'.entry? loc =
        if loc = dir ++ [name] then some (.file content) else fs.entry? loc := by
  obtain ⟨loc, hloc, h⟩ := except_bind_eq_ok_iff.mp h
  split at h
  · cases h
  rename_i name hname
  split at h
  · cases h
  rename_i hfile
  simp only [not_or, Bool.not_eq_true] at hfile
  obtain ⟨hdot, hdots, hslash⟩ := hfile
  split at h
  · cases h
  rename_i hdir
  cases h
  obtain ⟨others, hnames⟩ := List.getLast?_eq_some_iff.mp hname
  obtain ⟨dir, rfl⟩ := LeadsTo.exists_append hloc hnames hdot hdots
  have hkeeps := KeepsDirs.of_set hdir (.file content)
  refine ⟨dir, name, hkeeps, hkeeps.leadsTo hloc, hslash, ?_, fun loc => entry?_set (by simp) _ loc⟩
  cases hlast : path.toList.getLast? with
  | none =>
      rw [Path.names, List.getLast?_eq_none_iff.mp hlast] at hnames
      simp [Text.split] at hnames
  | some c =>
      have hc : c ≠ '/' := by
        rintro rfl
        simp [Path.endsWithSlash, hlast] at hslash
      obtain ⟨others', name', hnames', hlast'⟩ := Path.exists_names_eq hlast hc
      obtain ⟨_, hsame⟩ := List.append_inj' (hnames.symm.trans hnames') rfl
      rw [List.singleton_inj.mp hsame, hlast']

theorem fromUTF8?_toUTF8 (text : String) : String.fromUTF8? text.toUTF8 = some text := by
  have hvalid : text.toUTF8.IsValidUTF8 := text.isValidUTF8
  rw [String.fromUTF8?, dif_pos hvalid]
  rfl

/-- The text of a file is read from where the path leads. -/
theorem readText_of_leadsTo (hpath : fs.LeadsTo path loc) (hslash : Path.endsWithSlash path = false)
    (hfile : fs.entry? loc = some (.file text.toUTF8)) : fs.readText path = .ok text := by
  have hnames : namesOf path = Path.names path := by
    rw [namesOf, hslash]
    rfl
  have hfind : fs.find path = .ok (.file text.toUTF8) := by
    rw [find, hnames]
    refine except_bind_eq_ok_iff.mpr ⟨loc, hpath, ?_⟩
    rw [hfile]
    rfl
  have hread : fs.read path = .ok text.toUTF8 := except_bind_eq_ok_iff.mpr ⟨_, hfind, rfl⟩
  refine except_bind_eq_ok_iff.mpr ⟨_, hread, ?_⟩
  rw [fromUTF8?_toUTF8]
  rfl

end Writing

end FileSystem

end LambdaLift
