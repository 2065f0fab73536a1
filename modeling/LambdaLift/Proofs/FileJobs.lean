import LambdaLift.FileJob
import LambdaLift.Proofs.CompileErrors
import LambdaLift.Proofs.FileChanges
import LambdaLift.Proofs.LiftedFunctions

/-!
# What a compilation changes on a file system

Reading and compiling come before the first change, so a file system whose source cannot be read or
does not compile stays as it is. A compilation that succeeds leaves two files with the two texts of
the unit, and beside them changes no file.
-/

namespace LambdaLift

open Target

namespace FileSystem

variable {fs fs' : FileSystem} {path text : String}

theorem writeText_eq_ok (h : (Files.writeText path text : StateM FileSystem _) fs = (.ok (), fs')) :
    fs.write path text.toUTF8 = .ok fs' := by
  unfold Files.writeText instFilesStateM at h
  dsimp only at h
  split at h
  · rename_i hwrite
    cases h
    exact hwrite
  · cases h

end FileSystem

namespace Target.Emitted

variable {e : Emitted} {dir : String} {artifacts : Artifacts} {fs fs' : FileSystem}

theorem write_eq_ok (h : (e.write dir : StateM FileSystem _) fs = (.ok artifacts, fs')) :
    artifacts = .inDir dir e.name ∧ ∃ fs₁ fs₂, fs.createDirs dir = (fs₁, .ok ()) ∧
      fs₁.write artifacts.source e.source.toUTF8 = .ok fs₂ ∧
      fs₂.write artifacts.header e.header.toUTF8 = .ok fs' := by
  obtain ⟨made, fs₁, hmade, h⟩ := state_bind_eq_iff.mp h
  cases made with
  | error err => cases h
  | ok =>
    obtain ⟨written, fs₂, hsource, h⟩ := state_bind_eq_iff.mp h
    cases written with
    | error err => cases h
    | ok =>
      obtain ⟨written, fs₃, hheader, h⟩ := state_bind_eq_iff.mp h
      cases written with
      | error err => cases h
      | ok =>
        cases h
        refine ⟨rfl, fs₁, fs₂, ?_, FileSystem.writeText_eq_ok hsource,
          FileSystem.writeText_eq_ok hheader⟩
        obtain ⟨hok, hfs⟩ := Prod.mk.inj hmade
        exact Prod.ext hfs hok

/-- A unit that is written stands in two files. Beside these only directories are new. -/
theorem written (h : (e.write dir : StateM FileSystem _) fs = (.ok artifacts, fs')) :
    artifacts = .inDir dir e.name ∧ fs'.readText artifacts.source = .ok e.source ∧
      fs'.readText artifacts.header = .ok e.header ∧
      ∀ loc, fs'.entry? loc ≠ fs.entry? loc →
        fs'.LeadsTo artifacts.source loc ∨ fs'.LeadsTo artifacts.header loc ∨
        fs.entry? loc = none ∧ fs'.entry? loc = some .directory ∧
          ∃ path ∈ Path.ancestors dir, fs'.LeadsTo path loc := by
  obtain ⟨hartifacts, fs₁, fs₂, hdirs, hsource, hheader⟩ := write_eq_ok h
  have hmade : FileSystem.MadeDirs (Path.ancestors dir) fs fs₁ := by
    have hchain := FileSystem.madeDirs_createChain (Path.ancestors dir) fs
    rwa [show fs.createChain (Path.ancestors dir) = (fs₁, .ok ()) from hdirs] at hchain
  obtain ⟨sourceDir, sourceName, hkeeps, hleads, hslash, hends, hentry⟩ :=
    FileSystem.write_eq_ok hsource
  obtain ⟨headerDir, headerName, hkeeps', hleads', hslash', hends', hentry'⟩ :=
    FileSystem.write_eq_ok hheader
  -- The names of the two files end with different letters.
  have hne : sourceDir ++ [sourceName] ≠ headerDir ++ [headerName] := by
    intro hsame
    obtain ⟨_, hname⟩ := List.append_inj' hsame rfl
    have hc : artifacts.source.toList.getLast? = some 'c' := by
      rw [hartifacts]
      exact Path.getLast?_join dir (by simp)
    have hh : artifacts.header.toList.getLast? = some 'h' := by
      rw [hartifacts]
      exact Path.getLast?_join dir (by simp)
    rw [List.singleton_inj.mp hname, hends', hh, hc] at hends
    exact absurd hends (by decide)
  have hstays := hkeeps'.leadsTo hleads
  refine ⟨hartifacts, ?_, ?_, fun loc hdiffers => ?_⟩
  · refine FileSystem.readText_of_leadsTo hstays hslash ?_
    rw [hentry', if_neg hne, hentry, if_pos rfl]
  · refine FileSystem.readText_of_leadsTo hleads' hslash' ?_
    rw [hentry', if_pos rfl]
  · by_cases hloc : loc = sourceDir ++ [sourceName]
    · exact .inl (hloc ▸ hstays)
    by_cases hloc' : loc = headerDir ++ [headerName]
    · exact .inr (.inl (hloc' ▸ hleads'))
    right; right
    rw [hentry', if_neg hloc', hentry, if_neg hloc] at hdiffers ⊢
    rcases hmade.entry? loc with hsame | ⟨hnone, hdir, path, hpath, hleads₁⟩
    · exact absurd hsame hdiffers
    · exact ⟨hnone, hdir, path, hpath, hkeeps'.leadsTo (hkeeps.leadsTo hleads₁)⟩

end Target.Emitted

namespace FileJob

variable {job : FileJob} {fs fs' : FileSystem} {result : Except CompileError Artifacts}
  {events : List Event}

/-- A job ends where it reads, where it compiles, or with what writing the unit gives. -/
theorem run_cases (h : (job.run : StateM FileSystem _) fs = ((result, events), fs')) :
    (∃ err, fs.readText job.path = .error err ∧ result = .error (.file err) ∧ fs' = fs) ∨
    (∃ source err, fs.readText job.path = .ok source ∧
      compile job.format job.moduleName source job.options [] = .error err events ∧
      result = .error err ∧ fs' = fs) ∨
    ∃ source emitted s written, fs.readText job.path = .ok source ∧
      compile job.format job.moduleName source job.options [] = .ok emitted s ∧
      (emitted.write job.outDir : StateM FileSystem _) fs = (written, fs') ∧
        result = written.mapError .file := by
  obtain ⟨read, fs₁, hfirst, h⟩ := state_bind_eq_iff.mp h
  obtain ⟨hread, rfl⟩ : fs.readText job.path = read ∧ fs = fs₁ := Prod.mk.inj hfirst
  cases read with
  | error err =>
      cases h
      exact .inl ⟨err, hread, rfl, rfl⟩
  | ok source =>
      right
      cases hcompile : compile job.format job.moduleName source job.options [] with
      | error err events' =>
          simp only [hcompile] at h
          cases h
          exact .inl ⟨source, err, hread, hcompile, rfl, rfl⟩
      | ok emitted events' =>
          simp only [hcompile] at h
          obtain ⟨written, fs₂, hwrite, h⟩ := state_bind_eq_iff.mp h
          cases written with
          | error err =>
              cases h
              exact .inr ⟨source, emitted, _, _, hread, hcompile, hwrite, rfl⟩
          | ok artifacts =>
              cases h
              exact .inr ⟨source, emitted, events', _, hread, hcompile, hwrite, rfl⟩

end FileJob

end LambdaLift
