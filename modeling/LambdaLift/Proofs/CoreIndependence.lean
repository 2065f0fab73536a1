import LambdaLift.Proofs.Capture
import LambdaLift.Proofs.FrontEnd

/-!
# Built-ins do not show in the output

A module that is lowered uses nothing but parameters, so that it is resolved whatever the built-ins
are, and resolution refuses nothing that lowering accepts. The built-ins decide which error is
reported, and never what is emitted.
-/

namespace LambdaLift

open Target

namespace Module

variable {m : Module}

/-- A module that is lowered is resolved under all built-ins. -/
theorem exists_resolve_of_lower {style : Style} {unit : CompilationUnit}
    {events events' : List Event} (h : m.lower style events = .ok unit events') (core : Core)
    (events₁ : List Event) :
    ∃ rs s, m.resolve core events₁ = .ok rs s := by
  obtain ⟨es, fs, hlifts, _⟩ := m.lower_lifts h
  have hstrays := hlifts.straysAll_eq_nil Renaming.sees_empty
  have hmeets := resolve_meets core events₁ hlifts.plain
  cases hresolve : m.resolve core events₁ with
  | ok rs s => exact ⟨rs, s, rfl⟩
  | error e s =>
      rw [hresolve] at hmeets
      exact absurd hstrays hmeets

/-- What a module is lowered to does not depend on what was reported before. -/
theorem lower_events {style : Style} {unit : CompilationUnit} {events events' : List Event}
    (h : m.lower style events = .ok unit events') (events₁ : List Event) :
    ∃ s, m.lower style events₁ = .ok unit s :=
  Module.lower_eq_ok_iff.mpr (Module.lower_eq_ok_iff.mp ⟨events', h⟩)

/-- A module that is lowered compiles to its unit. -/
theorem compile_of_lower {options : CompileOptions} {unit : CompilationUnit}
    {events events' : List Event} (h : m.lower options.style events = .ok unit events')
    (events₁ : List Event) :
    ∃ s, m.compile options events₁ = .ok (unit.emit options.style) s := by
  obtain ⟨rs, s, hresolve⟩ := exists_resolve_of_lower h (.ofNames options.core) events₁
  obtain ⟨s', hlower⟩ := lower_events h
    (s ++ (rs.filter Resolution.captured).map fun r => .captured m.name r.site.name)
  refine ⟨s' ++ [.compiled unit.name unit.size], ?_⟩
  refine bind_eq_ok_iff.mpr ⟨rs, s, Logged.mapError_eq_ok_iff.mpr hresolve, ?_⟩
  refine bind_eq_ok_iff.mpr ⟨(), _, rfl, ?_⟩
  refine bind_eq_ok_iff.mpr ⟨unit, s', Logged.mapError_eq_ok_iff.mpr hlower, ?_⟩
  exact bind_eq_ok_iff.mpr ⟨(), _, rfl, rfl⟩

theorem compile_eq_ok_iff {options : CompileOptions} {emitted : Emitted}
    (events events₁ : List Event) :
    (∃ s, m.compile options events = .ok emitted s) ↔
      ∃ unit s, m.lower options.style events₁ = .ok unit s ∧ emitted = unit.emit options.style := by
  constructor
  · rintro ⟨s, hcompile⟩
    obtain ⟨unit, s₁, s₂, hlower, rfl⟩ := compile_eq_ok hcompile
    obtain ⟨s', hlower'⟩ := lower_events hlower events₁
    exact ⟨unit, s', hlower', rfl⟩
  · rintro ⟨unit, s, hlower, rfl⟩
    exact compile_of_lower hlower events

end Module

/-- A source compiles exactly if it holds a module that does. -/
theorem exists_compile_iff {format : SourceFormat} {name source : String} {options : CompileOptions}
    {events : List Event} {emitted : Emitted} :
    (∃ s, compile format name source options events = .ok emitted s) ↔
      ∃ m s₁, Module.ofSource format name source events = .ok m s₁ ∧
        ∃ s, m.compile options s₁ = .ok emitted s := by
  constructor
  · rintro ⟨s, hcompile⟩
    obtain ⟨m, s₁, hm, hmodule⟩ := compile_eq_ok hcompile
    exact ⟨m, s₁, hm, s, hmodule⟩
  · rintro ⟨m, s₁, hm, s, hmodule⟩
    exact ⟨s, bind_eq_ok_iff.mpr ⟨m, s₁, hm, hmodule⟩⟩

/-- A module compiles exactly if it is lowered, and then its unit is emitted. So built-ins change
nothing in what modules and sources compile to. -/
theorem compile_iff_lower (options : CompileOptions) (events events₁ : List Event) :
    (∀ m : Module, (∃ emitted s, m.compile options events = .ok emitted s) ↔
      ∃ unit s, m.lower options.style events₁ = .ok unit s) ∧
    (∀ (m : Module) (emitted : Emitted), (∃ s, m.compile options events = .ok emitted s) ↔
      ∃ unit s, m.lower options.style events₁ = .ok unit s ∧ emitted = unit.emit options.style) ∧
    (∀ (m : Module) (core : List String) (emitted : Emitted),
      (∃ s, m.compile options events = .ok emitted s) ↔
        ∃ s, m.compile { options with core } events₁ = .ok emitted s) ∧
    (∀ (format : SourceFormat) (name source : String) (core : List String) (emitted : Emitted),
      (∃ s, compile format name source options events = .ok emitted s) ↔
        ∃ s, compile format name source { options with core } events = .ok emitted s) := by
  have hcore (m : Module) (core : List String) (emitted : Emitted) (events₂ events₃ : List Event) :
      (∃ s, m.compile options events₂ = .ok emitted s) ↔
        ∃ s, m.compile { options with core } events₃ = .ok emitted s := by
    rw [Module.compile_eq_ok_iff events₂ [], Module.compile_eq_ok_iff events₃ []]
  refine ⟨?_, fun m emitted => Module.compile_eq_ok_iff events events₁,
    fun m core emitted => hcore m core emitted events events₁, ?_⟩
  · intro m
    constructor
    · rintro ⟨emitted, hcompile⟩
      obtain ⟨unit, s, hlower, _⟩ := (Module.compile_eq_ok_iff events events₁).mp hcompile
      exact ⟨unit, s, hlower⟩
    · rintro ⟨unit, s, hlower⟩
      exact ⟨unit.emit options.style, Module.compile_of_lower hlower events⟩
  · intro format name source core emitted
    rw [exists_compile_iff, exists_compile_iff]
    exact exists_congr fun m => exists_congr fun s => and_congr_right fun _ =>
      hcore m core emitted s s

/-- In `(print) => print` a parameter hides a built-in; without the built-in the same is emitted. -/
theorem compile_iff_lower_hidden :
    let m : Module := ⟨"m", [.lambda (.symbol "print") [.symbol "print"]]⟩
    ∃ emitted, (∃ s, m.compile ⟨{}, ["print"]⟩ [] = .ok emitted s) ∧
      ∃ s, m.compile ⟨{}, []⟩ [] = .ok emitted s := by
  intro m
  obtain ⟨hiff, _, hcore, _⟩ := compile_iff_lower ⟨{}, ["print"]⟩ [] []
  obtain ⟨emitted, hcompile⟩ := (hiff m).mpr ⟨_, _, rfl⟩
  exact ⟨emitted, hcompile, (hcore m [] emitted).mp hcompile⟩

end LambdaLift
