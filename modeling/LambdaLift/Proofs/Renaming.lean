import LambdaLift.Lifting
import LambdaLift.Proofs.Identifier
import Mathlib.Data.List.Nodup
import Mathlib.Data.List.Perm.Subperm

/-!
# Names of emitted parameters

A fresh name is never one that was emitted before, so the parameters of one function have distinct
names. Binding a list of parameters pairs their source names with the emitted names, the last one
nearest.
-/

namespace LambdaLift.Renaming

theorem numbered_injective (base : String) {m n : Nat} (h : numbered base m = numbered base n) :
    m = n := by
  apply repr_injective
  rw [← String.toList_inj] at h ⊢
  simpa [numbered] using h

theorem numbered_ne_base (base : String) (n : Nat) : numbered base n ≠ base := by
  intro h
  rw [← String.toList_inj, numbered, String.toList_append] at h
  exact repr_toList_ne_nil n (List.append_right_eq_self.mp h)

/-- As many numbers are tried as there are emitted names. They cannot all be taken, since `base`
takes one of those names and is no numbered name. -/
theorem exists_free_number (r : Renaming) {base : String} (hbase : base ∈ r.emitted) :
    ∃ n ∈ List.range' r.size r.size, numbered base n ∉ r.emitted := by
  by_contra hall
  push Not at hall
  have hnodup : (base :: (List.range' r.size r.size).map (numbered base)).Nodup := by
    refine List.nodup_cons.mpr ⟨?_, ?_⟩
    · intro hmem
      obtain ⟨n, _, hn⟩ := List.mem_map.mp hmem
      exact numbered_ne_base base n hn
    · exact List.Nodup.map (fun _ _ => numbered_injective base) (List.nodup_range' 1)
  have hsubset : base :: (List.range' r.size r.size).map (numbered base) ⊆ r.emitted := by
    intro name hname
    rcases List.mem_cons.mp hname with rfl | hname
    · exact hbase
    · obtain ⟨n, hn, rfl⟩ := List.mem_map.mp hname
      exact hall n hn
  have hle := (hnodup.subperm hsubset).length_le
  simp only [List.length_cons, List.length_map, List.length_range', emitted, size] at hle
  omega

/-- A taken name is made free by the least number, not below the number of emitted names, that does
it. -/
theorem fresh_of_mem {r : Renaming} {base : String} (hbase : base ∈ r.emitted) :
    ∃ n ∈ List.range' r.size r.size, r.fresh base = numbered base n ∧ numbered base n ∉ r.emitted ∧
      ∀ k, r.size ≤ k → k < n → numbered base k ∈ r.emitted := by
  obtain ⟨k, hk, hfree⟩ := r.exists_free_number hbase
  have hsome : ((List.range' r.size r.size).find? fun n =>
      !r.emitted.contains (numbered base n)).isSome := by
    rw [List.find?_isSome]
    exact ⟨k, hk, by simpa using hfree⟩
  obtain ⟨n, hn⟩ := Option.isSome_iff_exists.mp hsome
  obtain ⟨hfree, hmem, hleast⟩ := List.find?_range'_eq_some.mp hn
  refine ⟨n, hmem, ?_, by simpa using hfree, fun k hk hlt => by simpa using hleast k hk hlt⟩
  rw [fresh, if_pos (by simpa using hbase)]
  simp only [hn, Option.getD_some]

theorem fresh_of_notMem {r : Renaming} {base : String} (hbase : base ∉ r.emitted) :
    r.fresh base = base := by
  simp [fresh, hbase]

/-- A fresh name is the name itself or the name with a number behind it. -/
theorem fresh_eq_or_numbered (r : Renaming) (base : String) :
    r.fresh base = base ∨ ∃ n, r.fresh base = numbered base n := by
  by_cases hbase : base ∈ r.emitted
  · obtain ⟨n, _, hn, _⟩ := fresh_of_mem hbase
    exact .inr ⟨n, hn⟩
  · exact .inl (fresh_of_notMem hbase)

/-- A fresh name is free. -/
theorem fresh_notMem (r : Renaming) (base : String) : r.fresh base ∉ r.emitted := by
  by_cases hbase : base ∈ r.emitted
  · obtain ⟨n, _, hn, hfree, _⟩ := fresh_of_mem hbase
    rwa [hn]
  · rwa [fresh_of_notMem hbase]

theorem nodup_emitted_bind {r : Renaming} (h : r.emitted.Nodup) (base : String) :
    (r.bind base).emitted.Nodup := by
  rw [emitted_bind]
  exact List.nodup_cons.mpr ⟨r.fresh_notMem base, h⟩

theorem mem_emitted_of_find? {r : Renaming} {x y : String} (h : r.find? x = some y) :
    y ∈ r.emitted := by
  obtain ⟨b, hb, rfl⟩ := Option.map_eq_some_iff.mp h
  exact List.mem_map_of_mem (List.mem_of_find?_eq_some hb)

theorem find?_isSome_iff {r : Renaming} {base : String} :
    (r.find? base).isSome ↔ base ∈ r.bound.map Renamed.source := by
  simp [find?]

theorem get_eq_ok_iff {r : Renaming} {base name : String} :
    r.get base = .ok name ↔ r.find? base = some name := by
  unfold get
  cases r.find? base <;> simp

theorem get_eq_error_iff {r : Renaming} {base : String} {e : LowerError} :
    r.get base = .error e ↔ r.find? base = none ∧
      e = .unresolvedSymbol base (Suggestion.suggest base r.sources) := by
  unfold get
  cases r.find? base <;> simp [eq_comm]

/-- A name stands among the source names where its emitted name stands among the emitted ones. -/
theorem idxOf?_emitted_of_find? {r : Renaming} (hnodup : r.emitted.Nodup) {x y : String}
    (h : r.find? x = some y) :
    ∃ i, (r.bound.map Renamed.source).idxOf? x = some i ∧ r.emitted.idxOf? y = some i := by
  obtain ⟨bound⟩ := r
  induction bound with
  | nil => cases h
  | cons b bound ih =>
      obtain ⟨hfresh, hnodup⟩ := List.nodup_cons.mp hnodup
      by_cases hx : b.source = x
      · have hy : b.emitted = y := by simpa [find?, hx] using h
        exact ⟨0, by simp [List.idxOf?_cons, hx], by simp [emitted, List.idxOf?_cons, hy]⟩
      · have hrest : find? ⟨bound⟩ x = some y := by simpa [find?, hx] using h
        obtain ⟨i, hsource, hemitted⟩ := ih hnodup hrest
        have hy : b.emitted ≠ y := by
          intro hb
          exact hfresh (hb ▸ mem_emitted_of_find? hrest)
        refine ⟨i + 1, ?_, ?_⟩
        · simp [List.idxOf?_cons, hx, hsource]
        · simp only [emitted] at hemitted
          simp [emitted, List.idxOf?_cons, hy, hemitted]

theorem isIdentifier_fresh {r : Renaming} {base : String} (h : Token.isIdentifier base) :
    Token.isIdentifier (r.fresh base) := by
  by_cases hbase : base ∈ r.emitted
  · obtain ⟨n, _, hn, _⟩ := fresh_of_mem hbase
    rw [hn]
    exact Token.isIdentifier_append h fun c hc =>
      Token.isIdentContinue_of_isDigit (isDigit_of_mem_repr hc)
  · rwa [fresh_of_notMem hbase]

/-- A parameter list that is bound starts with a symbol, whose emitted name is fresh. -/
theorem bindParams_cons_eq_ok {r inner : Renaming} {param : Term} {params : List Term}
    {names : List String} (h : r.bindParams (param :: params) = .ok (names, inner)) :
    ∃ x rest, param = .symbol x ∧ names = r.fresh x :: rest ∧
      (r.bind x).bindParams params = .ok (rest, inner) := by
  cases param with
  | symbol x =>
      rw [bindParams] at h
      cases hrest : (r.bind x).bindParams params with
      | error e => rw [hrest] at h; cases h
      | ok result =>
          rw [hrest] at h
          cases h
          exact ⟨x, result.1, rfl, rfl, hrest⟩
  | _ => cases h

/-- What holds before a parameter list and is kept by binding each of its names holds after it. -/
theorem bindParams_induct {P : Renaming → Prop} {r inner : Renaming} {params : List Term}
    {names : List String} (h : r.bindParams params = .ok (names, inner)) (hr : P r)
    (hstep : ∀ r x, .symbol x ∈ params → P r → P (r.bind x)) : P inner := by
  induction params generalizing r names with
  | nil =>
      cases h
      exact hr
  | cons param params ih =>
      obtain ⟨x, rest, rfl, rfl, hrest⟩ := bindParams_cons_eq_ok h
      exact ih hrest (hstep r x (by simp) hr) fun r y hy => hstep r y (by simp [hy])

/-- The emitted names of a parameter list stand beside its source names, the last parameter
first. -/
theorem bindParams_bound {r inner : Renaming} {params : List Term} {names : List String}
    (h : r.bindParams params = .ok (names, inner)) :
    ∃ xs : List String, params = xs.map Term.symbol ∧ names.length = xs.length ∧
      inner.bound.map Renamed.source = xs.reverse ++ r.bound.map Renamed.source ∧
      inner.emitted = names.reverse ++ r.emitted := by
  induction params generalizing r names with
  | nil =>
      cases h
      exact ⟨[], rfl, rfl, rfl, rfl⟩
  | cons param params ih =>
      obtain ⟨x, rest, rfl, rfl, hrest⟩ := bindParams_cons_eq_ok h
      obtain ⟨xs, rfl, hlength, hsource, hemitted⟩ := ih hrest
      refine ⟨x :: xs, rfl, by simp [hlength], ?_, ?_⟩
      · simpa [bind] using hsource
      · simpa using hemitted

theorem nodup_emitted_bindParams {r inner : Renaming} {params : List Term} {names : List String}
    (h : r.bindParams params = .ok (names, inner)) (hr : r.emitted.Nodup) : inner.emitted.Nodup :=
  bindParams_induct (P := fun r => r.emitted.Nodup) h hr fun _ x _ hr => nodup_emitted_bind hr x

theorem isIdentifier_emitted_bindParams {r inner : Renaming} {params : List Term}
    {names : List String} (h : r.bindParams params = .ok (names, inner))
    (hparams : ∀ x, .symbol x ∈ params → Token.isIdentifier x)
    (hr : ∀ y ∈ r.emitted, Token.isIdentifier y) : ∀ y ∈ inner.emitted, Token.isIdentifier y := by
  refine bindParams_induct (P := fun r => ∀ y ∈ r.emitted, Token.isIdentifier y) h hr ?_
  intro r x hx hr y hy
  rcases List.mem_cons.mp hy with rfl | hy
  · exact isIdentifier_fresh (hparams x hx)
  · exact hr y hy

end LambdaLift.Renaming
