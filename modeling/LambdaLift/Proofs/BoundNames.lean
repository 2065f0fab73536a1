import LambdaLift.Proofs.Renaming
import Mathlib.Data.List.Dedup

/-!
# Names bound one after another

Starting from no names at all, any sequence of names can be bound, with repetitions and with names
that look like numbered ones. The emitted names are distinct all the same, and each source name
means the emitted name that it got last.
-/

namespace LambdaLift.Renaming

/-- Binds names one after another and gives the emitted name of each. -/
def bindAll (r : Renaming) : List String → List String × Renaming
  | [] => ([], r)
  | base :: bases =>
    let rest := (r.bind base).bindAll bases
    (r.fresh base :: rest.1, rest.2)

/-- Binding the names of parameters is binding the parameters. -/
theorem bindParams_symbols (r : Renaming) (bases : List String) :
    r.bindParams (bases.map .symbol) = .ok (r.bindAll bases) := by
  induction bases generalizing r with
  | nil => rfl
  | cons base bases ih =>
      rw [List.map_cons, bindParams, ih]
      rfl

/-- The emitted names stand beside the bound ones, the last one first. -/
theorem bindAll_bound (r : Renaming) (bases : List String) :
    (r.bindAll bases).1.length = bases.length ∧
      (r.bindAll bases).2.bound.map Renamed.source = bases.reverse ++ r.bound.map Renamed.source ∧
      (r.bindAll bases).2.emitted = (r.bindAll bases).1.reverse ++ r.emitted := by
  obtain ⟨xs, hxs, hbound⟩ := bindParams_bound (bindParams_symbols r bases)
  have hinjective : Function.Injective Term.symbol := fun _ _ h => Term.symbol.inj h
  obtain rfl := List.map_injective_iff.mpr hinjective hxs
  exact hbound

theorem size_bindAll (r : Renaming) (bases : List String) :
    (r.bindAll bases).2.size = r.size + bases.length := by
  have hlength := congrArg List.length (bindAll_bound r bases).2.1
  simp only [List.length_map, List.length_append, List.length_reverse] at hlength
  rw [size, size, hlength, Nat.add_comm]

theorem nodup_emitted_bindAll (bases : List String) : (empty.bindAll bases).2.emitted.Nodup :=
  nodup_emitted_bindParams (bindParams_symbols empty bases) List.nodup_nil

/-- The emitted name with a given position is made from the source name with that position. -/
theorem bindAll_eq_or_numbered {r : Renaming} {bases : List String} {i : Nat} {base name : String}
    (hbase : bases[i]? = some base) (hname : (r.bindAll bases).1[i]? = some name) :
    name = base ∨ ∃ n, name = numbered base n := by
  induction bases generalizing r i with
  | nil => cases hbase
  | cons b bases ih =>
      cases i with
      | zero =>
          cases hbase
          cases hname
          exact r.fresh_eq_or_numbered base
      | succ i => exact ih hbase hname

/-- A name that is not bound again keeps its meaning. -/
theorem find?_bindAll_of_notMem {r : Renaming} {bases : List String} {base : String}
    (hbase : base ∉ bases) : (r.bindAll bases).2.find? base = r.find? base := by
  induction bases generalizing r with
  | nil => rfl
  | cons b bases ih =>
      obtain ⟨hne, hbases⟩ := not_or.mp (List.mem_cons.not.mp hbase)
      calc ((r.bind b).bindAll bases).2.find? base
          = (r.bind b).find? base := ih hbases
        _ = r.find? base := by rw [find?_bind, if_neg (Ne.symm hne)]

/-- Where a name is bound for the last time, it gets the meaning that it keeps. -/
theorem find?_bindAll_of_last {r : Renaming} {bases : List String} {i : Nat} {base : String}
    (hbase : bases[i]? = some base) (hlast : base ∉ bases.drop (i + 1)) :
    (r.bindAll bases).2.find? base = (r.bindAll bases).1[i]? := by
  induction bases generalizing r i with
  | nil => cases hbase
  | cons b bases ih =>
      cases i with
      | zero =>
          cases hbase
          calc ((r.bind base).bindAll bases).2.find? base
              = (r.bind base).find? base := find?_bindAll_of_notMem hlast
            _ = some (r.fresh base) := by rw [find?_bind, if_pos rfl]
      | succ i => exact ih hbase hlast

/-- If the emitted names are distinct, then names with the same meaning are equal. -/
theorem find?_injective {r : Renaming} (h : r.emitted.Nodup) {base base' name : String}
    (hbase : r.find? base = some name) (hbase' : r.find? base' = some name) : base = base' := by
  obtain ⟨b, hb, rfl⟩ := Option.map_eq_some_iff.mp hbase
  obtain ⟨b', hb', hemitted⟩ := Option.map_eq_some_iff.mp hbase'
  obtain rfl :=
    List.inj_on_of_nodup_map h (List.mem_of_find?_eq_some hb') (List.mem_of_find?_eq_some hb)
    hemitted
  have hsource : b'.source = base := by simpa using List.find?_some hb
  have hsource' : b'.source = base' := by simpa using List.find?_some hb'
  exact hsource.symm.trans hsource'

/-- Whatever names are bound one after another, the emitted names are distinct and there are as many
of them. Each is made from its source name, possibly with a number behind it. A source name has the
meaning that it got last and has none only if it was never bound, and no two source names have the
same meaning. -/
theorem bindAll_distinct (bases : List String) :
    let names := (empty.bindAll bases).1
    let r := (empty.bindAll bases).2
    names.length = bases.length ∧ names.Nodup ∧
    r.size = bases.length ∧ r.emitted.dedup.length = bases.length ∧
    (∀ (i : Nat) (base name : String), bases[i]? = some base → names[i]? = some name →
      name = base ∨ ∃ n, name = numbered base n) ∧
    (∀ (i : Nat) (base name : String), bases[i]? = some base → base ∉ bases.drop (i + 1) →
      names[i]? = some name → r.get base = .ok name) ∧
    (∀ base, (∃ e, r.get base = .error e) ↔ base ∉ bases) ∧
    (∀ base base' name, r.get base = .ok name → r.get base' = .ok name → base = base') := by
  intro names r
  obtain ⟨hlength, hsources, hemitted⟩ := bindAll_bound empty bases
  have hnodup : r.emitted.Nodup := nodup_emitted_bindAll bases
  have hsize : r.size = bases.length := (size_bindAll empty bases).trans (Nat.zero_add _)
  refine ⟨hlength, ?_, hsize, ?_, fun i base name => bindAll_eq_or_numbered, ?_, ?_, ?_⟩
  · have hreverse : r.emitted = names.reverse := hemitted.trans (List.append_nil _)
    rw [hreverse] at hnodup
    exact List.nodup_reverse.mp hnodup
  · rw [hnodup.dedup, ← hsize]
    exact List.length_map _
  · intro i base name hbase hlast hname
    exact get_eq_ok_iff.mpr ((find?_bindAll_of_last hbase hlast).trans hname)
  · intro base
    have hfound : (r.find? base).isSome ↔ base ∈ bases := by
      rw [find?_isSome_iff, hsources]
      simp [empty]
    simp [get_eq_error_iff, ← hfound]
  · intro base base' name hbase hbase'
    exact find?_injective hnodup (get_eq_ok_iff.mp hbase) (get_eq_ok_iff.mp hbase')

/-- A third `x` takes `x2`, and a source name that looks like a numbered one gets a number of its
own. -/
theorem bindAll_distinct_taken :
    let r := (empty.bindAll ["x", "x", "x", "x1"]).2
    (empty.bindAll ["x", "x", "x", "x1"]).1 = ["x", "x1", "x2", "x13"] ∧
      r.get "x" = .ok "x2" ∧ r.get "x1" = .ok "x13" ∧ (∃ e, r.get "x2" = .error e) := by
  have hnames : (empty.bindAll ["x", "x", "x", "x1"]).1 = ["x", "x1", "x2", "x13"] := by
    decide +kernel
  obtain ⟨_, _, _, _, _, hlast, hunbound, _⟩ := bindAll_distinct ["x", "x", "x", "x1"]
  rw [hnames] at hlast
  exact ⟨hnames, hlast 2 "x" "x2" rfl (by decide) rfl, hlast 3 "x1" "x13" rfl (by decide) rfl,
    (hunbound "x2").mpr (by decide)⟩

end LambdaLift.Renaming
