import LambdaLift.Proofs.Renaming
import LambdaLift.Proofs.Sequencing
import LambdaLift.Proofs.Spelling
import LambdaLift.Proofs.Subterms
import Mathlib.Data.List.Forall2

/-!
# The functions that lifting adds

Lifting works on a unit of texts. Here the functions behind the texts are made visible: `Lifts`
relates terms to their C expressions and to the functions that they add, and a successful run of
`Term.lower` adds the texts of exactly those functions, each after those lifted from its own body.
-/

namespace LambdaLift

open Target

/-- The two texts of a function. -/
def Target.Function.text (style : Style) (f : Function) : FunctionText :=
  ⟨f.declaration style, f.definition style⟩

namespace Lifting

/-- Adds functions one after another. -/
def pushAll (style : Style) (fs : List Function) (s : Lifting) : Lifting :=
  fs.foldl (fun s f => s.push style f) s

@[simp] theorem pushAll_nil (style : Style) (s : Lifting) : s.pushAll style [] = s := rfl

theorem pushAll_append (style : Style) (fs gs : List Function) (s : Lifting) :
    s.pushAll style (fs ++ gs) = (s.pushAll style fs).pushAll style gs :=
  List.foldl_append

theorem unit_pushAll (style : Style) (fs : List Function) (s : Lifting) :
    (s.pushAll style fs).unit =
      ⟨s.unit.name, s.unit.functions ++ fs.map (Function.text style)⟩ := by
  induction fs generalizing s with
  | nil => simp
  | cons f fs ih =>
      change ((s.push style f).pushAll style fs).unit = _
      rw [ih]
      simp [push, CompilationUnit.push, Function.text]

theorem functions_pushAll (style : Style) (fs : List Function) (s : Lifting) :
    (s.pushAll style fs).unit.functions = s.unit.functions ++ fs.map (Function.text style) := by
  rw [unit_pushAll]

@[simp] theorem size_pushAll (style : Style) (fs : List Function) (s : Lifting) :
    (s.pushAll style fs).unit.size = s.unit.size + fs.length := by
  simp [CompilationUnit.size, functions_pushAll]

theorem ofExcept_eq_ok_iff {α : Type} {x : Except LowerError α} {a : α} {s s' : Lifting} :
    ofExcept x s = .ok a s' ↔ x = .ok a ∧ s = s' := by
  cases x with
  | ok b =>
      change EStateM.Result.ok b s = .ok a s' ↔ _
      simp
  | error e =>
      change EStateM.Result.error e s = .ok a s' ↔ _
      simp

theorem ofExcept_eq_error_iff {α : Type} {x : Except LowerError α} {e : LowerError}
    {s s' : Lifting} :
    ofExcept x s = .error e s' ↔ x = .error e ∧ s = s' := by
  cases x with
  | ok b =>
      change EStateM.Result.ok b s = .error e s' ↔ _
      simp
  | error e₁ =>
      change EStateM.Result.error e₁ s = .error e s' ↔ _
      simp

end Lifting

/-- `Lifts style r n ts es fs`: where symbols mean what `r` says and `n` functions exist already,
the terms `ts` become the C expressions `es` and add the functions `fs`. -/
inductive Lifts (style : Style) :
    Renaming → Nat → List Term → List Expr → List Function → Prop
  | nil {r n} : Lifts style r n [] [] []
  | symbol {r n x y ts es fs} (found : r.find? x = some y) (rest : Lifts style r n ts es fs) :
      Lifts style r n (.symbol x :: ts) (.name y :: es) fs
  | integer {r n value ts es fs} (rest : Lifts style r n ts es fs) :
      Lifts style r n (.integer value :: ts) (.literal value :: es) fs
  | lambda {r n body params names inner e fs ts es gs}
      (bound : Renaming.empty.bindParams params = .ok (names, inner))
      (inside : Lifts style inner n [body] [e] fs)
      (rest : Lifts style r (n + fs.length + 1) ts es gs) :
      Lifts style r n (.lambda body params :: ts) (.name (style.functionName (n + fs.length)) :: es)
        (fs ++ ⟨style.functionName (n + fs.length), names, e⟩ :: gs)
  | apply {r n callee args f as fs ts es gs} (inside :
    Lifts style r n (callee :: args) (f :: as) fs)
      (rest : Lifts style r (n + fs.length) ts es gs) :
      Lifts style r n (.apply callee args :: ts) (.call f as :: es) (fs ++ gs)

/-- Terms that are lifted one after another number their functions on. -/
theorem Lifts.append {style : Style} {r : Renaming} {n : Nat} {ts us : List Term}
    {es ds : List Expr} {fs gs : List Function} (h : Lifts style r n ts es fs)
    (h' : Lifts style r (n + fs.length) us ds gs) :
    Lifts style r n (ts ++ us) (es ++ ds) (fs ++ gs) := by
  induction h with
  | nil => simpa using h'
  | symbol found _ ih => exact .symbol found (ih h')
  | integer _ ih => exact .integer (ih h')
  | @lambda r n body params names inner e fs ts es gs₀ bound inside _ _ ih =>
      have hrest : Lifts style r (n + fs.length + 1) (ts ++ us) (es ++ ds) (gs₀ ++ gs) := by
        apply ih
        simpa [Nat.add_assoc, Nat.add_comm, Nat.add_left_comm] using h'
      simpa using Lifts.lambda bound inside hrest
  | @apply r n callee args f as fs ts es gs₀ inside _ _ ih =>
      have hrest : Lifts style r (n + fs.length) (ts ++ us) (es ++ ds) (gs₀ ++ gs) := by
        apply ih
        simpa [Nat.add_assoc] using h'
      simpa using Lifts.apply inside hrest

namespace Term

section Inversion

variable {style : Style} {r : Renaming} {s s' : Lifting}

theorem lower_symbol_eq_ok {x : String} {e : Expr}
    (h : (symbol x).lower style r s = .ok e s') :
    ∃ y, r.find? x = some y ∧ e = .name y ∧ s' = s := by
  rw [lower, bind_eq_ok_iff] at h
  obtain ⟨y, s₁, hread, hpure⟩ := h
  obtain ⟨hget, rfl⟩ := Lifting.ofExcept_eq_ok_iff.mp hread
  obtain ⟨rfl, rfl⟩ := pure_eq_ok_iff.mp hpure
  exact ⟨y, Renaming.get_eq_ok_iff.mp hget, rfl, rfl⟩

theorem lower_lambda_eq_ok {body : Term} {params : List Term} {e : Expr}
    (h : (lambda body params).lower style r s = .ok e s') :
    ∃ names inner result s₁, Renaming.empty.bindParams params = .ok (names, inner) ∧
      body.lower style inner s = .ok result s₁ ∧ e = .name (style.functionName s₁.unit.size) ∧
      s' = s₁.push style ⟨style.functionName s₁.unit.size, names, result⟩ := by
  rw [lower, bind_eq_ok_iff] at h
  obtain ⟨⟨names, inner⟩, s₀, hbind, h⟩ := h
  obtain ⟨hparams, rfl⟩ := Lifting.ofExcept_eq_ok_iff.mp hbind
  obtain ⟨result, s₁, hbody, h⟩ := bind_eq_ok_iff.mp h
  cases h
  exact ⟨names, inner, result, s₁, hparams, hbody, rfl, rfl⟩

theorem lower_apply_eq_ok {callee : Term} {args : List Term} {e : Expr}
    (h : (apply callee args).lower style r s = .ok e s') :
    ∃ f es s₁, callee.lower style r s = .ok f s₁ ∧ lowerAll style r args s₁ = .ok es s' ∧
      e = .call f es := by
  rw [lower, bind_eq_ok_iff] at h
  obtain ⟨f, s₁, hcallee, h⟩ := h
  obtain ⟨es, s₂, hargs, h⟩ := bind_eq_ok_iff.mp h
  obtain ⟨rfl, rfl⟩ := pure_eq_ok_iff.mp h
  exact ⟨f, es, s₁, hcallee, hargs, rfl⟩

theorem lowerAll_cons_eq_ok {t : Term} {ts : List Term} {es : List Expr}
    (h : lowerAll style r (t :: ts) s = .ok es s') :
    ∃ e es' s₁, t.lower style r s = .ok e s₁ ∧ lowerAll style r ts s₁ = .ok es' s' ∧
      es = e :: es' := by
  rw [lowerAll, bind_eq_ok_iff] at h
  obtain ⟨e, s₁, hhead, h⟩ := h
  obtain ⟨es', s₂, htail, h⟩ := bind_eq_ok_iff.mp h
  obtain ⟨rfl, rfl⟩ := pure_eq_ok_iff.mp h
  exact ⟨e, es', s₁, hhead, htail, rfl⟩

variable {error : LowerError}

theorem lower_symbol_eq_error {x : String} (h : (symbol x).lower style r s = .error error s') :
    r.find? x = none ∧ (∃ suggestions, error = .unresolvedSymbol x suggestions) ∧ s' = s := by
  rw [lower, bind_eq_error_iff] at h
  obtain hread | ⟨_, _, _, hpure⟩ := h
  · obtain ⟨hget, rfl⟩ := Lifting.ofExcept_eq_error_iff.mp hread
    obtain ⟨hfind, rfl⟩ := Renaming.get_eq_error_iff.mp hget
    exact ⟨hfind, ⟨_, rfl⟩, rfl⟩
  · cases hpure

theorem lower_lambda_eq_error {body : Term} {params : List Term}
    (h : (lambda body params).lower style r s = .error error s') :
    (Renaming.empty.bindParams params = .error error ∧ s' = s) ∨
      ∃ names inner, Renaming.empty.bindParams params = .ok (names, inner) ∧
        body.lower style inner s = .error error s' := by
  rw [lower, bind_eq_error_iff] at h
  obtain hbind | ⟨⟨names, inner⟩, s₀, hbind, h⟩ := h
  · obtain ⟨hparams, rfl⟩ := Lifting.ofExcept_eq_error_iff.mp hbind
    exact .inl ⟨hparams, rfl⟩
  · obtain ⟨hparams, rfl⟩ := Lifting.ofExcept_eq_ok_iff.mp hbind
    obtain hbody | ⟨_, _, _, h⟩ := bind_eq_error_iff.mp h
    · exact .inr ⟨names, inner, hparams, hbody⟩
    · cases h

theorem lower_apply_eq_error {callee : Term} {args : List Term}
    (h : (apply callee args).lower style r s = .error error s') :
    callee.lower style r s = .error error s' ∨
      ∃ f s₁, callee.lower style r s = .ok f s₁ ∧ lowerAll style r args s₁ = .error error s' := by
  rw [lower, bind_eq_error_iff] at h
  obtain hcallee | ⟨f, s₁, hcallee, h⟩ := h
  · exact .inl hcallee
  · obtain hargs | ⟨_, _, _, h⟩ := bind_eq_error_iff.mp h
    · exact .inr ⟨f, s₁, hcallee, hargs⟩
    · cases h

theorem lowerAll_cons_eq_error {t : Term} {ts : List Term}
    (h : lowerAll style r (t :: ts) s = .error error s') :
    t.lower style r s = .error error s' ∨
      ∃ e s₁, t.lower style r s = .ok e s₁ ∧ lowerAll style r ts s₁ = .error error s' := by
  rw [lowerAll, bind_eq_error_iff] at h
  obtain hhead | ⟨e, s₁, hhead, h⟩ := h
  · exact .inl hhead
  · obtain htail | ⟨_, _, _, h⟩ := bind_eq_error_iff.mp h
    · exact .inr ⟨e, s₁, hhead, htail⟩
    · cases h

end Inversion

mutual

/-- A term that is lowered adds exactly the functions of `Lifts`. -/
theorem lower_lifts {style : Style} {r : Renaming} {s s' : Lifting} {e : Expr} :
    ∀ t : Term, t.lower style r s = .ok e s' →
      ∃ fs, Lifts style r s.unit.size [t] [e] fs ∧ s' = s.pushAll style fs
  | symbol x, h => by
      obtain ⟨y, hfind, rfl, rfl⟩ := lower_symbol_eq_ok h
      exact ⟨[], .symbol hfind .nil, rfl⟩
  | integer value, h => by
      rw [lower] at h
      obtain ⟨rfl, rfl⟩ := pure_eq_ok_iff.mp h
      exact ⟨[], .integer .nil, rfl⟩
  | lambda body params, h => by
      obtain ⟨names, inner, result, s₁, hparams, hbody, rfl, rfl⟩ := lower_lambda_eq_ok h
      obtain ⟨fs, hfs, rfl⟩ := lower_lifts body hbody
      rw [Lifting.size_pushAll]
      refine ⟨_, .lambda hparams hfs .nil, ?_⟩
      rw [Lifting.pushAll_append]
      rfl
  | apply callee args, h => by
      obtain ⟨f, es, s₁, hcallee, hargs, rfl⟩ := lower_apply_eq_ok h
      obtain ⟨fs, hfs, rfl⟩ := lower_lifts callee hcallee
      obtain ⟨gs, hgs, rfl⟩ := lowerAll_lifts args hargs
      rw [Lifting.size_pushAll] at hgs
      refine ⟨fs ++ gs, ?_, by rw [Lifting.pushAll_append]⟩
      simpa using Lifts.apply (hfs.append hgs) .nil
  | module _ _, h => by rw [lower] at h; cases h
  | block _, h => by rw [lower] at h; cases h
  | assign _ _, h => by rw [lower] at h; cases h

/-- A list of terms that is lowered adds exactly the functions of `Lifts`. -/
theorem lowerAll_lifts {style : Style} {r : Renaming} {s s' : Lifting} {es : List Expr} :
    ∀ ts : List Term, lowerAll style r ts s = .ok es s' →
      ∃ fs, Lifts style r s.unit.size ts es fs ∧ s' = s.pushAll style fs
  | [], h => by
      rw [lowerAll] at h
      obtain ⟨rfl, rfl⟩ := pure_eq_ok_iff.mp h
      exact ⟨[], .nil, rfl⟩
  | t :: ts, h => by
      obtain ⟨e, es', s₁, hhead, htail, rfl⟩ := lowerAll_cons_eq_ok h
      obtain ⟨fs, hfs, rfl⟩ := lower_lifts t hhead
      obtain ⟨gs, hgs, rfl⟩ := lowerAll_lifts ts htail
      rw [Lifting.size_pushAll] at hgs
      exact ⟨fs ++ gs, hfs.append hgs, by rw [Lifting.pushAll_append]⟩

end

theorem lowerAll_cons_of_ok {style : Style} {r : Renaming} {s s₁ s' : Lifting} {t : Term}
    {ts : List Term} {e : Expr} {es : List Expr} (ht : t.lower style r s = .ok e s₁)
    (hts : lowerAll style r ts s₁ = .ok es s') :
    lowerAll style r (t :: ts) s = .ok (e :: es) s' := by
  rw [lowerAll]
  exact bind_eq_ok_iff.mpr ⟨e, s₁, ht, bind_eq_ok_iff.mpr ⟨es, s', hts, rfl⟩⟩

end Term

/-- Terms that `Lifts` relates to expressions and functions are lowered to them. -/
theorem Lifts.lowerAll_eq {style : Style} {r : Renaming} {n : Nat} {ts : List Term} {es : List Expr}
    {fs : List Function} (h : Lifts style r n ts es fs) {s : Lifting} (hs : s.unit.size = n) :
    Term.lowerAll style r ts s = .ok es (s.pushAll style fs) := by
  induction h generalizing s with
  | nil => rfl
  | @symbol r n x y ts es fs found _ ih =>
      have hget : Lifting.ofExcept (r.get x) s = .ok y s :=
        Lifting.ofExcept_eq_ok_iff.mpr ⟨Renaming.get_eq_ok_iff.mpr found, rfl⟩
      have hsymbol : (Term.symbol x).lower style r s = .ok (.name y) s := by
        rw [Term.lower]
        exact bind_eq_ok_iff.mpr ⟨y, s, hget, rfl⟩
      exact Term.lowerAll_cons_of_ok hsymbol (ih hs)
  | @integer r n value ts es fs _ ih =>
      have hinteger : (Term.integer value).lower style r s = .ok (.literal value) s := by
        rw [Term.lower]
        rfl
      exact Term.lowerAll_cons_of_ok hinteger (ih hs)
  | @lambda r n body params names inner e fs ts es gs bound _ _ ihinside ihrest =>
      obtain ⟨_, _, s₁, hbody, hnil, hcons⟩ := Term.lowerAll_cons_eq_ok (ihinside hs)
      obtain ⟨rfl, rfl⟩ := List.cons.inj hcons
      obtain ⟨_, rfl⟩ := pure_eq_ok_iff.mp hnil
      have hsize : (s.pushAll style fs).unit.size = n + fs.length := by
        rw [Lifting.size_pushAll, hs]
      have hlambda : (Term.lambda body params).lower style r s =
          .ok (.name (style.functionName (n + fs.length)))
            ((s.pushAll style fs).push style ⟨style.functionName (n + fs.length), names, e⟩) := by
        rw [Term.lower, ← hsize]
        exact bind_eq_ok_iff.mpr ⟨(names, inner), s, Lifting.ofExcept_eq_ok_iff.mpr ⟨bound, rfl⟩,
          bind_eq_ok_iff.mpr ⟨e, _, hbody, rfl⟩⟩
      rw [Lifting.pushAll_append]
      refine Term.lowerAll_cons_of_ok hlambda (ihrest ?_)
      rw [Lifting.push, CompilationUnit.size_push, hsize]
  | @apply r n callee args f as fs ts es gs _ _ ihinside ihrest =>
      obtain ⟨_, _, s₁, hcallee, hargs, hcons⟩ := Term.lowerAll_cons_eq_ok (ihinside hs)
      obtain ⟨rfl, rfl⟩ := List.cons.inj hcons
      have happly : (Term.apply callee args).lower style r s =
          .ok (.call f as) (s.pushAll style fs) := by
        rw [Term.lower]
        exact bind_eq_ok_iff.mpr ⟨f, s₁, hcallee, bind_eq_ok_iff.mpr ⟨as, _, hargs, rfl⟩⟩
      rw [Lifting.pushAll_append]
      exact Term.lowerAll_cons_of_ok happly (ihrest (by rw [Lifting.size_pushAll, hs]))

/-- Whatever was reported before, a module is lowered to the texts of the functions lifted from its
expressions. -/
theorem Module.lower_eq_ok_iff {style : Style} {m : Module} {events : List Event}
    {unit : CompilationUnit} :
    (∃ events', m.lower style events = .ok unit events') ↔
      ∃ es fs, Lifts style .empty 0 m.body es fs ∧
        unit = ⟨m.name, fs.map (Function.text style)⟩ := by
  unfold Module.lower
  constructor
  · rintro ⟨events', h⟩
    cases hall : Term.lowerAll style .empty m.body ⟨.empty m.name, events⟩ with
    | error e s => rw [hall] at h; cases h
    | ok es s =>
        rw [hall] at h
        cases h
        obtain ⟨fs, hfs, rfl⟩ := Term.lowerAll_lifts m.body hall
        exact ⟨es, fs, hfs, Lifting.unit_pushAll style fs _⟩
  · rintro ⟨es, fs, hfs, rfl⟩
    rw [hfs.lowerAll_eq rfl]
    exact ⟨_, congrArg (EStateM.Result.ok · _) (Lifting.unit_pushAll style fs _)⟩

/-- A module that is lowered becomes the texts of the functions lifted from its expressions. -/
theorem Module.lower_lifts {style : Style} {m : Module} {events events' : List Event}
    {unit : CompilationUnit} (h : m.lower style events = .ok unit events') :
    ∃ es fs, Lifts style .empty 0 m.body es fs ∧ unit.functions = fs.map (Function.text style) := by
  obtain ⟨es, fs, hfs, rfl⟩ := Module.lower_eq_ok_iff.mp ⟨events', h⟩
  exact ⟨es, fs, hfs, rfl⟩

/-- A function with the number `k` uses no names but those of its own parameters, which are
distinct, and those of functions with smaller numbers. -/
structure Target.Function.SelfContained (style : Style) (k : Nat) (f : Function) : Prop where
  name : f.name = style.functionName k
  nodup_params : f.params.Nodup
  mem_names : ∀ x ∈ f.body.names, x ∈ f.params ∨ ∃ j < k, x = style.functionName j

/-- The functions `fs` are self-contained under the numbers from `n` on. -/
def Target.SelfContainedFrom (style : Style) (n : Nat) (fs : List Function) : Prop :=
  ∀ (k : Nat) (f : Function), fs[k]? = some f → f.SelfContained style (n + k)

namespace Target.SelfContainedFrom

variable {style : Style} {n : Nat} {fs gs : List Function}

theorem nil : SelfContainedFrom style n [] := fun _ _ hf => by cases hf

theorem singleton {f : Function} (hf : f.SelfContained style n) :
    SelfContainedFrom style n [f] := by
  intro k g hg
  obtain ⟨hk, rfl⟩ := List.getElem?_eq_some_iff.mp hg
  obtain rfl := Nat.lt_one_iff.mp hk
  exact hf

theorem append (hfs : SelfContainedFrom style n fs)
    (hgs : SelfContainedFrom style (n + fs.length) gs) :
    SelfContainedFrom style n (fs ++ gs) := by
  intro k f hf
  by_cases hk : k < fs.length
  · rw [List.getElem?_append_left hk] at hf
    exact hfs k f hf
  · rw [List.getElem?_append_right (Nat.le_of_not_lt hk)] at hf
    have hnumber : n + k = n + fs.length + (k - fs.length) := by omega
    rw [hnumber]
    exact hgs _ f hf

/-- The names of self-contained functions are distinct. -/
theorem nodup_names (hfs : SelfContainedFrom style n fs) : (fs.map Function.name).Nodup := by
  have hnames : fs.map Function.name = (List.range fs.length).map fun k =>
      style.functionName (n + k) := by
    apply List.ext_getElem?
    intro k
    rw [List.getElem?_map, List.getElem?_map]
    cases hf : fs[k]? with
    | none =>
        have hk : fs.length ≤ k := List.getElem?_eq_none_iff.mp hf
        rw [List.getElem?_eq_none (by simpa using hk)]
        rfl
    | some f =>
        obtain ⟨hk, _⟩ := List.getElem?_eq_some_iff.mp hf
        rw [List.getElem?_range hk, Option.map_some, Option.map_some, (hfs k f hf).name]
  rw [hnames]
  refine List.Nodup.map ?_ List.nodup_range
  intro i j hij
  have hnumbers := style.functionName_injective hij
  omega

end Target.SelfContainedFrom

namespace Lifts

variable {style : Style} {r : Renaming} {n : Nat} {ts : List Term} {es : List Expr}
  {fs : List Function}

/-- The emitted parameters of a lambda are those that its body sees. -/
theorem mem_emitted_iff {params : List Term} {names : List String} {inner : Renaming} {y : String}
    (bound : Renaming.empty.bindParams params = .ok (names, inner)) :
    y ∈ inner.emitted ↔ y ∈ names := by
  obtain ⟨_, _, _, _, hemitted⟩ := Renaming.bindParams_bound bound
  rw [hemitted, List.mem_append, List.mem_reverse]
  exact or_iff_left (fun h => by cases h)

/-- An expression uses the names around it and those of the functions lifted for it. -/
theorem mem_names (h : Lifts style r n ts es fs) {x : String} (hx : x ∈ Expr.namesAll es) :
    x ∈ r.emitted ∨ ∃ i < n + fs.length, x = style.functionName i := by
  induction h with
  | nil => cases hx
  | @symbol r n y z ts es fs found _ ih =>
      rcases List.mem_append.mp hx with hx | hx
      · left
        cases hx with
        | head => exact r.mem_emitted_of_find? found
        | tail _ hx => cases hx
      · exact ih hx
  | integer _ ih => exact ih hx
  | @lambda r n body params names inner e fs ts es gs _ _ _ _ ih =>
      rcases List.mem_append.mp hx with hx | hx
      · exact Or.inr ⟨n + fs.length, by simp, by simpa [Expr.names] using hx⟩
      · exact (ih hx).imp_right fun ⟨i, hi, hxi⟩ => ⟨i, by simp; omega, hxi⟩
  | @apply r n callee args f as fs ts es gs _ _ ihinside ihrest =>
      rcases List.mem_append.mp hx with hx | hx
      · exact (ihinside hx).imp_right fun ⟨i, hi, hxi⟩ => ⟨i, by simp; omega, hxi⟩
      · exact (ihrest hx).imp_right fun ⟨i, hi, hxi⟩ => ⟨i, by simp; omega, hxi⟩

/-- A lambda becomes a function that is self-contained under the next number. -/
theorem selfContained_lambda {params : List Term} {names : List String} {inner : Renaming}
    {body : Term} {e : Expr} (inside : Lifts style inner n [body] [e] fs)
    (bound : Renaming.empty.bindParams params = .ok (names, inner)) :
    Function.SelfContained style (n + fs.length) ⟨style.functionName (n + fs.length), names,
      e⟩ := by
  have hnodup := Renaming.nodup_emitted_bindParams bound List.nodup_nil
  obtain ⟨_, _, _, _, hemitted⟩ := Renaming.bindParams_bound bound
  refine ⟨rfl, ?_, fun x hx => ?_⟩
  · rw [hemitted] at hnodup
    simpa [Renaming.empty, Renaming.emitted] using hnodup
  · have hx : x ∈ Expr.namesAll [e] := by simpa [Expr.namesAll] using hx
    exact (inside.mem_names hx).imp_left (mem_emitted_iff bound).mp

/-- The lifted functions are self-contained under the numbers that follow one another. -/
theorem selfContainedFrom (h : Lifts style r n ts es fs) : SelfContainedFrom style n fs := by
  induction h with
  | nil => exact .nil
  | symbol _ _ ih => exact ih
  | integer _ ih => exact ih
  | lambda bound inside _ ihinside ihrest =>
      have hfunction := SelfContainedFrom.singleton (inside.selfContained_lambda bound)
      exact ihinside.append (hfunction.append ihrest)
  | apply _ _ ihinside ihrest => exact ihinside.append ihrest

/-- Every lifted function is self-contained under its number. -/
theorem selfContained (h : Lifts style r n ts es fs) {k : Nat} {f : Function}
    (hf : fs[k]? = some f) : f.SelfContained style (n + k) :=
  h.selfContainedFrom k f hf

/-- The parameters of lifted functions are identifiers if the symbols of the terms are. -/
theorem isIdentifier_params (h : Lifts style r n ts es fs)
    (hts : ∀ x, .symbol x ∈ Term.postorderAll ts → Token.isIdentifier x) {f : Function}
    (hf : f ∈ fs) {p : String} (hp : p ∈ f.params) : Token.isIdentifier p := by
  induction h with
  | nil => cases hf
  | symbol _ _ ih => exact ih (fun x hx => hts x (Term.mem_postorderAll_of_tail hx)) hf
  | integer _ ih => exact ih (fun x hx => hts x (Term.mem_postorderAll_of_tail hx)) hf
  | @lambda r n body params names inner e fs ts es gs bound _ _ ihinside ihrest =>
      have hlambda : ∀ t ∈ body :: params, ∀ x, .symbol x ∈ t.postorder → Token.isIdentifier x :=
        fun t ht x hx => hts x (Term.mem_postorderAll_of_children (Term.mem_postorderAll ht hx))
      rcases List.mem_append.mp hf with hf | hf
      · refine ihinside (fun x hx => hlambda body (by simp) x ?_) hf
        simpa [Term.postorderAll] using hx
      · rcases List.mem_cons.mp hf with rfl | hf
        · refine Renaming.isIdentifier_emitted_bindParams bound (fun x hx => ?_)
            (fun y hy => by cases hy) p ((mem_emitted_iff bound).mpr hp)
          exact hlambda _ (List.mem_cons_of_mem _ hx) x (Term.mem_postorder_self _)
        · exact ihrest (fun x hx => hts x (Term.mem_postorderAll_of_tail hx)) hf
  | apply _ _ ihinside ihrest =>
      rcases List.mem_append.mp hf with hf | hf
      · exact ihinside (fun x hx => hts x (Term.mem_postorderAll_of_children hx)) hf
      · exact ihrest (fun x hx => hts x (Term.mem_postorderAll_of_tail hx)) hf

/-- If names of functions and symbols are identifiers, then so are all names in lifted functions. -/
theorem nameable (h : Lifts style r n ts es fs) (hstyle : style.WellFormed)
    (hts : ∀ x, .symbol x ∈ Term.postorderAll ts → Token.isIdentifier x) {f : Function}
    (hf : f ∈ fs) : f.Nameable := by
  obtain ⟨k, hk⟩ := List.mem_iff_getElem?.mp hf
  have hself := h.selfContained hk
  have hparams : ∀ p ∈ f.params, Token.isIdentifier p := fun p hp => h.isIdentifier_params hts hf hp
  refine ⟨by rw [hself.name]; exact hstyle.functionName _, hparams, fun x hx => ?_⟩
  rcases hself.mem_names x hx with hx | ⟨j, _, rfl⟩
  · exact hparams x hx
  · exact hstyle.functionName j

end Lifts

/-- The functions `fs` stand in `all` from the number `n` on. -/
def Placed (n : Nat) (fs all : List Function) : Prop :=
  ∀ k f, fs[k]? = some f → all[n + k]? = some f

theorem Placed.left {n : Nat} {fs gs all : List Function} (h : Placed n (fs ++ gs) all) :
    Placed n fs all := by
  intro k f hf
  obtain ⟨hk, _⟩ := List.getElem?_eq_some_iff.mp hf
  exact h k f (by rwa [List.getElem?_append_left hk])

theorem Placed.right {n : Nat} {fs gs all : List Function} (h : Placed n (fs ++ gs) all) :
    Placed (n + fs.length) gs all := by
  intro k f hf
  rw [Nat.add_assoc]
  exact h (fs.length + k) f (by simpa [List.getElem?_append_right] using hf)

theorem Placed.tail {n : Nat} {f : Function} {fs all : List Function} (h : Placed n (f :: fs) all) :
    Placed (n + 1) fs all := (show Placed n ([f] ++ fs) all from h).right

theorem Placed.mem {n : Nat} {fs all : List Function} (h : Placed n fs all) {f : Function}
    (hf : f ∈ fs) : f ∈ all := by
  obtain ⟨k, hk⟩ := List.mem_iff_getElem?.mp hf
  exact List.mem_of_getElem? (h k f hk)

/-- The function `f` of the functions `all` is the lambda `l` with its parameters renamed and its
body lifted. -/
def LiftedFrom (style : Style) (all : List Function) (f : Function) (l : Term) : Prop :=
  ∃ body params inner n gs, l = .lambda body params ∧
    Renaming.empty.bindParams params = .ok (f.params, inner) ∧
    Lifts style inner n [body] [f.body] gs ∧ Placed n gs all

/-- The functions lifted from terms come, one by one, from the lambdas of the terms in postorder. -/
theorem Lifts.liftedFrom {style : Style} {r : Renaming} {n : Nat} {ts : List Term} {es : List Expr}
    {fs all : List Function} (h : Lifts style r n ts es fs) (hplaced : Placed n fs all) :
    List.Forall₂ (LiftedFrom style all) fs (Term.lambdasAll ts) := by
  induction h with
  | nil => exact .nil
  | symbol _ _ ih =>
      rw [Term.lambdasAll_cons]
      exact ih hplaced
  | integer _ ih =>
      rw [Term.lambdasAll_cons]
      exact ih hplaced
  | @lambda r n body params names inner e fs ts es gs bound inside _ ihinside ihrest =>
      have hlambdas : Term.lambdasAll (.lambda body params :: ts) =
          Term.lambdasAll [body] ++ .lambda body params :: Term.lambdasAll ts := by
        obtain ⟨xs, rfl, _⟩ := Renaming.bindParams_bound bound
        simp [Term.lambdasAll_cons, Term.children, Term.lambdasAll_symbols, List.filter_cons,
          Term.isLambda]
      rw [hlambdas]
      exact List.rel_append (ihinside hplaced.left)
        (.cons ⟨body, params, inner, n, fs, rfl, bound, inside, hplaced.left⟩
          (ihrest hplaced.right.tail))
  | apply _ _ ihinside ihrest =>
      rw [Term.lambdasAll_cons, Term.children]
      simpa [Term.isLambda] using List.rel_append (ihinside hplaced.left) (ihrest hplaced.right)

end LambdaLift
