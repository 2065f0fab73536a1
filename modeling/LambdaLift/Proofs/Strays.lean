import LambdaLift.Proofs.BoundNames
import LambdaLift.Proofs.LexicalScope
import LambdaLift.Proofs.LiftedFunctions

/-!
# Strays

A lifted function sees its own parameters and nothing around it. A symbol that is no parameter of
the nearest lambda around it is a stray. Of the terms that are made of symbols, integers, lambdas
and applications, exactly those without strays can be lifted, and for the others lifting fails at
the first stray.
-/

namespace LambdaLift

open Target

namespace Term

/-- A term that is no module, block or assignment, and of which all parameters are symbols. -/
def Plain (t : Term) : Prop := t.kind ∉ [.module, .block, .assign] ∧ t.BindsSymbols

@[simp] theorem plain_symbol (name : String) : (symbol name).Plain := by
  simp [Plain, kind, BindsSymbols]

@[simp] theorem plain_integer (value : Numeral) : (integer value).Plain := by
  simp [Plain, kind, BindsSymbols]

@[simp] theorem plain_apply (callee : Term) (args : List Term) : (apply callee args).Plain := by
  simp [Plain, kind, BindsSymbols]

@[simp] theorem plain_lambda_iff (body : Term) (params : List Term) :
    (lambda body params).Plain ↔ ∀ param ∈ params, ∃ name, param = symbol name := by
  simp [Plain, kind, BindsSymbols]

@[simp] theorem not_plain_module (name : String) (body : List Term) :
    ¬ (module name body).Plain := by
  simp [Plain, kind]

@[simp] theorem not_plain_block (body : List Term) : ¬ (block body).Plain := by
  simp [Plain, kind]

@[simp] theorem not_plain_assign (target value : Term) : ¬ (assign target value).Plain := by
  simp [Plain, kind]

mutual

/-- The names of the strays in a term, in order, if `params` are the parameters of the nearest
lambda around the term. Only symbols, lambdas and applications have any. -/
def strays (params : List Term) : Term → List String
  | symbol name => if symbol name ∈ params then [] else [name]
  | lambda body inner => strays inner body
  | apply callee args => strays params callee ++ straysAll params args
  | integer _ => []
  | module _ _ => []
  | block _ => []
  | assign _ _ => []

/-- The names of the strays in a list of terms. -/
def straysAll (params : List Term) : List Term → List String
  | [] => []
  | t :: ts => strays params t ++ straysAll params ts

end

theorem straysAll_cons (params : List Term) (t : Term) (ts : List Term) :
    straysAll params (t :: ts) = t.strays params ++ straysAll params ts := by
  rw [straysAll]

/-- Parameters are no strays. -/
theorem straysAll_symbols {params : List Term} {xs : List String}
    (hxs : ∀ x ∈ xs, symbol x ∈ params) : straysAll params (xs.map symbol) = [] := by
  induction xs with
  | nil => rfl
  | cons x xs ih =>
      obtain ⟨hx, hxs⟩ := List.forall_mem_cons.mp hxs
      rw [List.map_cons, straysAll_cons, strays, if_pos hx, ih hxs]
      rfl

theorem exists_symbols {params : List Term}
    (hparams : ∀ param ∈ params, ∃ name, param = symbol name) :
    ∃ names : List String, params = names.map symbol := by
  induction params with
  | nil => exact ⟨[], rfl⟩
  | cons param params ih =>
      obtain ⟨⟨name, rfl⟩, hrest⟩ := List.forall_mem_cons.mp hparams
      obtain ⟨names, rfl⟩ := ih hrest
      exact ⟨name :: names, rfl⟩

/-- The parts of a lambda have no strays beside those in its body. -/
theorem straysAll_lambda (body : Term) {params : List Term}
    (hparams : ∀ param ∈ params, ∃ name, param = symbol name) :
    straysAll params (body :: params) = body.strays params := by
  obtain ⟨names, rfl⟩ := exists_symbols hparams
  have hown : straysAll (names.map symbol) (names.map symbol) = [] :=
    straysAll_symbols fun _ hname => List.mem_map_of_mem hname
  rw [straysAll_cons, hown, List.append_nil]

end Term

/-- The names that have a meaning are those of the parameters. -/
def Renaming.Sees (r : Renaming) (params : List Term) : Prop :=
  ∀ x, (r.find? x).isSome ↔ .symbol x ∈ params

theorem Renaming.sees_empty : empty.Sees [] := fun _ => by simp [find?, empty]

theorem Renaming.sees_bindParams {params : List Term} {names : List String} {inner : Renaming}
    (bound : empty.bindParams params = .ok (names, inner)) : inner.Sees params := by
  intro x
  obtain ⟨xs, rfl, _, hsource, _⟩ := bindParams_bound bound
  rw [find?_isSome_iff, hsource]
  simp [empty]

namespace Lifts

variable {style : Style} {r : Renaming} {n : Nat} {ts : List Term} {es : List Expr}
  {fs : List Function}

/-- Terms that are lifted have no strays. -/
theorem straysAll_eq_nil (h : Lifts style r n ts es fs) {params : List Term} (hr : r.Sees params) :
    Term.straysAll params ts = [] := by
  induction h generalizing params with
  | nil => rfl
  | @symbol r n x y ts es fs found _ ih =>
      have hx : .symbol x ∈ params := (hr x).mp (by rw [found]; rfl)
      rw [Term.straysAll_cons, Term.strays, if_pos hx, ih hr]
      rfl
  | integer _ ih =>
      rw [Term.straysAll_cons, Term.strays, ih hr]
      rfl
  | lambda bound _ _ ihinside ihrest =>
      have hbody := ihinside (Renaming.sees_bindParams bound)
      rw [Term.straysAll_cons, Term.straysAll, List.append_nil] at hbody
      rw [Term.straysAll_cons, Term.strays, hbody, ihrest hr]
      rfl
  | apply _ _ ihinside ihrest =>
      have hparts := ihinside hr
      rw [Term.straysAll_cons] at hparts
      rw [Term.straysAll_cons, Term.strays, hparts, ihrest hr]
      rfl

/-- Terms that are lifted are plain, and so are all terms inside. -/
theorem plain (h : Lifts style r n ts es fs) : ∀ t ∈ Term.postorderAll ts, t.Plain := by
  induction h with
  | nil => exact fun _ ht => by cases ht
  | symbol _ _ ih =>
      exact Term.forall_mem_postorderAll_cons.mpr ⟨fun _ ht => (by cases ht), by simp, ih⟩
  | integer _ ih =>
      exact Term.forall_mem_postorderAll_cons.mpr ⟨fun _ ht => (by cases ht), by simp, ih⟩
  | @lambda r n body params names inner e fs ts es gs bound _ _ ihinside ihrest =>
      obtain ⟨xs, rfl, _⟩ := Renaming.bindParams_bound bound
      obtain ⟨hparts, hbody, _⟩ := Term.forall_mem_postorderAll_cons.mp ihinside
      have hparams : ∀ t ∈ Term.postorderAll (xs.map .symbol), t.Plain := by
        rw [Term.postorderAll_symbols]
        simp
      exact Term.forall_mem_postorderAll_cons.mpr
        ⟨Term.forall_mem_postorderAll_cons.mpr ⟨hparts, hbody, hparams⟩, by simp, ihrest⟩
  | apply _ _ ihinside ihrest =>
      exact Term.forall_mem_postorderAll_cons.mpr ⟨ihinside, by simp, ihrest⟩

end Lifts

namespace Term

theorem strays_eq_nil_of_lower {style : Style} {r : Renaming} {s s' : Lifting} {t : Term} {e : Expr}
    {params : List Term} (hr : r.Sees params) (h : t.lower style r s = .ok e s') :
    t.strays params = [] := by
  obtain ⟨fs, hlifts, _⟩ := lower_lifts t h
  simpa [straysAll] using hlifts.straysAll_eq_nil hr

mutual

/-- A plain term that cannot be lifted has a stray, and the error names the first one. -/
theorem head?_strays_of_lower_error {style : Style} {r : Renaming} {s s' : Lifting}
    {error : LowerError} {params : List Term} (hr : r.Sees params) :
    ∀ t : Term, (∀ u ∈ t.postorder, u.Plain) → t.lower style r s = .error error s' →
      ∃ x suggestions, (t.strays params).head? = some x ∧ error = .unresolvedSymbol x suggestions
  | symbol x, _, h => by
      obtain ⟨hfind, ⟨suggestions, rfl⟩, _⟩ := lower_symbol_eq_error h
      have hx : symbol x ∉ params := fun hx => by simpa [hfind] using (hr x).mpr hx
      exact ⟨x, suggestions, by rw [strays, if_neg hx]; rfl, rfl⟩
  | integer value, _, h => by
      rw [lower] at h
      cases h
  | lambda body inner, hplain, h => by
      rw [postorder, List.forall_mem_append, List.forall_mem_append,
        List.forall_mem_singleton] at hplain
      obtain ⟨⟨hbody, _⟩, hlambda⟩ := hplain
      obtain ⟨xs, rfl⟩ := exists_symbols ((plain_lambda_iff body inner).mp hlambda)
      rcases lower_lambda_eq_error h with ⟨hparams, _⟩ | ⟨names, r', bound, herror⟩
      -- Symbols can always be bound, so the error comes from the body.
      · rw [Renaming.bindParams_symbols] at hparams
        cases hparams
      · exact head?_strays_of_lower_error (Renaming.sees_bindParams bound) body hbody herror
  | apply callee args, hplain, h => by
      rw [postorder, List.forall_mem_append, List.forall_mem_append] at hplain
      obtain ⟨⟨hcallee, hargs⟩, _⟩ := hplain
      rcases lower_apply_eq_error h with herror | ⟨f, s₁, hok, herror⟩
      · obtain ⟨x, suggestions, hx, he⟩ := head?_strays_of_lower_error hr callee hcallee herror
        exact ⟨x, suggestions, by rw [strays, List.head?_append, hx]; rfl, he⟩
      · obtain ⟨x, suggestions, hx, he⟩ := head?_straysAll_of_lowerAll_error hr args hargs herror
        exact ⟨x, suggestions, by rw [strays, strays_eq_nil_of_lower hr hok]; exact hx, he⟩
  | module name body, hplain, _ => absurd (hplain _ (mem_postorder_self _)) (by simp)
  | block body, hplain, _ => absurd (hplain _ (mem_postorder_self _)) (by simp)
  | assign target value, hplain, _ => absurd (hplain _ (mem_postorder_self _)) (by simp)

/-- Plain terms of which one cannot be lifted have a stray, and the error names the first one. -/
theorem head?_straysAll_of_lowerAll_error {style : Style} {r : Renaming} {s s' : Lifting}
    {error : LowerError} {params : List Term} (hr : r.Sees params) :
    ∀ ts : List Term, (∀ u ∈ postorderAll ts, u.Plain) → lowerAll style r ts s = .error error s' →
      ∃ x suggestions, (straysAll params ts).head? = some x ∧
        error = .unresolvedSymbol x suggestions
  | [], _, h => by
      rw [lowerAll] at h
      cases h
  | t :: ts, hplain, h => by
      rw [postorderAll, List.forall_mem_append] at hplain
      rcases lowerAll_cons_eq_error h with herror | ⟨e, s₁, hok, herror⟩
      · obtain ⟨x, suggestions, hx, he⟩ := head?_strays_of_lower_error hr t hplain.1 herror
        exact ⟨x, suggestions, by rw [straysAll_cons, List.head?_append, hx]; rfl, he⟩
      · obtain ⟨x, suggestions, hx, he⟩ := head?_straysAll_of_lowerAll_error hr ts hplain.2 herror
        exact ⟨x, suggestions, by rw [straysAll_cons, strays_eq_nil_of_lower hr hok]; exact hx, he⟩

end

end Term

end LambdaLift
