import LambdaLift.Proofs.LiftedFunctions

/-!
# Runs of lifting

Terms are lifted into one unit one after another, each under names of its own. A term that cannot be
lifted leaves behind the functions that were lifted from it before the error. Whatever the terms
are, each function has its number in its name, no number is left out or taken twice, and no function
is changed afterwards.
-/

namespace LambdaLift

open Target

/-- The text of a body that names nothing but the parameters `params` and the functions with numbers
below `index`. -/
inductive Target.BodyText (style : Style) (params : List String) (index : Nat) : String → Prop
  | param {p} (hp : p ∈ params) : BodyText style params index p
  | digits (value : Numeral) : BodyText style params index value.digits
  | function {j} (hj : j < index) : BodyText style params index (style.functionName j)
  | call {callee args} (hcallee : BodyText style params index callee)
      (hargs : ∀ arg ∈ args, BodyText style params index arg) :
      BodyText style params index (callee ++ "(" ++ ", ".intercalate args ++ ")")

/-- Under the number `index` a unit declares and defines the function `f`, which has this number in
its name and calls functions with smaller numbers only. -/
structure Target.CompilationUnit.Entry (style : Style) (unit : CompilationUnit) (index : Nat)
    (f : Function) : Prop where
  name : f.name = style.functionName index
  declaration : unit.declarations[index]? = some (style.anyType ++ " " ++ f.name ++ "(" ++
    ", ".intercalate (f.params.map fun p => style.anyType ++ " " ++ p) ++ ");")
  definition : unit.definitions[index]? = some (style.anyType ++ " " ++ f.name ++ "(" ++
    ", ".intercalate (f.params.map fun p => style.anyType ++ " " ++ p) ++ r") {" ++
    "\n\treturn " ++ f.body.text ++ ";\n" ++ r"}")
  body : BodyText style f.params index f.body.text

namespace Target.Expr

theorem textArgs_eq_intercalate (es : List Expr) :
    textArgs es = ", ".intercalate (es.map text) := by
  cases es with
  | nil => rfl
  | cons e es =>
      rw [textArgs, List.map_cons]
      induction es generalizing e with
      | nil => simp [textMoreArgs]
      | cons d es ih =>
          rw [textMoreArgs, List.map_cons, String.intercalate_cons_cons, ← ih]
          simp only [String.append_assoc]

mutual

/-- An expression is written with its names, its integers and the signs of calls. -/
theorem bodyText_text {style : Style} {params : List String} {index : Nat} :
    ∀ e : Expr, (∀ x ∈ e.names, x ∈ params ∨ ∃ j < index, x = style.functionName j) →
      BodyText style params index e.text
  | name x, hnames => by
      rcases hnames x (List.mem_singleton_self x) with hx | ⟨j, hj, rfl⟩
      · exact .param hx
      · exact .function hj
  | literal value, _ => .digits value
  | call callee args, hnames => by
      have hcallee := bodyText_text callee fun x hx => hnames x (List.mem_append_left _ hx)
      have hargs := bodyText_textAll args fun x hx => hnames x (List.mem_append_right _ hx)
      rw [text, textArgs_eq_intercalate]
      exact .call hcallee hargs

theorem bodyText_textAll {style : Style} {params : List String} {index : Nat} :
    ∀ es : List Expr, (∀ x ∈ namesAll es, x ∈ params ∨ ∃ j < index, x = style.functionName j) →
      ∀ arg ∈ es.map text, BodyText style params index arg
  | [], _ => fun _ harg => by cases harg
  | e :: es, hnames => by
      have he := bodyText_text e fun x hx => hnames x (List.mem_append_left _ hx)
      have hes := bodyText_textAll es fun x hx => hnames x (List.mem_append_right _ hx)
      exact List.forall_mem_cons.mpr ⟨he, hes⟩

end

end Target.Expr

/-- From `s` to `s'`, self-contained functions were added and nothing else in the unit was
changed. -/
def Lifting.Grows (style : Style) (s s' : Lifting) : Prop :=
  ∃ fs, s' = s.pushAll style fs ∧ SelfContainedFrom style s.unit.size fs

namespace Lifting.Grows

variable {style : Style} {s s₁ s' : Lifting}

theorem refl : Grows style s s := ⟨[], rfl, .nil⟩

theorem trans (h : Grows style s s₁) (h' : Grows style s₁ s') : Grows style s s' := by
  obtain ⟨fs, rfl, hfs⟩ := h
  obtain ⟨gs, rfl, hgs⟩ := h'
  rw [size_pushAll] at hgs
  exact ⟨fs ++ gs, (pushAll_append style fs gs s).symm, hfs.append hgs⟩

end Lifting.Grows

namespace Term

theorem grows_of_lower {style : Style} {r : Renaming} {s s' : Lifting} {t : Term} {e : Expr}
    (h : t.lower style r s = .ok e s') : Lifting.Grows style s s' := by
  obtain ⟨fs, hfs, rfl⟩ := lower_lifts t h
  exact ⟨fs, rfl, hfs.selfContainedFrom⟩

mutual

/-- A term that cannot be lifted adds self-contained functions too. -/
theorem grows_of_lower_error {style : Style} {r : Renaming} {s s' : Lifting} {error : LowerError} :
    ∀ t : Term, t.lower style r s = .error error s' → Lifting.Grows style s s'
  | symbol x, h => by
      obtain ⟨_, _, rfl⟩ := lower_symbol_eq_error h
      exact .refl
  | integer value, h => by
      rw [lower] at h
      cases h
  | lambda body params, h => by
      rcases lower_lambda_eq_error h with ⟨_, rfl⟩ | ⟨names, inner, _, hbody⟩
      · exact .refl
      · exact grows_of_lower_error body hbody
  | apply callee args, h => by
      rcases lower_apply_eq_error h with hcallee | ⟨f, s₁, hcallee, hargs⟩
      · exact grows_of_lower_error callee hcallee
      · exact (grows_of_lower hcallee).trans (grows_of_lowerAll_error args hargs)
  | module _ _, h => by
      rw [lower] at h
      cases h
      exact .refl
  | block _, h => by
      rw [lower] at h
      cases h
      exact .refl
  | assign _ _, h => by
      rw [lower] at h
      cases h
      exact .refl

/-- Terms of which one cannot be lifted add self-contained functions too. -/
theorem grows_of_lowerAll_error {style : Style} {r : Renaming} {s s' : Lifting}
    {error : LowerError} :
    ∀ ts : List Term, lowerAll style r ts s = .error error s' → Lifting.Grows style s s'
  | [], h => by
      rw [lowerAll] at h
      cases h
  | t :: ts, h => by
      rcases lowerAll_cons_eq_error h with hhead | ⟨e, s₁, hhead, htail⟩
      · exact grows_of_lower_error t hhead
      · exact (grows_of_lower hhead).trans (grows_of_lowerAll_error ts htail)

end

end Term

namespace Lifting

/-- A term to be lifted and the names that it sees. -/
structure Call where
  term : Term
  names : Renaming

/-- The state after a call, whether or not the call succeeds. -/
def after (style : Style) (s : Lifting) (call : Call) : Lifting :=
  match call.term.lower style call.names s with
  | .ok _ s' => s'
  | .error _ s' => s'

/-- The state after some calls that start with an empty unit. -/
def run (style : Style) (name : String) (events : List Event) (calls : List Call) : Lifting :=
  calls.foldl (after style) ⟨.empty name, events⟩

/-- The unit consists of the texts of the functions `fs`, which are self-contained. -/
structure Holds (style : Style) (s : Lifting) (fs : List Function) : Prop where
  functions : s.unit.functions = fs.map (Function.text style)
  selfContained : SelfContainedFrom style 0 fs

theorem grows_after (style : Style) (s : Lifting) (call : Call) :
    Grows style s (s.after style call) := by
  unfold after
  cases hlower : call.term.lower style call.names s with
  | ok e s' => exact Term.grows_of_lower hlower
  | error e s' => exact Term.grows_of_lower_error call.term hlower

/-- A run only adds functions. -/
theorem grows_foldl_after (style : Style) (s : Lifting) (calls : List Call) :
    Grows style s (calls.foldl (after style) s) := by
  induction calls generalizing s with
  | nil => exact .refl
  | cons call calls ih => exact (grows_after style s call).trans (ih _)

namespace Holds

variable {style : Style} {s : Lifting} {fs : List Function}

theorem size_eq (h : s.Holds style fs) : s.unit.size = fs.length := by
  rw [CompilationUnit.size, h.functions, List.length_map]

theorem declarations_eq (h : s.Holds style fs) :
    s.unit.declarations = fs.map (Function.declaration style) := by
  simp [CompilationUnit.declarations, h.functions, Function.text]

theorem definitions_eq (h : s.Holds style fs) :
    s.unit.definitions = fs.map (Function.definition style) := by
  simp [CompilationUnit.definitions, h.functions, Function.text]

theorem pushAll (h : s.Holds style fs) {gs : List Function}
    (hgs : SelfContainedFrom style s.unit.size gs) :
    (s.pushAll style gs).Holds style (fs ++ gs) := by
  refine ⟨?_, h.selfContained.append ?_⟩
  · rw [functions_pushAll, h.functions, List.map_append]
  · rwa [Nat.zero_add, ← h.size_eq]

theorem entry (h : s.Holds style fs) {i : Nat} {f : Function} (hf : fs[i]? = some f) :
    s.unit.Entry style i f := by
  have hself : f.SelfContained style i := by simpa using h.selfContained i f hf
  refine ⟨hself.name, ?_, ?_, Expr.bodyText_text f.body hself.mem_names⟩
  · rw [h.declarations_eq, List.getElem?_map, hf]
    simp [Function.declaration, Function.signature, String.append_assoc]
  · rw [h.definitions_eq, List.getElem?_map, hf]
    simp [Function.definition, Function.signature, String.append_assoc]

/-- What is added stands behind the functions that are there. -/
theorem grows (h : s.Holds style fs) {s' : Lifting} (hgrows : Grows style s s') :
    ∃ gs, s'.Holds style (fs ++ gs) := by
  obtain ⟨gs, rfl, hgs⟩ := hgrows
  exact ⟨gs, h.pushAll hgs⟩

end Holds

/-- However terms are lifted into one unit, failures included, the unit has a declaration and a
definition for each function, with the number of the function in its name, and these names are
distinct. What was added once stays as it is. A term that is lifted adds one function for each of
its lambdas in postorder. -/
theorem run_numbered (style : Style) (name : String) (events : List Event) (calls : List Call) :
    let s := run style name events calls
    s.unit.declarations.length = s.unit.definitions.length ∧
    (∀ more, s.unit.declarations <+: (run style name events (calls ++ more)).unit.declarations ∧
      s.unit.definitions <+: (run style name events (calls ++ more)).unit.definitions) ∧
    ∃ fs : List Function, s.unit.definitions.length = fs.length ∧ (fs.map Function.name).Nodup ∧
      (∀ (i : Nat) (f : Function), fs[i]? = some f → s.unit.Entry style i f) ∧
      ∀ (call : Call) (e : Expr) (s' : Lifting), call.term.lower style call.names s = .ok e s' →
        ∃ gs : List Function,
          s'.unit.declarations = s.unit.declarations ++ gs.map (Function.declaration style) ∧
          s'.unit.definitions = s.unit.definitions ++ gs.map (Function.definition style) ∧
          (∀ (i : Nat) (f : Function), (fs ++ gs)[i]? = some f → s'.unit.Entry style i f) ∧
          List.Forall₂ (LiftedFrom style (fs ++ gs)) gs (Term.lambdasAll [call.term]) := by
  intro s
  have hempty : Holds style ⟨.empty name, events⟩ [] := ⟨rfl, .nil⟩
  obtain ⟨fs, hfs⟩ : ∃ fs, s.Holds style fs := hempty.grows (grows_foldl_after style _ calls)
  refine ⟨?_, ?_, fs, ?_, hfs.selfContained.nodup_names, fun i f => hfs.entry, ?_⟩
  · rw [hfs.declarations_eq, hfs.definitions_eq, List.length_map, List.length_map]
  · intro more
    obtain ⟨gs, hgs⟩ := hfs.grows (grows_foldl_after style s more)
    have hrun : run style name events (calls ++ more) = more.foldl (after style) s :=
      List.foldl_append
    rw [hrun, hgs.declarations_eq, hgs.definitions_eq, hfs.declarations_eq, hfs.definitions_eq,
      List.map_append, List.map_append]
    exact ⟨List.prefix_append _ _, List.prefix_append _ _⟩
  · rw [hfs.definitions_eq, List.length_map]
  · intro call e s' hlower
    obtain ⟨gs, hlifts, rfl⟩ := Term.lower_lifts call.term hlower
    have hgs := hfs.pushAll hlifts.selfContainedFrom
    refine ⟨gs, ?_, ?_, fun i f => hgs.entry, hlifts.liftedFrom ?_⟩
    · rw [hgs.declarations_eq, hfs.declarations_eq, List.map_append]
    · rw [hgs.definitions_eq, hfs.definitions_eq, List.map_append]
    · intro k f hf
      rw [hfs.size_eq, List.getElem?_append_right (Nat.le_add_right _ _), Nat.add_sub_cancel_left]
      exact hf

/-- In `((y) => y free)` a lambda is lifted before the symbol `free` is refused. After two such
calls the next lambda gets the number two. -/
theorem run_numbered_after_failures :
    let failing : Call := ⟨.apply (.lambda (.symbol "y") [.symbol "y"]) [.symbol "free"], .empty⟩
    let identity : Call := ⟨.lambda (.symbol "x") [.symbol "x"], .empty⟩
    let s := run {} "m" [] [failing, failing]
    (∃ error s', failing.term.lower {} failing.names s = .error error s') ∧
      ∃ e s' f, identity.term.lower {} identity.names s = .ok e s' ∧ s'.unit.size = 3 ∧
        s'.unit.Entry {} 2 f := by
  intro failing identity s
  obtain ⟨_, _, fs, hsize, _, _, hcalls⟩ := run_numbered {} "m" [] [failing, failing]
  obtain ⟨e, s', hlower⟩ : ∃ e s', identity.term.lower {} identity.names s = .ok e s' := ⟨_, _, rfl⟩
  obtain ⟨gs, hdeclarations, _, hentries, hlambdas⟩ := hcalls identity e s' hlower
  have hfs : fs.length = 2 := hsize.symm.trans rfl
  have hgs : gs.length = 1 := hlambdas.length_eq.trans rfl
  have hget : (fs ++ gs)[2]? = some gs[0] := by
    rw [List.getElem?_append_right (by omega), hfs]
    exact List.getElem?_eq_getElem _
  refine ⟨⟨_, _, rfl⟩, e, s', gs[0], hlower, ?_, hentries 2 _ hget⟩
  have hlength : s'.unit.declarations.length = s.unit.declarations.length + gs.length := by
    rw [hdeclarations, List.length_append, List.length_map]
  rw [hgs] at hlength
  exact (List.length_map _).symm.trans hlength

end Lifting

end LambdaLift
