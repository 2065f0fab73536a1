import LambdaLift.Proofs.LexicalScope
import LambdaLift.Proofs.Sequencing

/-!
# Walks, one term at a time

To walk a term is to walk its parts and then to visit the term. A lambda and a block do this in a
frame of their own, and a lambda and an assignment define their names before. A walk that succeeds
has met symbols wherever a name is bound. What a walk that resolves symbols adds to the resolutions
is put together from what its parts add.
-/

namespace LambdaLift

/-- The kind of the frame that a term is walked in, if it has one of its own. -/
def Term.frameKind? : Term → Option FrameKind
  | lambda _ _ => some .lambda
  | block _ => some .block
  | _ => none

namespace Walk

variable {σ : Type}

theorem chain_leave (w : Walk σ) : w.leave.chain = w.chain.pop := by
  obtain ⟨⟨core, current, enclosing, linked⟩, events, memo⟩ := w
  cases enclosing with
  | nil => rfl
  | cons frame frames => rfl

theorem memo_leave (w : Walk σ) : w.leave.memo = w.memo := by
  obtain ⟨⟨core, current, enclosing, linked⟩, events, memo⟩ := w
  cases enclosing with
  | nil => rfl
  | cons frame frames => rfl

end Walk

namespace Visitor

variable {ε σ α : Type} (v : Visitor ε σ α)

/-- Walks the parts of a term and then visits the term. -/
def walkParts (site : Nat) (t : Term) : EStateM ε (Walk σ) α := do
  let results ← v.walkAll (site + 1) t.children
  v.call site t results

theorem walk_module (site : Nat) (name : String) (body : List Term) :
    v.walk site (.module name body) = v.walkParts site (.module name body) := by
  rw [walk, walkParts, Term.children]

theorem walk_symbol (site : Nat) (name : String) :
    v.walk site (.symbol name) = v.call site (.symbol name) [] := by
  rw [walk]

theorem walk_integer (site : Nat) (value : Numeral) :
    v.walk site (.integer value) = v.call site (.integer value) [] := by
  rw [walk]

theorem walk_lambda (site : Nat) (body : Term) (params : List Term) :
    v.walk site (.lambda body params) = inFrame .lambda (do
      v.defineParams (site + 1 + body.size) params
      v.walkParts site (.lambda body params)) := by
  simp only [walk, walkParts, Term.children, walkAll, bind_assoc, pure_bind]

theorem walk_apply (site : Nat) (callee : Term) (args : List Term) :
    v.walk site (.apply callee args) = v.walkParts site (.apply callee args) := by
  simp only [walk, walkParts, Term.children, walkAll, bind_assoc, pure_bind]

theorem walk_block (site : Nat) (body : List Term) :
    v.walk site (.block body) = inFrame .block (v.walkParts site (.block body)) := by
  rw [walk, walkParts, Term.children]

theorem walk_assign (site : Nat) (target value : Term) :
    v.walk site (.assign target value) = (do
      v.define .target (site + 1) target
      v.walkParts site (.assign target value)) := by
  simp only [walk, walkParts, Term.children, walkAll, bind_assoc, pure_bind]

/-- Runs an action in the frame of a term, if the term has one. -/
def framed {β : Type} (t : Term) (action : EStateM ε (Walk σ) β) : EStateM ε (Walk σ) β :=
  match t.frameKind? with
  | some kind => inFrame kind action
  | none => action

/-- Defines the names that a term binds. -/
def bindNames (site : Nat) (t : Term) : EStateM ε (Walk σ) Unit :=
  match t with
  | .lambda body params => v.defineParams (site + 1 + body.size) params
  | .assign target _ => v.define .target (site + 1) target
  | _ => pure ()

/-- To walk a term is to define its names, to walk its parts and to visit it, all in its frame. -/
theorem walk_eq (site : Nat) (t : Term) :
    v.walk site t = framed t (do
      v.bindNames site t
      v.walkParts site t) := by
  cases t with
  | module name body => exact v.walk_module site name body
  | symbol name => exact v.walk_symbol site name
  | integer value => exact v.walk_integer site value
  | lambda body params => exact v.walk_lambda site body params
  | apply callee args => exact v.walk_apply site callee args
  | block body => exact v.walk_block site body
  | assign target value => exact v.walk_assign site target value

/-- Parameters that are symbols are defined one after another. -/
theorem defineParams_eq {params : List Term}
    (hparams : ∀ param ∈ params, ∃ name, param = .symbol name) (site : Nat) (w : Walk σ) :
    v.defineParams site params w =
      .ok () { w with chain := (paramSymbols site params).foldl Chain.define w.chain } := by
  induction params generalizing site w with
  | nil => rfl
  | cons param params ih =>
      obtain ⟨name, rfl⟩ := hparams param List.mem_cons_self
      exact ih (fun p hp => hparams p (List.mem_cons_of_mem _ hp)) _ _

section Inversion

variable {v} {w w' : Walk σ} {site : Nat}

theorem inFrame_eq_ok {β : Type} {kind : FrameKind} {action : EStateM ε (Walk σ) β} {b : β}
    (h : inFrame kind action w = .ok b w') : ∃ w₁, action (w.enter kind) = .ok b w₁ := by
  unfold inFrame at h
  cases haction : action (w.enter kind) with
  | ok b₁ w₁ =>
      rw [haction] at h
      cases h
      exact ⟨w₁, rfl⟩
  | error e w₁ =>
      rw [haction] at h
      cases h

theorem define_eq_ok {position : BindingPosition} {t : Term} {u : Unit}
    (h : v.define position site t w = .ok u w') : ∃ name, t = .symbol name := by
  cases t with
  | symbol name => exact ⟨name, rfl⟩
  | _ => cases h

theorem defineParams_eq_ok {params : List Term} {u : Unit}
    (h : v.defineParams site params w = .ok u w') :
    ∀ param ∈ params, ∃ name, param = .symbol name := by
  induction params generalizing site w with
  | nil => exact fun _ hparam => by cases hparam
  | cons param params ih =>
      obtain ⟨_, _, hhead, hrest⟩ := bind_eq_ok_iff.mp h
      exact List.forall_mem_cons.mpr ⟨define_eq_ok hhead, ih hrest⟩

theorem walkParts_eq_ok {t : Term} {a : α} (h : v.walkParts site t w = .ok a w') :
    ∃ results w₁, v.walkAll (site + 1) t.children w = .ok results w₁ := by
  obtain ⟨results, w₁, hparts, _⟩ := bind_eq_ok_iff.mp h
  exact ⟨results, w₁, hparts⟩

/-- A term that was walked binds symbols, and its parts were walked. -/
theorem walk_eq_ok {t : Term} {a : α} (h : v.walk site t w = .ok a w') :
    t.BindsSymbols ∧ ∃ w₁ results w₂, v.walkAll (site + 1) t.children w₁ = .ok results w₂ := by
  cases t with
  | module name body =>
      rw [walk_module] at h
      exact ⟨trivial, w, walkParts_eq_ok h⟩
  | symbol name => exact ⟨trivial, w, [], w, rfl⟩
  | integer value => exact ⟨trivial, w, [], w, rfl⟩
  | lambda body params =>
      rw [walk_lambda] at h
      obtain ⟨_, hframe⟩ := inFrame_eq_ok h
      obtain ⟨_, w₁, hparams, hparts⟩ := bind_eq_ok_iff.mp hframe
      exact ⟨defineParams_eq_ok hparams, w₁, walkParts_eq_ok hparts⟩
  | apply callee args =>
      rw [walk_apply] at h
      exact ⟨trivial, w, walkParts_eq_ok h⟩
  | block body =>
      rw [walk_block] at h
      obtain ⟨_, hframe⟩ := inFrame_eq_ok h
      exact ⟨trivial, w.enter .block, walkParts_eq_ok hframe⟩
  | assign target value =>
      rw [walk_assign] at h
      obtain ⟨_, w₁, htarget, hparts⟩ := bind_eq_ok_iff.mp h
      exact ⟨define_eq_ok htarget, w₁, walkParts_eq_ok hparts⟩

/-- All terms inside terms that were walked bind symbols. -/
theorem bindsSymbols_of_walkAll (ts : List Term) :
    ∀ {site : Nat} {w w' : Walk σ} {results : List α},
    v.walkAll site ts w = .ok results w' → ∀ t ∈ Term.postorderAll ts, t.BindsSymbols := by
  induction ts using Term.forestInduction with
  | nil => exact fun _ _ ht => by cases ht
  | cons t ts ihparts ihrest =>
      intro site w w' results h
      rw [walkAll] at h
      obtain ⟨_, w₁, hhead, h⟩ := bind_eq_ok_iff.mp h
      obtain ⟨_, w₂, htail, _⟩ := bind_eq_ok_iff.mp h
      obtain ⟨hbinds, _, _, _, hparts⟩ := walk_eq_ok hhead
      exact Term.forall_mem_postorderAll_cons.mpr ⟨ihparts hparts, hbinds, ihrest htail⟩

end Inversion

end Visitor

theorem Symbol.resolve_of_lookup_eq_some {site : Symbol} {chain : Chain} {binding : Binding}
    (h : chain.lookup site.name = some binding) :
    site.resolve chain = .ok ⟨site, binding, binding.isCaptured chain⟩ := by
  simp only [resolve, Chain.get, Chain.orUnresolved, h]
  rfl

theorem Symbol.resolve_of_lookup_eq_none {site : Symbol} {chain : Chain}
    (h : chain.lookup site.name = none) :
    site.resolve chain =
      .error (.unresolved site.name (Suggestion.suggest site.name chain.visibleNames)) := by
  simp only [resolve, Chain.get, Chain.orUnresolved, h]
  rfl

/-- A part of a walk. -/
abbrev Walking (α : Type) : Type := EStateM ResolveError (Walk (List Resolution)) α

/-- From chains with `P`, a part of a walk adds resolutions with `S` and ends with a chain with `Q`,
or it fails with an error with `E`. -/
def Adds {α : Type} (P : Chain → Prop) (S : List Resolution → Prop) (Q : Chain → Prop)
    (E : ResolveError → Prop) (x : Walking α) : Prop :=
  ∀ w, P w.chain → match x w with
    | .ok _ w' => Q w'.chain ∧ ∃ rs, w'.memo = w.memo ++ rs ∧ S rs
    | .error e _ => E e

namespace Adds

variable {α β : Type} {P Q R : Chain → Prop} {S S₁ S₂ : List Resolution → Prop}
  {E E₁ E₂ : ResolveError → Prop}

theorem of_pure {a : α} (h : ∀ chain, P chain → Q chain) (hS : S []) :
    Adds P S Q E (pure a : Walking α) :=
  fun w hw => ⟨h w.chain hw, [], (List.append_nil _).symm, hS⟩

theorem imp {x : Walking α} (hx : Adds P S Q E x) (hQ : ∀ chain, Q chain → R chain) :
    Adds P S R E x := by
  intro w hw
  have hx := hx w hw
  cases hxw : x w with
  | error e w₁ =>
      rw [hxw] at hx
      exact hx
  | ok a w₁ =>
      rw [hxw] at hx
      exact ⟨hQ _ hx.1, hx.2⟩

/-- Two parts one after the other add what the first one adds and then what the second one adds. -/
theorem bind {x : Walking α} {f : α → Walking β} (hx : Adds P S₁ Q E₁ x)
    (hf : ∀ a, Adds Q S₂ R E₂ (f a)) (hS : ∀ rs rs', S₁ rs → S₂ rs' → S (rs ++ rs'))
    (hfirst : ∀ e, E₁ e → E e) (hsecond : ∀ rs e, S₁ rs → E₂ e → E e) : Adds P S R E (x >>= f) := by
  intro w hw
  have hx := hx w hw
  change match EStateM.bind x f w with | .ok _ _ => _ | .error _ _ => _
  unfold EStateM.bind
  cases hxw : x w with
  | error e w₁ =>
      rw [hxw] at hx
      exact hfirst e hx
  | ok a w₁ =>
      rw [hxw] at hx
      obtain ⟨hQ, rs, hmemo, hrs⟩ := hx
      have hfa := hf a w₁ hQ
      simp only
      cases hfw : f a w₁ with
      | error e w₂ =>
          rw [hfw] at hfa
          exact hsecond rs e hrs hfa
      | ok b w₂ =>
          rw [hfw] at hfa
          obtain ⟨hR, rs', hmemo', hrs'⟩ := hfa
          refine ⟨hR, rs ++ rs', ?_, hS rs rs' hrs hrs'⟩
          rw [hmemo', hmemo, List.append_assoc]

/-- In a frame, a part of a walk starts with that frame on the chain; afterwards the frame is
left. -/
theorem inFrame {x : Walking α} {kind : FrameKind}
    (hx : Adds (fun chain => ∃ outer, P outer ∧ chain = outer.push kind) S
      (fun chain => Q chain.pop) E x) :
    Adds P S Q E (Visitor.inFrame kind x) := by
  intro w hw
  have hx := hx (w.enter kind) ⟨w.chain, hw, rfl⟩
  unfold Visitor.inFrame
  cases hxw : x (w.enter kind) with
  | error e w₁ =>
      rw [hxw] at hx
      exact hx
  | ok a w₁ =>
      rw [hxw] at hx
      obtain ⟨hpop, rs, hmemo, hrs⟩ := hx
      exact ⟨by rwa [w₁.chain_leave], rs, by rw [w₁.memo_leave, hmemo]; rfl, hrs⟩

/-- The visitor does nothing at a term that is no symbol. -/
theorem call_other {site : Nat} {t : Term} {results : List Unit} (ht : ∀ name, t ≠ .symbol name)
    (hS : S []) : Adds P S P E (resolver.call site t results) := by
  intro w hw
  have hvisit : resolver.visit ⟨site, t, results, w.chain⟩ w.memo = .ok () w.memo := by
    cases t with
    | symbol name => exact absurd rfl (ht name)
    | _ => rfl
  rw [Visitor.call, hvisit]
  exact ⟨hw, [], (List.append_nil _).symm, hS⟩

/-- The visitor adds what a symbol is resolved to. -/
theorem call_symbol {site : Nat} {name : String} {results : List Unit}
    (h : ∀ chain, P chain → match Symbol.resolve ⟨name, site⟩ chain with
      | .ok r => Q chain ∧ S [r]
      | .error e => E e) :
    Adds P S Q E (resolver.call site (.symbol name) results) := by
  intro w hw
  have hchain := h w.chain hw
  cases hresolve : Symbol.resolve ⟨name, site⟩ w.chain with
  | ok r =>
      rw [hresolve] at hchain
      have hvisit : resolver.visit ⟨site, .symbol name, results, w.chain⟩ w.memo =
          .ok () (w.memo ++ [r]) := by
        simp only [resolver, hresolve]
      rw [Visitor.call, hvisit]
      exact ⟨hchain.1, [r], rfl, hchain.2⟩
  | error e =>
      rw [hresolve] at hchain
      have hvisit : resolver.visit ⟨site, .symbol name, results, w.chain⟩ w.memo =
          .error e w.memo := by
        simp only [resolver, hresolve]
      rw [Visitor.call, hvisit]
      exact hchain

theorem defineParams {params : List Term} (hparams : ∀ param ∈ params, ∃ name, param = .symbol name)
    {first : Nat} (h : ∀ chain, P chain → Q ((paramSymbols first params).foldl Chain.define chain))
    (hS : S []) : Adds P S Q E (resolver.defineParams first params) := by
  intro w hw
  rw [Visitor.defineParams_eq _ hparams]
  exact ⟨h w.chain hw, [], (List.append_nil _).symm, hS⟩

end Adds

end LambdaLift
