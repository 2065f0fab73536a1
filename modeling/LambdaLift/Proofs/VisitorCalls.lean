import LambdaLift.Proofs.Walks

/-!
# Calls of a visitor

A visitor can log what it is called with and how each call ends. Logging changes nothing else, so
the log tells what a walk does with a visitor.
-/

namespace LambdaLift

/-- A call of a visitor: what it saw, and how it ended. -/
structure Call (ε α : Type) where
  visit : Visit α
  outcome : Except ε α

/-- A result with another state. -/
def mapState {ε σ τ β : Type} (f : σ → τ) : EStateM.Result ε σ β → EStateM.Result ε τ β
  | .ok b s => .ok b (f s)
  | .error e s => .error e (f s)

namespace Walk

variable {σ τ : Type}

/-- The state of a walk without the log. -/
def unlogged (w : Walk (σ × τ)) : Walk σ := ⟨w.chain, w.events, w.memo.1⟩

theorem unlogged_leave (w : Walk (σ × τ)) : w.leave.unlogged = w.unlogged.leave := by
  obtain ⟨⟨core, current, enclosing, linked⟩, events, memo⟩ := w
  cases enclosing with
  | nil => rfl
  | cons frame frames => rfl

end Walk

namespace Visitor

variable {ε σ α β γ : Type}

/-- A visitor that does the same and logs its calls. -/
def logged (v : Visitor ε σ α) : Visitor ε (σ × List (Call ε α)) α where
  visit x := fun s =>
    match v.visit x s.1 with
    | .ok a memo => .ok a (memo, s.2 ++ [⟨x, .ok a⟩])
    | .error e memo => .error e (memo, s.2 ++ [⟨x, .error e⟩])
  reject := v.reject

section Erasure

/-- A part of a walk does what another one does with a log. -/
def Erases {τ : Type} (x : EStateM ε (Walk (σ × τ)) β) (y : EStateM ε (Walk σ) β) : Prop :=
  ∀ w, y w.unlogged = mapState Walk.unlogged (x w)

theorem Erases.bind {τ : Type} {x : EStateM ε (Walk (σ × τ)) β} {y : EStateM ε (Walk σ) β}
    {f : β → EStateM ε (Walk (σ × τ)) γ} {g : β → EStateM ε (Walk σ) γ} (hx : Erases x y)
    (hf : ∀ b, Erases (f b) (g b)) : Erases (x >>= f) (y >>= g) := by
  intro w
  change EStateM.bind y g w.unlogged = mapState Walk.unlogged (EStateM.bind x f w)
  unfold EStateM.bind
  rw [hx w]
  cases x w with
  | ok b w₁ => exact hf b w₁
  | error e w₁ => rfl

theorem Erases.framed {τ : Type} {x : EStateM ε (Walk (σ × τ)) β} {y : EStateM ε (Walk σ) β}
    (t : Term) (hx : Erases x y) : Erases (framed t x) (framed t y) := by
  unfold Visitor.framed
  cases t.frameKind? with
  | none => exact hx
  | some kind =>
      intro w
      have hx := hx (w.enter kind)
      change inFrame kind y w.unlogged = mapState Walk.unlogged (inFrame kind x w)
      unfold inFrame
      change y (w.unlogged.enter kind) = _ at hx
      rw [hx]
      cases x (w.enter kind) with
      | ok b w₁ => simp only [mapState, Walk.unlogged_leave]
      | error e w₁ => simp only [mapState, Walk.unlogged_leave]

variable (v : Visitor ε σ α)

theorem erases_define (position : BindingPosition) (site : Nat) (t : Term) :
    Erases (v.logged.define position site t) (v.define position site t) := by
  intro w
  cases t with
  | symbol name => rfl
  | _ => rfl

theorem erases_defineParams (site : Nat) (params : List Term) :
    Erases (v.logged.defineParams site params) (v.defineParams site params) := by
  induction params generalizing site with
  | nil => exact fun _ => rfl
  | cons param params ih => exact (v.erases_define .parameter site param).bind fun _ => ih _

theorem erases_bindNames (site : Nat) (t : Term) :
    Erases (v.logged.bindNames site t) (v.bindNames site t) := by
  cases t with
  | lambda body params => exact v.erases_defineParams _ params
  | assign target value => exact v.erases_define _ _ target
  | _ => exact fun _ => rfl

theorem erases_call (site : Nat) (t : Term) (results : List α) :
    Erases (v.logged.call site t results) (v.call site t results) := by
  intro w
  simp only [call, logged, Walk.unlogged]
  cases v.visit ⟨site, t, results, w.chain⟩ w.memo.1 with
  | ok a memo => rfl
  | error e memo => rfl

theorem erases_walk {t : Term}
    (hparts : ∀ site, Erases (v.logged.walkAll site t.children) (v.walkAll site t.children))
    (site : Nat) :
    Erases (v.logged.walk site t) (v.walk site t) := by
  rw [walk_eq, walk_eq]
  exact ((v.erases_bindNames site t).bind fun _ => (hparts _).bind fun _ =>
    v.erases_call site t _).framed t

/-- Logging changes nothing else. -/
theorem erases_walkAll (ts : List Term) :
    ∀ site, Erases (v.logged.walkAll site ts) (v.walkAll site ts) := by
  induction ts using Term.forestInduction with
  | nil => exact fun _ _ => rfl
  | cons t ts ihparts ihrest =>
      intro site
      rw [walkAll, walkAll]
      exact (v.erases_walk ihparts site).bind fun _ => (ihrest _).bind fun _ _ => rfl

end Erasure

/-- The calls of a visitor in a walk. -/
def calls (v : Visitor ε σ α) (site : Nat) (t : Term) (w : Walk σ) : List (Call ε α) :=
  match v.logged.walk site t ⟨w.chain, w.events, (w.memo, [])⟩ with
  | .ok _ w' => w'.memo.2
  | .error _ w' => w'.memo.2

end Visitor

end LambdaLift
