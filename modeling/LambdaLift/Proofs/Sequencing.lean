/-!
# Steps that succeed one after another

A sequence of steps succeeds exactly if each of them does, each on what the one before it gave, and
fails where the first of them does. With this a run is taken apart step by step.
-/

namespace LambdaLift

section EStateM

variable {ε σ α β : Type}

theorem bind_eq_ok_iff {x : EStateM ε σ α} {f : α → EStateM ε σ β} {s s' : σ} {b : β} :
    (x >>= f) s = .ok b s' ↔ ∃ a s₁, x s = .ok a s₁ ∧ f a s₁ = .ok b s' := by
  change EStateM.bind x f s = .ok b s' ↔ _
  unfold EStateM.bind
  cases x s with
  | ok a s₁ =>
      constructor
      · intro h
        exact ⟨a, s₁, rfl, h⟩
      · rintro ⟨_, _, hok, h⟩
        cases hok
        exact h
  | error e s₁ => simp

theorem bind_eq_error_iff {x : EStateM ε σ α} {f : α → EStateM ε σ β} {s s' : σ} {e : ε} :
    (x >>= f) s = .error e s' ↔
      x s = .error e s' ∨ ∃ a s₁, x s = .ok a s₁ ∧ f a s₁ = .error e s' := by
  change EStateM.bind x f s = .error e s' ↔ _
  unfold EStateM.bind
  cases x s with
  | ok a s₁ =>
      constructor
      · intro h
        exact .inr ⟨a, s₁, rfl, h⟩
      · rintro (hx | ⟨_, _, hok, h⟩)
        · cases hx
        · cases hok
          exact h
  | error e₁ s₁ => simp

theorem pure_eq_ok_iff {a b : α} {s s' : σ} :
    (pure a : EStateM ε σ α) s = .ok b s' ↔ a = b ∧ s = s' := by
  change EStateM.Result.ok a s = .ok b s' ↔ _
  simp

theorem exists_eq_ok_of_value [DecidableEq α] {r : EStateM.Result ε σ α} {a : α}
    (h : (match r with | .ok b _ => decide (b = a) | .error _ _ => false) = true) :
    ∃ s, r = .ok a s := by
  cases r with
  | ok b s =>
      obtain rfl := of_decide_eq_true h
      exact ⟨s, rfl⟩
  | error e s => cases h

end EStateM

section StateM

variable {σ α β : Type}

theorem state_bind_eq_iff {x : StateM σ α} {f : α → StateM σ β} {s s' : σ} {b : β} :
    (x >>= f) s = (b, s') ↔ ∃ a s₁, x s = (a, s₁) ∧ f a s₁ = (b, s') := by
  change f (x s).1 (x s).2 = (b, s') ↔ _
  constructor
  · intro h
    exact ⟨(x s).1, (x s).2, rfl, h⟩
  · rintro ⟨a, s₁, hx, h⟩
    rw [hx]
    exact h

end StateM

section Except

variable {ε α β : Type}

theorem except_bind_eq_ok_iff {x : Except ε α} {f : α → Except ε β} {b : β} :
    (x >>= f) = .ok b ↔ ∃ a, x = .ok a ∧ f a = .ok b := by
  change Except.bind x f = .ok b ↔ _
  cases x with
  | ok a => simp [Except.bind]
  | error e => simp [Except.bind]

theorem except_bind_eq_error_iff {x : Except ε α} {f : α → Except ε β} {e : ε} :
    (x >>= f) = .error e ↔ x = .error e ∨ ∃ a, x = .ok a ∧ f a = .error e := by
  change Except.bind x f = .error e ↔ _
  cases x with
  | ok a => simp [Except.bind]
  | error e => simp [Except.bind]

theorem except_map_eq_ok_iff {x : Except ε α} {f : α → β} {b : β} :
    x.map f = .ok b ↔ ∃ a, x = .ok a ∧ f a = b := by
  cases x with
  | ok a => simp [Except.map]
  | error e => simp [Except.map]

theorem except_map_eq_error_iff {x : Except ε α} {f : α → β} {e : ε} :
    x.map f = .error e ↔ x = .error e := by
  cases x with
  | ok a => simp [Except.map]
  | error e => simp [Except.map]

theorem fmap_eq_ok_iff {x : Except ε α} {f : α → β} {b : β} :
    f <$> x = .ok b ↔ ∃ a, x = .ok a ∧ f a = b :=
  except_map_eq_ok_iff

theorem fmap_eq_error_iff {x : Except ε α} {f : α → β} {e : ε} :
    f <$> x = .error e ↔ x = .error e :=
  except_map_eq_error_iff

theorem except_mapError_ok {ε' : Type} (f : ε → ε') (a : α) :
    (Except.ok a).mapError f = .ok a :=
  rfl

theorem except_mapError_id (x : Except ε α) : x.mapError id = x := by
  cases x with
  | ok a => rfl
  | error e => rfl

theorem exists_eq_ok_iff {x : Except ε α} : (∃ a, x = .ok a) ↔ ∀ e, x ≠ .error e := by
  cases x with
  | ok a => simp
  | error e => simp

theorem exists_eq_ok_of_isOk {x : Except ε α} (h : x.isOk) : ∃ a, x = .ok a := by
  cases x with
  | ok a => exact ⟨a, rfl⟩
  | error e => cases h

theorem exists_eq_ok_of_any {x : Except ε α} {p : α → Bool} (h : x.toOption.any p) :
    ∃ a, x = .ok a ∧ p a := by
  cases x with
  | ok a => exact ⟨a, rfl, h⟩
  | error e => cases h

theorem eq_ok_of_value [DecidableEq α] {x : Except ε α} {a : α}
    (h : (match x with | .ok b => decide (b = a) | .error _ => false) = true) : x = .ok a := by
  cases x with
  | ok b => rw [of_decide_eq_true h]
  | error e => cases h

theorem eq_error_of_value [DecidableEq ε] {x : Except ε α} {e : ε}
    (h : (match x with | .error e' => decide (e' = e) | .ok _ => false) = true) : x = .error e := by
  cases x with
  | ok a => cases h
  | error e' => rw [of_decide_eq_true h]

end Except

end LambdaLift
