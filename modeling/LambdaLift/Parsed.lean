/-!
# Reading from the front of a list

Every reader of this library takes a list of characters or tokens and returns a value together with
the part of the list that it left. The proof that the rest is shorter is what makes the readers that
call each other terminate.
-/

namespace LambdaLift

/-- A value read from the front of `input`, and the strictly shorter list that follows it. -/
structure Parsed (α : Type) {τ : Type} (input : List τ) where
  value : α
  rest : List τ
  rest_lt : rest.length < input.length

namespace Parsed

variable {α β τ : Type} {input : List τ}

/-- Changes the value and keeps the rest. -/
def map (f : α → β) (p : Parsed α input) : Parsed β input :=
  ⟨f p.value, p.rest, p.rest_lt⟩

/-- What was read from an end part of a longer list was read from the longer list too. -/
def ofSuffix {shorter : List τ} (p : Parsed α shorter) (h : shorter.length ≤ input.length) :
    Parsed α input :=
  ⟨p.value, p.rest, Nat.lt_of_lt_of_le p.rest_lt h⟩

/-- What was read from a shorter end part of a list was read from the list too. -/
def ofShorter {shorter : List τ} (p : Parsed α shorter) (h : shorter.length < input.length) :
    Parsed α input :=
  p.ofSuffix (Nat.le_of_lt h)

/-- What was read behind the first element of a list was read from the list too. -/
def behind {a : τ} (p : Parsed α input) : Parsed α (a :: input) :=
  p.ofSuffix (Nat.le_succ _)

/-- A value for which only the first element of a list was read. -/
def first {a : τ} (value : α) : Parsed α (a :: input) :=
  ⟨value, input, Nat.lt_succ_self _⟩

/-- What stands behind the first element of the rest is shorter still. -/
theorem length_lt_of_rest_eq_cons {r : List τ} {a : τ} (p : Parsed α input) (h : p.rest = a :: r) :
    r.length < input.length := by
  have := p.rest_lt
  rw [h] at this
  exact Nat.lt_of_succ_lt this

@[simp] theorem value_map (f : α → β) (p : Parsed α input) : (p.map f).value = f p.value := rfl

@[simp] theorem rest_map (f : α → β) (p : Parsed α input) : (p.map f).rest = p.rest := rfl

@[simp] theorem value_ofSuffix {shorter : List τ} (p : Parsed α shorter)
    (h : shorter.length ≤ input.length) : (p.ofSuffix h).value = p.value := rfl

@[simp] theorem rest_ofSuffix {shorter : List τ} (p : Parsed α shorter)
    (h : shorter.length ≤ input.length) : (p.ofSuffix h).rest = p.rest := rfl

end Parsed

/-- A value read from the front of `input`, and the list that follows it, which may be all of
`input`. -/
structure MaybeParsed (α : Type) {τ : Type} (input : List τ) where
  value : α
  rest : List τ
  rest_le : rest.length ≤ input.length

namespace MaybeParsed

variable {α τ : Type} {input : List τ}

/-- A value for which nothing was read. -/
def nothing (value : α) : MaybeParsed α input :=
  ⟨value, input, Nat.le_refl _⟩

/-- What may have been read from a shorter end part of a list makes the list shorter in any case. -/
def ofShorter {shorter : List τ} (p : MaybeParsed α shorter) (h : shorter.length < input.length) :
    Parsed α input :=
  ⟨p.value, p.rest, Nat.lt_of_le_of_lt p.rest_le h⟩

end MaybeParsed

/-- Dropping a run of elements never lengthens a list. -/
theorem length_dropWhile_le {α : Type} (p : α → Bool) (l : List α) :
    (l.dropWhile p).length ≤ l.length :=
  (List.dropWhile_suffix p).length_le

end LambdaLift
