import LambdaLift.LowerError

/-!
# Renaming of parameters

Within one lifted function every parameter gets an emitted name of its own: the source name if that
is free, and otherwise the source name followed by a number. A function sees no names but its own.
-/

namespace LambdaLift

/-- A source name and the name emitted for it. -/
structure Renamed where
  source : String
  emitted : String
deriving DecidableEq, Repr

/-- The names bound so far, the latest first. -/
structure Renaming where
  bound : List Renamed
deriving DecidableEq, Repr

namespace Renaming

def empty : Renaming := ⟨[]⟩

/-- The emitted names. -/
def emitted (r : Renaming) : List String := r.bound.map Renamed.emitted

/-- The source names, without repetition. -/
def sources (r : Renaming) : List String := (r.bound.map Renamed.source).eraseDups

/-- The number of emitted names. -/
def size (r : Renaming) : Nat := r.bound.length

def isEmpty (r : Renaming) : Bool := r.bound.isEmpty

/-- A name followed by a number. -/
def numbered (base : String) (n : Nat) : String := base ++ n.repr

/-- The emitted name that binding `base` now gives: `base` itself if it is free, and otherwise
`base` with the least free number that is not below the number of emitted names. Of the numbers
tried, one is free, since `base` itself takes one of the emitted names and the others cannot take
all of them. -/
def fresh (r : Renaming) (base : String) : String :=
  if r.emitted.contains base then
    let numbers := List.range' r.size r.size
    numbered base ((numbers.find? fun n => !r.emitted.contains (numbered base n)).getD (2 * r.size))
  else base

/-- Binds a source name to a fresh emitted name, hiding an earlier binding of it. -/
def bind (r : Renaming) (base : String) : Renaming := ⟨⟨base, r.fresh base⟩ :: r.bound⟩

/-- The emitted name of a source name. -/
def find? (r : Renaming) (name : String) : Option String :=
  (r.bound.find? (·.source == name)).map Renamed.emitted

/-- The emitted name of a source name, or an error that suggests bound names. -/
def get (r : Renaming) (name : String) : Except LowerError String :=
  match r.find? name with
  | some emitted => .ok emitted
  | none => .error (.unresolvedSymbol name (Suggestion.suggest name r.sources))

@[simp] theorem size_bind (r : Renaming) (base : String) : (r.bind base).size = r.size + 1 := rfl

@[simp] theorem emitted_bind (r : Renaming) (base : String) :
    (r.bind base).emitted = r.fresh base :: r.emitted := rfl

theorem find?_bind (r : Renaming) (base name : String) :
    (r.bind base).find? name = if base = name then some (r.fresh base) else r.find? name := by
  by_cases h : base = name <;> simp [find?, bind, h]

end Renaming

end LambdaLift
