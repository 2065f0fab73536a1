/-!
# Frames

A frame holds what one construct defines: a module, a block or a lambda.
-/

namespace LambdaLift

/-- The construct that a frame of a scope chain belongs to. -/
inductive FrameKind where
  | module
  | block
  | lambda
deriving DecidableEq, Repr

def FrameKind.name : FrameKind → String
  | module => "Module"
  | block => "Block"
  | lambda => "Lambda"

/-- An occurrence of a symbol. In a module `site` is the number of terms before it, a term coming
before its parts and the module itself being number zero. -/
structure Symbol where
  name : String
  site : Nat
deriving DecidableEq, Repr

/-- What one construct defines: the number of the frame around it, if there is one, and the symbols,
the latest first and one for each name. -/
structure Frame where
  kind : FrameKind
  parent : Option Nat
  symbols : List Symbol
deriving DecidableEq, Repr

/-- What a frame is referred to by: the low 32 bits of its number. -/
structure FrameId where
  word : UInt32
deriving DecidableEq, Repr

namespace FrameId

def ofIndex (index : Nat) : FrameId := ⟨.ofNat index⟩

/-- The number of the frame that is found under the reference. -/
def index (id : FrameId) : Nat := id.word.toNat

theorem index_ofIndex {index : Nat} (h : index < UInt32.size) : (ofIndex index).index = index :=
  UInt32.toNat_ofNat_of_lt' h

end FrameId

namespace Frame

/-- A frame that defines nothing. -/
def empty (kind : FrameKind) (parent : Option Nat) : Frame := ⟨kind, parent, []⟩

/-- The symbol that a frame defines for a name. -/
def find? (frame : Frame) (name : String) : Option Symbol :=
  frame.symbols.find? (·.name == name)

/-- Adds a definition in place of an earlier one of the same name. -/
def define (frame : Frame) (symbol : Symbol) : Frame :=
  { frame with symbols := symbol :: frame.symbols.filter (·.name != symbol.name) }

def names (frame : Frame) : List String := frame.symbols.map Symbol.name

theorem find?_eq_none_iff {frame : Frame} {name : String} :
    frame.find? name = none ↔ name ∉ frame.names := by
  simp [find?, names]

@[simp] theorem find?_empty (kind : FrameKind) (parent : Option Nat) (name : String) :
    (empty kind parent).find? name = none := rfl

@[simp] theorem kind_define (frame : Frame) (symbol : Symbol) :
    (frame.define symbol).kind = frame.kind := rfl

@[simp] theorem parent_define (frame : Frame) (symbol : Symbol) :
    (frame.define symbol).parent = frame.parent := rfl

theorem find?_define (frame : Frame) (symbol : Symbol) (name : String) :
    (frame.define symbol).find? name =
      if symbol.name = name then some symbol else frame.find? name := by
  by_cases h : symbol.name = name
  · simp [find?, define, h]
  · simp only [find?, define, h, if_false]
    rw [List.find?_cons_of_neg (by simpa using h), List.find?_filter]
    congr 1
    funext s
    by_cases hs : s.name = name
    · simp [hs, Ne.symm h]
    · simp [hs]

end Frame

end LambdaLift
