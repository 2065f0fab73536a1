import LambdaLift.Scope.Frame
import LambdaLift.Scope.ResolveError

/-!
# Scope chains

A chain of frames, the innermost first, above the built-in names. Entering a block or a lambda puts
a frame on the chain, whose parent is the frame around it; a definition goes into the innermost
frame and hides an earlier one of the same name there. A name is looked up from the innermost frame
on, going from frame to parent, and means a built-in only if no frame defines it.
-/

namespace LambdaLift

/-- The built-in names, without repetition. -/
structure Core where
  names : List String
deriving DecidableEq, Repr

namespace Core

/-- The built-ins with the given names. -/
def ofNames (names : List String) : Core := ⟨names.eraseDups⟩

def contains (core : Core) (name : String) : Bool := core.names.contains name

def size (core : Core) : Nat := core.names.length

def isEmpty (core : Core) : Bool := core.names.isEmpty

@[simp] theorem contains_ofNames {names : List String} {name : String} :
    (ofNames names).contains name = true ↔ name ∈ names := by
  simp [contains, ofNames]

end Core

/-- Where a name is bound: as a built-in, or by a symbol in one of the frames, counted from the
outermost one, which is number zero. -/
inductive Binding where
  | builtin (name : String)
  | symbol (symbol : Symbol) (frame : Nat)
deriving DecidableEq, Repr

namespace Frame

/-- The number of the first one in a list of frames, which are counted from the last one on. -/
def firstIndex? : List Frame → Option Nat
  | [] => none
  | _ :: frames => some frames.length

/-- In a list of frames each one has the next one as its parent, and the last one has none. -/
def Linked : List Frame → Prop
  | [] => True
  | frame :: frames => frame.parent = firstIndex? frames ∧ Linked frames

theorem firstIndex?_eq (frames : List Frame) :
    firstIndex? frames = if frames.length = 0 then none else some (frames.length - 1) := by
  cases frames with
  | nil => rfl
  | cons frame frames => simp [firstIndex?]

namespace Linked

theorem root (kind : FrameKind) : Linked [empty kind none] := ⟨rfl, trivial⟩

theorem push {frame : Frame} {frames : List Frame} (h : Linked (frame :: frames))
    (kind : FrameKind) :
    Linked (empty kind (some frames.length) :: frame :: frames) :=
  ⟨rfl, h⟩

theorem pop {inner frame : Frame} {frames : List Frame} (h : Linked (inner :: frame :: frames)) :
    Linked (frame :: frames) :=
  h.2

theorem define {frame : Frame} {frames : List Frame} (h : Linked (frame :: frames))
    (symbol : Symbol) :
    Linked (frame.define symbol :: frames) :=
  h

/-- The frame with number zero has no parent, and the parent of any other frame has the number
before. -/
theorem parent_eq {frames : List Frame} (h : Linked frames) {index : Nat} {frame : Frame}
    (hframe : frames.reverse[index]? = some frame) :
    frame.parent = if index = 0 then none else some (index - 1) := by
  induction frames with
  | nil => cases hframe
  | cons first frames ih =>
      rw [List.reverse_cons, List.getElem?_append, List.length_reverse] at hframe
      split at hframe
      · exact ih h.2 hframe
      · simp only [List.getElem?_singleton, Option.ite_none_right_eq_some,
          Option.some.injEq] at hframe
        obtain ⟨hzero, rfl⟩ := hframe
        obtain rfl : index = frames.length := by omega
        rw [h.1, firstIndex?_eq]

end Linked

end Frame

/-- A chain of frames: the innermost one and those around it, the nearest first. -/
structure Chain where
  core : Core
  current : Frame
  enclosing : List Frame
  linked : Frame.Linked (current :: enclosing)
deriving DecidableEq, Repr

namespace Chain

/-- The chain at the start of a module. -/
def ofCore (core : Core) : Chain := ⟨core, .empty .module none, [], .root .module⟩

/-- All frames, the innermost first. -/
def frames (chain : Chain) : List Frame := chain.current :: chain.enclosing

/-- The number of frames. -/
def depth (chain : Chain) : Nat := chain.enclosing.length + 1

/-- The number of the innermost frame. -/
def currentIndex (chain : Chain) : Nat := chain.enclosing.length

/-- The frame with a given number. -/
def frame? (chain : Chain) (index : Nat) : Option Frame := chain.frames.reverse[index]?

/-- The kind of the frame with a given number; there is none beyond the innermost one. -/
def kind? (chain : Chain) (index : Nat) : Option FrameKind := (chain.frame? index).map Frame.kind

/-- Enters a construct. -/
def push : Chain → FrameKind → Chain
  | ⟨core, current, enclosing, linked⟩, kind =>
    ⟨core, .empty kind (some enclosing.length), current :: enclosing, .push linked kind⟩

/-- Leaves the innermost construct and forgets what it defines. The outermost frame stays. -/
def pop : Chain → Chain
  | ⟨core, _, frame :: frames, linked⟩ => ⟨core, frame, frames, .pop linked⟩
  | chain => chain

/-- Defines a symbol in the innermost frame. -/
def define : Chain → Symbol → Chain
  | ⟨core, current, enclosing, linked⟩, symbol =>
    ⟨core, current.define symbol, enclosing, .define linked symbol⟩

theorem parent_lt {chain : Chain} {index parent : Nat} {frame : Frame}
    (hframe : chain.frame? index = some frame) (hparent : frame.parent = some parent) :
    parent < index := by
  rw [chain.linked.parent_eq hframe] at hparent
  split at hparent
  · cases hparent
  · cases hparent
    omega

/-- The nearest definition of a name in the frame with a given number, in its parent and so on, with
the number of its frame. -/
def findFrom (chain : Chain) (name : String) (index : Nat) : Option (Symbol × Nat) :=
  match hframe : chain.frame? index with
  | none => none
  | some frame =>
    match frame.find? name with
    | some symbol => some (symbol, index)
    | none =>
      match hparent : frame.parent with
      | none => none
      | some parent =>
        have := parent_lt hframe hparent
        chain.findFrom name parent
termination_by index

/-- What a name means in the frame with a given number. -/
def lookupFrom (chain : Chain) (name : String) (index : Nat) : Option Binding :=
  match chain.findFrom name index with
  | some (symbol, index) => some (.symbol symbol index)
  | none => if chain.core.contains name then some (.builtin name) else none

/-- What a name means. -/
def lookup (chain : Chain) (name : String) : Option Binding :=
  chain.lookupFrom name chain.currentIndex

/-- The number of the innermost frame of a kind in a list of frames. -/
def innermostIn (kind : FrameKind) : List Frame → Option Nat
  | [] => none
  | frame :: frames => if frame.kind = kind then some frames.length else innermostIn kind frames

/-- The number of the innermost frame of a kind. -/
def innermost? (chain : Chain) (kind : FrameKind) : Option Nat := innermostIn kind chain.frames

/-- All names that mean something here; one that several frames define occurs as often. -/
def visibleNames (chain : Chain) : List String :=
  chain.frames.flatMap Frame.names ++ chain.core.names

/-- What was found for a name, or an error that suggests visible names. -/
def orUnresolved (chain : Chain) (name : String) : Option Binding → Except ResolveError Binding
  | some binding => .ok binding
  | none => .error (.unresolved name (Suggestion.suggest name chain.visibleNames))

/-- What a name means, or an error that suggests visible names. -/
def get (chain : Chain) (name : String) : Except ResolveError Binding :=
  chain.orUnresolved name (chain.lookup name)

/-! A chain refers to its frames by `FrameId`s. This makes no difference up to `2 ^ 32` frames: the
parent of each of the first `2 ^ 32` frames has the reference of the frame before. With more frames
the innermost one is taken for another. -/

/-- The reference of the innermost frame. -/
def currentId (chain : Chain) : FrameId := .ofIndex chain.currentIndex

/-- The reference of the parent of a frame with a given number. -/
def parentId? (chain : Chain) (index : Nat) : Option FrameId :=
  (chain.frame? index).bind fun frame => frame.parent.map FrameId.ofIndex

/-- What a name means if frames are followed by their references. -/
def lookupById (chain : Chain) (name : String) : Option Binding :=
  chain.lookupFrom name chain.currentId.index

/-- What a name means if frames are followed by their references, or an error that suggests visible
names. -/
def getById (chain : Chain) (name : String) : Except ResolveError Binding :=
  chain.orUnresolved name (chain.lookupById name)

@[simp] theorem pop_push (chain : Chain) (kind : FrameKind) : (chain.push kind).pop = chain := rfl

@[simp] theorem depth_push (chain : Chain) (kind : FrameKind) :
    (chain.push kind).depth = chain.depth + 1 := rfl

@[simp] theorem depth_define (chain : Chain) (symbol : Symbol) :
    (chain.define symbol).depth = chain.depth := rfl

theorem depth_eq_length (chain : Chain) : chain.depth = chain.frames.length := rfl

end Chain

end LambdaLift
