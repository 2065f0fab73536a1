import LambdaLift.Scope.Chain

/-!
# Frames in order

A name is looked up along the parents of frames. The parents lead through all frames of a chain,
from the innermost one outward, so what is found is the first definition in the list of frames.
-/

namespace LambdaLift.Chain

variable {chain : Chain}

/-- The nearest definition of a name in a list of frames, with the number of its frame. -/
def findIn (name : String) : List Frame → Option (Symbol × Nat)
  | [] => none
  | frame :: frames =>
    match frame.find? name with
    | some symbol => some (symbol, frames.length)
    | none => findIn name frames

theorem findIn_eq_none_iff {name : String} {frames : List Frame} :
    findIn name frames = none ↔ name ∉ frames.flatMap Frame.names := by
  induction frames with
  | nil => simp [findIn]
  | cons frame frames ih =>
      rw [findIn, List.flatMap_cons, List.mem_append, not_or, ← ih, ← Frame.find?_eq_none_iff]
      cases frame.find? name with
      | none => simp
      | some symbol => simp

theorem findIn_lt {name : String} {frames : List Frame} {symbol : Symbol} {index : Nat}
    (h : findIn name frames = some (symbol, index)) : index < frames.length := by
  induction frames with
  | nil => cases h
  | cons frame frames ih =>
      rw [findIn] at h
      cases hframe : frame.find? name with
      | some found =>
          rw [hframe] at h
          cases h
          exact Nat.lt_succ_self _
      | none =>
          rw [hframe] at h
          exact Nat.lt_succ_of_lt (ih h)

theorem innermostIn_lt {kind : FrameKind} {frames : List Frame} {index : Nat}
    (h : innermostIn kind frames = some index) : index < frames.length := by
  induction frames with
  | nil => cases h
  | cons frame frames ih =>
      rw [innermostIn] at h
      split at h
      · cases h
        exact Nat.lt_succ_self _
      · exact Nat.lt_succ_of_lt (ih h)

/-- A name that a frame does not define is searched for in the parent of the frame. -/
theorem findFrom_of_frame? {index : Nat} {frame : Frame} (hframe : chain.frame? index = some frame)
    (name : String) :
    chain.findFrom name index =
      match frame.find? name with
      | some symbol => some (symbol, index)
      | none => frame.parent.bind (chain.findFrom name) := by
  rw [findFrom]
  split
  · rename_i hnone
    cases hnone.symm.trans hframe
  · rename_i hsome
    cases hsome.symm.trans hframe
    cases frame.find? name with
    | some symbol => rfl
    | none =>
        simp only
        split
        · rename_i hparent
          rw [hparent]
          rfl
        · rename_i hparent
          rw [hparent]
          rfl

theorem findFrom_eq_findIn (name : String) {outer : List Frame} :
    ∀ {inner : List Frame} {frame : Frame},
    chain.frames = inner ++ frame :: outer →
      chain.findFrom name outer.length = findIn name (frame :: outer) := by
  induction outer with
  | nil =>
      intro inner frame h
      have hframe : chain.frame? 0 = some frame := by simp [frame?, h]
      rw [List.length_nil, findFrom_of_frame? hframe, chain.linked.parent_eq hframe]
      rfl
  | cons next outer ih =>
      intro inner frame h
      have hframe : chain.frame? (outer.length + 1) = some frame := by simp [frame?, h]
      have hparent : frame.parent = some outer.length := chain.linked.parent_eq hframe
      have hnext : chain.frames = (inner ++ [frame]) ++ next :: outer := by simp [h]
      rw [List.length_cons, findFrom_of_frame? hframe, hparent, Option.bind_some, ih hnext]
      rfl

/-- From the innermost frame, the parents lead through all frames. -/
theorem findFrom_currentIndex (chain : Chain) (name : String) :
    chain.findFrom name chain.currentIndex = findIn name chain.frames :=
  findFrom_eq_findIn name (List.nil_append _).symm

section Numbers

theorem frame?_eq_none {index : Nat} (h : chain.currentIndex < index) :
    chain.frame? index = none := by
  apply List.getElem?_eq_none
  rw [List.length_reverse]
  exact h

theorem exists_frame? {index : Nat} (h : index ≤ chain.currentIndex) :
    ∃ frame, chain.frame? index = some frame := by
  have hlength : index < chain.frames.reverse.length := by
    rw [List.length_reverse]
    exact Nat.lt_succ_of_le h
  exact ⟨_, List.getElem?_eq_getElem hlength⟩

theorem frame?_currentIndex (chain : Chain) :
    chain.frame? chain.currentIndex = some chain.current := by
  simp [frame?, frames, currentIndex]

theorem frame?_push (chain : Chain) (kind : FrameKind) (index : Nat) :
    (chain.push kind).frame? index =
      if index = chain.depth then some (.empty kind (some chain.currentIndex))
      else chain.frame? index := by
  have hframes : (chain.push kind).frames.reverse =
      chain.frames.reverse ++ [.empty kind (some chain.currentIndex)] := List.reverse_cons
  rw [frame?, hframes, List.getElem?_append, List.getElem?_singleton, List.length_reverse,
    ← depth_eq_length]
  split
  · rw [if_neg (by omega)]
    rfl
  · split
    · rw [if_pos (by omega)]
    · rw [if_neg (by omega), frame?_eq_none]
      change chain.depth - 1 < index
      omega

theorem frame?_define (chain : Chain) (symbol : Symbol) (index : Nat) :
    (chain.define symbol).frame? index =
      if index = chain.currentIndex then some (chain.current.define symbol)
      else chain.frame? index := by
  have hframes (current : Frame) : (current :: chain.enclosing).reverse =
      chain.enclosing.reverse ++ [current] := List.reverse_cons
  change (chain.current.define symbol :: chain.enclosing).reverse[index]? = _
  rw [hframes, List.getElem?_append, List.getElem?_singleton, frame?, frames, hframes,
    List.getElem?_append, List.getElem?_singleton, List.length_reverse, currentIndex]
  split
  · rw [if_neg (by omega)]
  · split
    · rw [if_pos (by omega)]
    · rw [if_neg (by omega)]

theorem frame?_pop (chain : Chain) (index : Nat) :
    chain.pop.frame? index =
      if index ≤ chain.currentIndex - 1 then chain.frame? index else none := by
  obtain ⟨core, current, enclosing, linked⟩ := chain
  split
  · rename_i hindex
    cases enclosing with
    | nil => rfl
    | cons frame frames =>
        change (frame :: frames).reverse[index]? = (current :: frame :: frames).reverse[index]?
        rw [List.reverse_cons (a := current), List.getElem?_append_left]
        rw [List.length_reverse]
        exact Nat.lt_succ_of_le hindex
  · rename_i hindex
    cases enclosing with
    | nil => exact frame?_eq_none (Nat.lt_of_not_le hindex)
    | cons frame frames => exact frame?_eq_none (Nat.lt_of_not_le hindex)

end Numbers

/-- The kinds of all frames, the innermost first. -/
def kinds (chain : Chain) : List FrameKind := chain.frames.map Frame.kind

theorem length_kinds (chain : Chain) : chain.kinds.length = chain.depth := List.length_map _

theorem kinds_push (chain : Chain) (kind : FrameKind) :
    (chain.push kind).kinds = kind :: chain.kinds := rfl

theorem kinds_define (chain : Chain) (symbol : Symbol) :
    (chain.define symbol).kinds = chain.kinds := rfl

theorem kinds_foldl_define (symbols : List Symbol) (chain : Chain) :
    (symbols.foldl define chain).kinds = chain.kinds := by
  induction symbols generalizing chain with
  | nil => rfl
  | cons symbol symbols ih => rw [List.foldl_cons, ih, kinds_define]

/-- Definitions change the innermost frame only. -/
theorem define_foldl (ps : List Symbol) (chain : Chain) :
    (ps.foldl define chain).core = chain.core ∧
      (ps.foldl define chain).current = ps.foldl Frame.define chain.current ∧
      (ps.foldl define chain).enclosing = chain.enclosing := by
  induction ps generalizing chain with
  | nil => exact ⟨rfl, rfl, rfl⟩
  | cons p ps ih => exact ih (chain.define p)

/-- What is defined in a frame is gone once the frame is left. -/
theorem pop_foldl_define (ps : List Symbol) (chain : Chain) (kind : FrameKind) :
    (ps.foldl define (chain.push kind)).pop = chain := by
  obtain ⟨hcore, _, henclosing⟩ := define_foldl ps (chain.push kind)
  generalize ps.foldl define (chain.push kind) = inner at hcore henclosing
  obtain ⟨core, current, enclosing, linked⟩ := inner
  cases hcore
  cases henclosing
  rfl

end LambdaLift.Chain
