import LambdaLift.Proofs.FrameOrder
import Mathlib.Logic.Function.Iterate

/-!
# Chains over whole runs

A chain changes by entering and leaving constructs and by definitions, in any order. Where it then
stands can be said from the sequence of these steps alone: an entry and a later exit match like
brackets, the frames are the entries without an exit, and a frame holds the definitions that were
made while it was the innermost one. What a chain says of a name is the last definition of the name
in the innermost frame that holds one.
-/

namespace LambdaLift.Chain

/-- A change of a chain. -/
inductive Step where
  | push (kind : FrameKind)
  | pop
  | define (symbol : Symbol)
deriving DecidableEq, Repr

/-- The chain after a change. -/
def after (chain : Chain) : Step → Chain
  | .push kind => chain.push kind
  | .pop => chain.pop
  | .define symbol => chain.define symbol

/-- The chain after changes one after another. -/
def run (chain : Chain) (steps : List Step) : Chain := steps.foldl after chain

namespace Step

/-- The number of exits that match no entry before them. -/
def unmatchedPops : List Step → Nat
  | [] => 0
  | push _ :: steps => unmatchedPops steps - 1
  | pop :: steps => unmatchedPops steps + 1
  | define _ :: steps => unmatchedPops steps

/-- What is entered without a matching exit later, from the first entry to the last. -/
def unmatchedPushes : List Step → List FrameKind
  | [] => []
  | push kind :: steps =>
    if unmatchedPops steps = 0 then kind :: unmatchedPushes steps else unmatchedPushes steps
  | pop :: steps => unmatchedPushes steps
  | define _ :: steps => unmatchedPushes steps

/-- A definition with the number of the frame that it was made in. -/
structure Definition where
  symbol : Symbol
  frame : Nat
deriving DecidableEq, Repr

/-- The definitions whose frames are still there at the end, from the first to the last, if `index`
is the number of the innermost frame at the start. The frame with number zero is never left. -/
def held (index : Nat) : List Step → List Definition
  | [] => []
  | push _ :: steps => held (index + 1) steps
  | pop :: steps => held (index - 1) steps
  | define symbol :: steps =>
    if index = 0 ∨ unmatchedPops steps = 0 then ⟨symbol, index⟩ :: held index steps
    else held index steps

/-- The last one of the definitions of a name that were made in a frame. -/
def latest (definitions : List Definition) (frame : Nat) (name : String) : Option Symbol :=
  ((definitions.filter fun d => d.frame = frame ∧
    d.symbol.name = name).map Definition.symbol).getLast?

theorem latest_cons (d : Definition) (definitions : List Definition) (frame : Nat) (name : String) :
    latest (d :: definitions) frame name =
      (latest definitions frame name).or
        (if d.frame = frame ∧ d.symbol.name = name then some d.symbol else none) := by
  unfold latest
  by_cases hd : d.frame = frame ∧ d.symbol.name = name
  · rw [List.filter_cons_of_pos (by simpa using hd), if_pos hd, List.map_cons, List.getLast?_cons]
    cases ((definitions.filter _).map Definition.symbol).getLast? with
    | none => rfl
    | some symbol => rfl
  · rw [List.filter_cons_of_neg (by simpa using hd), if_neg hd, Option.or_none]

theorem latest_eq_none_iff {definitions : List Definition} {frame : Nat} {name : String} :
    latest definitions frame name = none ↔ ∀ d ∈ definitions, d.symbol.name = name →
      d.frame ≠ frame := by
  simp only [latest, List.getLast?_eq_none_iff, List.map_eq_nil_iff, List.filter_eq_nil_iff,
    decide_eq_true_eq]
  grind

end Step

open Step

variable {chain : Chain}

section Frames

theorem depth_pop (chain : Chain) : chain.pop.depth = max 1 (chain.depth - 1) := by
  obtain ⟨core, current, enclosing, linked⟩ := chain
  cases enclosing with
  | nil => rfl
  | cons frame frames => exact (Nat.max_eq_right (Nat.le_add_left 1 frames.length)).symm

theorem reverse_kinds_pop (chain : Chain) :
    chain.pop.kinds.reverse = chain.kinds.reverse.take chain.pop.depth := by
  obtain ⟨core, current, enclosing, linked⟩ := chain
  cases enclosing with
  | nil => rfl
  | cons frame frames =>
      have hkinds : (kinds ⟨core, current, frame :: frames, linked⟩).reverse =
          (kinds ⟨core, frame, frames, .pop linked⟩).reverse ++ [current.kind] := List.reverse_cons
      rw [hkinds]
      exact (List.take_left' (by rw [List.length_reverse, length_kinds])).symm

/-- The frames after a run are those from before that were not left, and then the unmatched
entries. -/
theorem reverse_kinds_run (steps : List Step) (chain : Chain) :
    (chain.run steps).kinds.reverse =
      chain.kinds.reverse.take (max 1 (chain.depth - unmatchedPops steps)) ++
        unmatchedPushes steps := by
  induction steps generalizing chain with
  | nil =>
      have hall : chain.kinds.reverse.length ≤ max 1 (chain.depth - 0) := by
        rw [List.length_reverse, length_kinds]
        omega
      rw [unmatchedPops, List.take_of_length_le hall, unmatchedPushes, List.append_nil]
      rfl
  | cons step steps ih =>
      change ((chain.after step).run steps).kinds.reverse = _
      rw [ih]
      cases step with
      | push kind =>
          have hdepth : 1 ≤ chain.depth := Nat.le_add_left 1 _
          have hlength : chain.kinds.reverse.length = chain.depth := by
            rw [List.length_reverse, length_kinds]
          rw [after, kinds_push, List.reverse_cons, depth_push, unmatchedPops, unmatchedPushes]
          split
          · rename_i hnone
            rw [List.take_of_length_le, List.take_of_length_le, List.append_assoc,
              List.singleton_append]
            · omega
            · rw [List.length_append, List.length_singleton]
              omega
          · rw [List.take_append_of_le_length]
            · congr 2
              omega
            · omega
      | pop =>
          rw [after, reverse_kinds_pop, depth_pop, List.take_take, unmatchedPops, unmatchedPushes]
          congr 2
          omega
      | define symbol => rw [after, kinds_define, depth_define, unmatchedPops, unmatchedPushes]

end Frames

section Definitions

/-- The definition of a name in the frame with a given number. -/
def findAt (chain : Chain) (index : Nat) (name : String) : Option Symbol :=
  (chain.frame? index).bind (·.find? name)

theorem findAt_eq_none {index : Nat} (h : chain.currentIndex < index) (name : String) :
    chain.findAt index name = none := by
  rw [findAt, frame?_eq_none h, Option.bind_none]

theorem findAt_push (chain : Chain) (kind : FrameKind) (index : Nat) (name : String) :
    (chain.push kind).findAt index name = chain.findAt index name := by
  rw [findAt, frame?_push]
  split
  · rename_i hnew
    rw [findAt_eq_none (by rw [hnew]; exact Nat.lt_succ_self _)]
    rfl
  · rfl

theorem findAt_define (chain : Chain) (symbol : Symbol) (index : Nat) (name : String) :
    (chain.define symbol).findAt index name =
      if index = chain.currentIndex ∧ symbol.name = name then some symbol
      else chain.findAt index name := by
  rw [findAt, frame?_define]
  by_cases hindex : index = chain.currentIndex
  · subst hindex
    rw [if_pos rfl, Option.bind_some, Frame.find?_define, findAt, frame?_currentIndex,
      Option.bind_some]
    simp
  · rw [if_neg hindex, if_neg (fun h => hindex h.1), findAt]

theorem findAt_pop (chain : Chain) (index : Nat) (name : String) :
    chain.pop.findAt index name =
      if index ≤ chain.currentIndex - 1 then chain.findAt index name else none := by
  rw [findAt, frame?_pop]
  split
  · rfl
  · rfl

theorem currentIndex_pop (chain : Chain) : chain.pop.currentIndex = chain.currentIndex - 1 := by
  obtain ⟨core, current, enclosing, linked⟩ := chain
  cases enclosing with
  | nil => rfl
  | cons frame frames => rfl

/-- After a run, a frame holds the last definition of a name that was made in it, or the one from
before if the frame was there already and was not left. -/
theorem findAt_run (steps : List Step) (chain : Chain) (index : Nat) (name : String) :
    (chain.run steps).findAt index name =
      (latest (held chain.currentIndex steps) index name).or
        (if index ≤ chain.currentIndex - unmatchedPops steps then chain.findAt index name
        else none) := by
  induction steps generalizing chain with
  | nil =>
      change chain.findAt index name =
        if index ≤ chain.currentIndex then chain.findAt index name else none
      split
      · rfl
      · rename_i hindex
        exact findAt_eq_none (Nat.lt_of_not_le hindex) name
  | cons step steps ih =>
      change ((chain.after step).run steps).findAt index name = _
      rw [ih]
      cases step with
      | push kind =>
          rw [after, findAt_push, unmatchedPops, held]
          congr 1
          by_cases hindex : index ≤ chain.currentIndex
          · have hlive : index ≤ chain.currentIndex + 1 - unmatchedPops steps ↔
                index ≤ chain.currentIndex - (unmatchedPops steps - 1) := by omega
            exact if_congr hlive rfl rfl
          · rw [findAt_eq_none (Nat.lt_of_not_le hindex), ite_self, ite_self]
      | pop =>
          have hlive : index ≤ chain.currentIndex - 1 - unmatchedPops steps ∧
            index ≤ chain.currentIndex - 1 ↔
              index ≤ chain.currentIndex - (unmatchedPops steps + 1) := by omega
          rw [after, findAt_pop, currentIndex_pop, unmatchedPops, held, ← ite_and,
            if_congr hlive rfl rfl]
      | define symbol =>
          rw [after, findAt_define, unmatchedPops, held]
          change (latest (held chain.currentIndex steps) index name).or
            (if index ≤ chain.currentIndex - unmatchedPops steps then _ else none) = _
          by_cases hlive : chain.currentIndex = 0 ∨ unmatchedPops steps = 0
          · rw [if_pos hlive, latest_cons, Option.or_assoc]
            congr 1
            by_cases hsymbol : index = chain.currentIndex ∧ symbol.name = name
            · rw [if_pos hsymbol, if_pos (by omega), if_pos ⟨hsymbol.1.symm, hsymbol.2⟩]
              rfl
            · have hother : ¬(chain.currentIndex = index ∧ symbol.name = name) :=
                fun h => hsymbol ⟨h.1.symm, h.2⟩
              rw [if_neg hsymbol, if_neg hother, Option.none_or]
          · rw [if_neg hlive]
            congr 1
            by_cases hindex : index = chain.currentIndex
            · rw [if_neg (by omega), if_neg (by omega)]
            · rw [if_neg (c := index = chain.currentIndex ∧ _) (fun h => hindex h.1)]

end Definitions

section Lookup

/-- A name that a frame does not define is searched for in the frame with the number before. -/
theorem findFrom_eq {index : Nat} (h : index ≤ chain.currentIndex) (name : String) :
    chain.findFrom name index =
      ((chain.findAt index name).map (·, index)).or
        (if index = 0 then none else chain.findFrom name (index - 1)) := by
  obtain ⟨frame, hframe⟩ := exists_frame? h
  rw [findFrom_of_frame? hframe, findAt, hframe, Option.bind_some, chain.linked.parent_eq hframe]
  cases frame.find? name with
  | some symbol => rfl
  | none => by_cases hzero : index = 0 <;> simp [hzero]

/-- A search finds the definition in the innermost frame that has one. -/
theorem findFrom_eq_some_iff {index : Nat} (h : index ≤ chain.currentIndex) {name : String}
    {symbol : Symbol} {found : Nat} :
    chain.findFrom name index = some (symbol, found) ↔
      found ≤ index ∧ chain.findAt found name = some symbol ∧
        ∀ j, found < j → j ≤ index → chain.findAt j name = none := by
  induction index with
  | zero =>
      rw [findFrom_eq h]
      cases hat : chain.findAt 0 name with
      | none => grind
      | some here => grind
  | succ index ih =>
      rw [findFrom_eq h]
      cases hat : chain.findAt (index + 1) name with
      | none => grind
      | some here => grind

/-- A search finds nothing only if no frame has a definition. -/
theorem findFrom_eq_none_iff {index : Nat} (h : index ≤ chain.currentIndex) {name : String} :
    chain.findFrom name index = none ↔ ∀ j ≤ index, chain.findAt j name = none := by
  induction index with
  | zero =>
      rw [findFrom_eq h]
      cases hat : chain.findAt 0 name with
      | none => grind
      | some here => grind
  | succ index ih =>
      rw [findFrom_eq h]
      cases hat : chain.findAt (index + 1) name with
      | none => grind
      | some here => grind

/-- A name means the definition in the innermost frame that has one. -/
theorem lookup_eq_symbol_iff {name : String} {symbol : Symbol} {index : Nat} :
    chain.lookup name = some (.symbol symbol index) ↔
      chain.findAt index name = some symbol ∧ ∀ j, index < j → chain.findAt j name = none := by
  have hfrom : chain.lookup name = some (.symbol symbol index) ↔
      chain.findFrom name chain.currentIndex = some (symbol, index) := by
    rw [lookup, lookupFrom]
    split
    · rename_i hfound
      simp [hfound]
    · rename_i hfound
      simp [hfound]
  rw [hfrom, findFrom_eq_some_iff (Nat.le_refl _)]
  constructor
  · rintro ⟨_, hat, hinner⟩
    refine ⟨hat, fun j hj => ?_⟩
    by_cases hlive : j ≤ chain.currentIndex
    · exact hinner j hj hlive
    · exact findAt_eq_none (Nat.lt_of_not_le hlive) name
  · rintro ⟨hat, hinner⟩
    refine ⟨?_, hat, fun j hj _ => hinner j hj⟩
    by_contra hlive
    rw [findAt_eq_none (Nat.lt_of_not_le hlive)] at hat
    cases hat

/-- A name that no frame defines is left to the built-ins. -/
theorem findFrom_currentIndex_eq_none_iff {name : String} :
    chain.findFrom name chain.currentIndex = none ↔ ∀ j, chain.findAt j name = none := by
  rw [findFrom_eq_none_iff (Nat.le_refl _)]
  constructor
  · intro hnone j
    by_cases hlive : j ≤ chain.currentIndex
    · exact hnone j hlive
    · exact findAt_eq_none (Nat.lt_of_not_le hlive) name
  · exact fun hnone j _ => hnone j

theorem lookup_eq_builtin_iff {name builtin : String} :
    chain.lookup name = some (.builtin builtin) ↔
      builtin = name ∧ chain.core.contains name ∧ ∀ j, chain.findAt j name = none := by
  rw [← findFrom_currentIndex_eq_none_iff, lookup, lookupFrom]
  split
  · rename_i hfound
    simp [hfound]
  · rename_i hfound
    rw [Option.ite_none_right_eq_some]
    simp only [hfound, Option.some.injEq, Binding.builtin.injEq]
    grind

theorem lookup_eq_none_iff {name : String} :
    chain.lookup name = none ↔ ¬chain.core.contains name ∧ ∀ j, chain.findAt j name = none := by
  rw [← findFrom_currentIndex_eq_none_iff, lookup, lookupFrom]
  split
  · rename_i hfound
    simp [hfound]
  · rename_i hfound
    simp [hfound]

end Lookup

section VisibleNames

/-- The visible names are those that mean something. -/
theorem lookup_isSome_iff {name : String} :
    (chain.lookup name).isSome ↔ name ∈ chain.visibleNames := by
  rw [visibleNames, List.mem_append, lookup, lookupFrom, findFrom_currentIndex]
  cases hfound : findIn name chain.frames with
  | none =>
      have hframes := findIn_eq_none_iff.mp hfound
      simp [hframes, Core.contains]
  | some found =>
      have hframes : name ∈ chain.frames.flatMap Frame.names := by
        by_contra hnone
        rw [findIn_eq_none_iff.mpr hnone] at hfound
        cases hfound
      simp [hframes]

theorem get_eq_error_iff {name : String} {e : ResolveError} :
    chain.get name = .error e ↔
      chain.lookup name = none ∧
        e = .unresolved name (Suggestion.suggest name chain.visibleNames) := by
  rw [get]
  cases chain.lookup name with
  | none => simp [orUnresolved, eq_comm]
  | some binding => simp [orUnresolved]

end VisibleNames

section FrameIds

/-- Up to `2 ^ 32` frames the innermost frame has its own number as its reference. -/
theorem index_currentId (h : chain.depth ≤ UInt32.size) :
    chain.currentId.index = chain.currentIndex :=
  FrameId.index_ofIndex h

theorem lookupById_eq (h : chain.depth ≤ UInt32.size) (name : String) :
    chain.lookupById name = chain.lookup name := by
  rw [lookupById, index_currentId h, lookup]

theorem getById_eq (h : chain.depth ≤ UInt32.size) (name : String) :
    chain.getById name = chain.get name := by
  rw [getById, lookupById_eq h, get]

theorem index_parentId? (h : chain.depth ≤ UInt32.size) {index : Nat}
    (hindex : index < chain.depth) :
    (chain.parentId? index).map FrameId.index = if index = 0 then none else some (index - 1) := by
  obtain ⟨frame, hframe⟩ := exists_frame? (Nat.le_of_lt_succ hindex)
  rw [parentId?, hframe, Option.bind_some, chain.linked.parent_eq hframe]
  split
  · rfl
  · exact congrArg some (FrameId.index_ofIndex (by omega))

/-- Going from the innermost frame to its parent and on leads to the outermost frame and ends
there. -/
theorem parentId?_iterate (h : chain.depth ≤ UInt32.size) (k : Nat) :
    ((Option.bind · fun id => chain.parentId? id.index)^[k] (some chain.currentId)).map
        FrameId.index =
      if k < chain.depth then some (chain.currentIndex - k) else none := by
  have hdepth : chain.depth = chain.currentIndex + 1 := rfl
  induction k with
  | zero => exact congrArg some (index_currentId h)
  | succ k ih =>
      rw [Function.iterate_succ_apply']
      cases hid : (Option.bind · fun id => chain.parentId? id.index)^[k] (some chain.currentId) with
      | none =>
          rw [hid, Option.map_none] at ih
          rw [if_neg fun hk => by simp [show k < chain.depth by omega] at ih]
          rfl
      | some id =>
          rw [hid, Option.map_some] at ih
          obtain ⟨hk, hindex⟩ := Option.ite_none_right_eq_some.mp ih.symm
          rw [Option.bind_some, ← Option.some.inj hindex, index_parentId? h (by omega)]
          by_cases hlast : k + 1 < chain.depth
          · rw [if_neg (by omega), if_pos hlast]
            rfl
          · rw [if_pos (by omega), if_neg hlast]

end FrameIds

section Start

variable (core : Core) (steps : List Step)

theorem core_run (chain : Chain) : (chain.run steps).core = chain.core := by
  induction steps generalizing chain with
  | nil => rfl
  | cons step steps ih =>
      change ((chain.after step).run steps).core = _
      rw [ih]
      cases step with
      | push kind => rfl
      | pop =>
          obtain ⟨core, current, enclosing, linked⟩ := chain
          cases enclosing <;> rfl
      | define symbol => rfl

theorem reverse_kinds_run_ofCore :
    ((ofCore core).run steps).kinds.reverse = .module :: unmatchedPushes steps := by
  have hroot : max 1 ((ofCore core).depth - unmatchedPops steps) = 1 :=
    Nat.max_eq_left (Nat.sub_le _ _)
  rw [reverse_kinds_run, hroot]
  rfl

theorem depth_run_ofCore :
    ((ofCore core).run steps).depth = 1 + (unmatchedPushes steps).length := by
  rw [← length_kinds, ← List.length_reverse, reverse_kinds_run_ofCore, List.length_cons,
    Nat.add_comm]

theorem findAt_run_ofCore (index : Nat) (name : String) :
    ((ofCore core).run steps).findAt index name = latest (held 0 steps) index name := by
  have hnone : (ofCore core).findAt index name = none := by
    cases index with
    | zero => rfl
    | succ index => exact findAt_eq_none (Nat.succ_pos index) name
  rw [findAt_run, hnone, ite_self, Option.or_none]
  rfl

end Start

/-- A chain of up to `2 ^ 32` frames is a stack of environments. After any changes its frames are
the module and the unmatched entries, linked by their references. A name means the last definition
of it that the innermost frame with such a definition holds, or else a built-in. It has no meaning
exactly if it is not visible, and then only visible names other than it are suggested. -/
theorem run_refines_stack (core : Core) (steps : List Step)
    (hsteps : (unmatchedPushes steps).length < UInt32.size) :
    let chain := (ofCore core).run steps
    let definitions := held 0 steps
    chain.depth = 1 + (unmatchedPushes steps).length ∧
    (∀ i, chain.kind? i = (FrameKind.module :: unmatchedPushes steps)[i]?) ∧
    (∀ i < chain.depth,
      (chain.parentId? i).map FrameId.index = if i = 0 then none else some (i - 1)) ∧
    (∀ k, ((Option.bind · fun id => chain.parentId? id.index)^[k] (some chain.currentId)).map
        FrameId.index =
      if k < chain.depth then some (chain.depth - 1 - k) else none) ∧
    (∀ name symbol index, chain.lookupById name = some (.symbol symbol index) ↔
      latest definitions index name = some symbol ∧
        ∀ d ∈ definitions, d.symbol.name = name → d.frame ≤ index) ∧
    (∀ name builtin, chain.lookupById name = some (.builtin builtin) ↔
      builtin = name ∧ core.contains name ∧ ∀ d ∈ definitions, d.symbol.name ≠ name) ∧
    (∀ name, chain.lookupById name = none ↔
      ¬core.contains name ∧ ∀ d ∈ definitions, d.symbol.name ≠ name) ∧
    (∀ name, (∃ e, chain.getById name = .error e) ↔ name ∉ chain.visibleNames) ∧
    (∀ name e, chain.getById name = .error e → ∃ suggestions, e = .unresolved name suggestions ∧
      ∀ suggestion ∈ suggestions, (chain.lookupById suggestion).isSome ∧ suggestion ≠ name) := by
  intro chain definitions
  have hkinds : chain.kinds.reverse = .module :: unmatchedPushes steps :=
    reverse_kinds_run_ofCore core steps
  have hcore : chain.core = core := core_run steps (ofCore core)
  have hdepth : chain.depth = 1 + (unmatchedPushes steps).length := depth_run_ofCore core steps
  have hsize : chain.depth ≤ UInt32.size := by omega
  have hfind (index : Nat) (name : String) :
      chain.findAt index name = latest definitions index name :=
    findAt_run_ofCore core steps index name
  have hundefined (name : String) :
      (∀ j, chain.findAt j name = none) ↔ ∀ d ∈ definitions, d.symbol.name ≠ name := by
    simp only [hfind, latest_eq_none_iff]
    constructor
    · exact fun h d hd hname => h d.frame d hd hname rfl
    · exact fun h _ d hd hname => absurd hname (h d hd)
  simp only [lookupById_eq hsize, getById_eq hsize]
  refine ⟨hdepth, ?_, fun i hi => index_parentId? hsize hi, parentId?_iterate hsize, ?_, ?_, ?_, ?_,
    ?_⟩
  · intro i
    rw [← hkinds, kinds, ← List.map_reverse, List.getElem?_map]
    rfl
  · intro name symbol index
    rw [lookup_eq_symbol_iff, hfind]
    apply and_congr_right'
    simp only [hfind, latest_eq_none_iff]
    constructor
    · intro h d hd hname
      by_contra hinner
      exact h d.frame (Nat.lt_of_not_le hinner) d hd hname rfl
    · rintro h j hj d hd hname rfl
      exact absurd (h d hd hname) (Nat.not_le_of_lt hj)
  · intro name builtin
    rw [lookup_eq_builtin_iff, hcore, hundefined]
  · intro name
    rw [lookup_eq_none_iff, hcore, hundefined]
  · intro name
    rw [← lookup_isSome_iff]
    simp [get_eq_error_iff]
  · intro name e he
    obtain ⟨_, rfl⟩ := get_eq_error_iff.mp he
    refine ⟨_, rfl, fun suggestion hsuggestion => ?_⟩
    obtain ⟨hvisible, hne⟩ := Suggestion.mem_of_mem_suggest hsuggestion
    exact ⟨lookup_isSome_iff.mpr hvisible, hne⟩

/-- After a block was left, a lambda gets the number of the block's frame and none of its
definitions. -/
theorem run_refines_stack_reused :
    let steps : List Step :=
      [.pop, .define ⟨"x", 0⟩, .push .block, .define ⟨"x", 1⟩, .pop, .push .lambda,
        .define ⟨"value", 2⟩]
    let chain := (ofCore (.ofNames ["print"])).run steps
    (unmatchedPushes steps).length < UInt32.size ∧ chain.depth = 2 ∧
      (chain.parentId? 1).map FrameId.index = some 0 ∧
      chain.lookupById "x" = some (.symbol ⟨"x", 0⟩ 0) ∧
      chain.lookupById "value" = some (.symbol ⟨"value", 2⟩ 1) ∧
      chain.lookupById "print" = some (.builtin "print") ∧
      ∃ e suggestions, chain.getById "valeu" = .error e ∧ e = .unresolved "valeu" suggestions ∧
        ∀ suggestion ∈ suggestions, (chain.lookupById suggestion).isSome ∧
          suggestion ≠ "valeu" := by
  intro steps chain
  have hsteps : (unmatchedPushes steps).length < UInt32.size := by decide
  obtain ⟨hdepth, _, hparent, _, hsymbol, hbuiltin, _, hget, hsuggestions⟩ :=
    run_refines_stack (.ofNames ["print"]) steps hsteps
  refine ⟨hsteps, hdepth, hparent 1 (by decide), (hsymbol _ _ _).mpr (by decide),
    (hsymbol _ _ _).mpr (by decide), (hbuiltin _ _).mpr (by decide), ?_⟩
  obtain ⟨e, he⟩ := (hget "valeu").mpr (by decide)
  obtain ⟨suggestions, heq, hresolve⟩ := hsuggestions _ _ he
  exact ⟨e, suggestions, he, heq, hresolve⟩

section Overflow

variable (kind : FrameKind) (symbol : Symbol) (n : Nat)

theorem unmatchedPushes_replicate :
    unmatchedPushes (List.replicate n (.push kind) ++ [.define symbol]) =
      List.replicate n kind := by
  have hpops : ∀ n, unmatchedPops (List.replicate n (.push kind) ++ [.define symbol]) = 0 := by
    intro n
    induction n with
    | zero => rfl
    | succ n ih => rw [List.replicate_succ, List.cons_append, unmatchedPops, ih]
  induction n with
  | zero => rfl
  | succ n ih =>
      rw [List.replicate_succ, List.cons_append, unmatchedPushes, if_pos (hpops n), ih,
        List.replicate_succ]

theorem held_replicate (index : Nat) :
    held index (List.replicate n (.push kind) ++ [.define symbol]) = [⟨symbol, index + n⟩] := by
  induction n generalizing index with
  | zero => exact if_pos (.inr rfl)
  | succ n ih =>
      rw [List.replicate_succ, List.cons_append, held, ih, Nat.add_right_comm, Nat.add_assoc]

end Overflow

/-- With one frame more than there are references the innermost frame is taken for the outermost
one. So a name that is defined in it is not found, though it is visible. -/
theorem run_exceeds_frameIds :
    let steps : List Step := List.replicate UInt32.size (.push .block) ++ [.define ⟨"x", 0⟩]
    let chain := (ofCore (.ofNames [])).run steps
    latest (held 0 steps) UInt32.size "x" = some ⟨"x", 0⟩ ∧
      (∀ d ∈ held 0 steps, d.frame ≤ UInt32.size) ∧
      chain.lookupById "x" = none ∧ "x" ∈ chain.visibleNames ∧
        ∃ e, chain.getById "x" = .error e := by
  intro steps chain
  have hheld : held 0 steps = [⟨⟨"x", 0⟩, UInt32.size⟩] := by rw [held_replicate, Nat.zero_add]
  have hfind (index : Nat) :
      chain.findAt index "x" = latest [⟨⟨"x", 0⟩, UInt32.size⟩] index "x" := by
    rw [← hheld]
    exact findAt_run_ofCore (.ofNames []) steps index "x"
  have hlatest : latest [⟨⟨"x", 0⟩, UInt32.size⟩] UInt32.size "x" = some ⟨"x", 0⟩ := by decide
  have hothers : ∀ j ≠ UInt32.size, chain.findAt j "x" = none := by
    intro j hj
    rw [hfind, latest_eq_none_iff]
    simpa using hj.symm
  have hindex : chain.currentIndex = UInt32.size := by
    have hdepth : chain.depth = 1 + (unmatchedPushes steps).length :=
      depth_run_ofCore (.ofNames []) steps
    rw [unmatchedPushes_replicate, List.length_replicate] at hdepth
    change chain.currentIndex + 1 = _ at hdepth
    omega
  have hlookup : chain.lookupById "x" = none := by
    have hcore : chain.core = .ofNames [] := core_run steps (ofCore (.ofNames []))
    have hfrom : chain.findFrom "x" 0 = none := by
      refine (findFrom_eq_none_iff (Nat.zero_le _)).mpr fun j hj => hothers j ?_
      rw [Nat.le_zero.mp hj]
      decide
    rw [lookupById, currentId, hindex]
    change chain.lookupFrom "x" 0 = none
    rw [lookupFrom, hfrom, hcore]
    rfl
  refine ⟨hheld ▸ hlatest, by simp [hheld], hlookup, ?_, ?_⟩
  · have hvisible : chain.lookup "x" = some (.symbol ⟨"x", 0⟩ UInt32.size) :=
      lookup_eq_symbol_iff.mpr ⟨(hfind _).trans hlatest, fun j hj => hothers j (Nat.ne_of_gt hj)⟩
    exact lookup_isSome_iff.mp (by rw [hvisible]; rfl)
  · rw [getById, hlookup]
    exact ⟨_, rfl⟩

end LambdaLift.Chain
