import LambdaLift.Proofs.FrameOrder
import LambdaLift.Proofs.Walks
import Mathlib.Data.List.Basic

/-!
# Places in a walk

A walk enters terms in preorder and calls its visitor in postorder. Here the terms inside a term are
listed in postorder, each with the frames that are open around it, and of the terms in preorder
those are singled out that define a name in the frame that a walk starts in: the assignments outside
all blocks and lambdas.
-/

namespace LambdaLift

/-- A term in a walk: its number, and the kinds of the blocks and lambdas from it outward, itself
included. -/
structure Place where
  site : Nat
  term : Term
  frames : List FrameKind

namespace Term

/-- The kinds of the frames around the parts of a term. -/
def innerFrames (frames : List FrameKind) (t : Term) : List FrameKind :=
  t.frameKind?.toList ++ frames

mutual

/-- The places in a term with a given number, in postorder. -/
def places (site : Nat) (frames : List FrameKind) : Term → List Place
  | module name body => placesAll (site + 1) frames body ++ [⟨site, module name body, frames⟩]
  | symbol name => [⟨site, symbol name, frames⟩]
  | integer value => [⟨site, integer value, frames⟩]
  | lambda body params =>
    places (site + 1) (.lambda :: frames) body ++
      placesAll (site + 1 + body.size) (.lambda :: frames) params ++
      [⟨site, lambda body params, .lambda :: frames⟩]
  | apply callee args =>
    places (site + 1) frames callee ++ placesAll (site + 1 + callee.size) frames args ++
      [⟨site, apply callee args, frames⟩]
  | block body =>
    placesAll (site + 1) (.block :: frames) body ++ [⟨site, block body, .block :: frames⟩]
  | assign target value =>
    places (site + 1) frames target ++ places (site + 1 + target.size) frames value ++
      [⟨site, assign target value, frames⟩]

/-- The places in a list of terms, the first one of which has number `site`. -/
def placesAll (site : Nat) (frames : List FrameKind) : List Term → List Place
  | [] => []
  | t :: ts => places site frames t ++ placesAll (site + t.size) frames ts

end

theorem places_eq (site : Nat) (frames : List FrameKind) (t : Term) :
    t.places site frames =
      placesAll (site + 1) (t.innerFrames frames) t.children ++
        [⟨site, t, t.innerFrames frames⟩] := by
  cases t <;> simp [places, placesAll, innerFrames, children, frameKind?]

/-- Every term inside terms is at one place. -/
theorem placesAll_perm (ts : List Term) : ∀ site frames scopes,
    ((placesAll site frames ts).map fun p => (p.site, p.term)).Perm
      ((nodesAll site scopes ts).map fun node => (node.site, node.term)) := by
  induction ts using forestInduction with
  | nil => exact fun _ _ _ => .refl _
  | cons t ts ihparts ihrest =>
      intro site frames scopes
      have hparts := ihparts (site + 1) (t.innerFrames frames) (t.innerScopes site scopes)
      have hrest := ihrest (site + t.size) frames scopes
      rw [placesAll, places_eq, nodesAll, nodes_eq, List.map_append, List.map_append,
        List.map_append]
      exact ((List.perm_append_singleton _ _).trans (hparts.cons _)).append hrest

theorem places_perm (t : Term) (site : Nat) (frames : List FrameKind) (scopes : List Scope) :
    ((t.places site frames).map fun p => (p.site, p.term)).Perm
      ((t.nodes site scopes).map fun node => (node.site, node.term)) := by
  have hperm := placesAll_perm [t] site frames scopes
  rwa [placesAll, placesAll, nodesAll, nodesAll, List.append_nil, List.append_nil] at hperm

theorem nodup_map_site_places (t : Term) (site : Nat) (frames : List FrameKind) :
    ((t.places site frames).map Place.site).Nodup := by
  have hperm : ((t.places site frames).map Place.site).Perm ((t.nodes site []).map Node.site) := by
    have hperm := (t.places_perm site frames []).map Prod.fst
    rwa [List.map_map, List.map_map] at hperm
  have hnumbers : (t.nodes site []).map Node.site = List.range' site (sizes [t]) := by
    rw [← map_site_nodesAll [t] site [], nodesAll, nodesAll, List.append_nil]
  rw [hperm.nodup_iff, hnumbers]
  exact List.nodup_range'

/-- The numbers of terms in a list, the first one of which has number `site`. -/
def partSites (site : Nat) : List Term → List Nat
  | [] => []
  | t :: ts => site :: partSites (site + t.size) ts

theorem innerScopes_of_unframed {t : Term} (h : t.frameKind? = none) (site : Nat)
    (scopes : List Scope) :
    t.innerScopes site scopes = scopes := by
  cases t with
  | lambda body params => cases h
  | block body => cases h
  | _ => rfl

theorem length_innerScopes_of_framed {t : Term} {kind : FrameKind} (h : t.frameKind? = some kind)
    (site : Nat) (scopes : List Scope) :
    (t.innerScopes site scopes).length = scopes.length + 1 := by
  cases t with
  | lambda body params => rfl
  | block body => rfl
  | _ => cases h

/-- The names that a term binds if it has symbols there. -/
def boundNames (site : Nat) : Term → List Symbol
  | lambda body params => paramSymbols (site + 1 + body.size) params
  | assign (symbol name) _ => [⟨name, site + 1⟩]
  | _ => []

end Term

/-- What a term defines directly in the innermost one of `scopes`: the target, if the term is an
assignment with just these scopes around it. -/
def Node.target? (scopes : List Scope) (node : Node) : Option Symbol :=
  match node.term with
  | .assign (.symbol name) _ => if node.scopes = scopes then some ⟨name, node.site + 1⟩ else none
  | _ => none

/-- What terms define directly in the innermost one of `scopes`, in their order. -/
def targets (scopes : List Scope) (nodes : List Node) : List Symbol :=
  nodes.filterMap (Node.target? scopes)

theorem targets_append (scopes : List Scope) (nodes nodes' : List Node) :
    targets scopes (nodes ++ nodes') = targets scopes nodes ++ targets scopes nodes' :=
  List.filterMap_append

section Targets

variable {t : Term} {site : Nat} {scopes : List Scope} {entered : List Node}

theorem Node.target?_eq_none {node : Node} (h : node.scopes ≠ scopes) :
    node.target? scopes = none := by
  unfold Node.target?
  split
  · exact if_neg h
  · rfl

/-- A term without a frame of its own defines what it binds, and its parts define the rest. -/
theorem targets_of_unframed (h : t.frameKind? = none) :
    targets scopes (⟨site, t, scopes⟩ :: entered) = t.boundNames site ++
      targets scopes entered := by
  have hself : (Node.target? scopes ⟨site, t, scopes⟩).toList = t.boundNames site := by
    cases t with
    | lambda body params => cases h
    | block body => cases h
    | assign target value =>
        cases target with
        | symbol name => simp [Node.target?, Term.boundNames]
        | _ => rfl
    | _ => rfl
  rw [targets, List.filterMap_cons, ← hself]
  cases Node.target? scopes ⟨site, t, scopes⟩ with
  | none => rfl
  | some symbol => rfl

/-- A term with a frame of its own defines nothing outside, and neither do its parts. -/
theorem targets_of_framed {kind : FrameKind} (h : t.frameKind? = some kind)
    (hentered : ∀ node ∈ entered,
      node ∈ Term.nodesAll (site + 1) (t.innerScopes site scopes) t.children) :
    targets scopes (⟨site, t, scopes⟩ :: entered) = [] := by
  apply List.filterMap_eq_nil_iff.mpr
  intro node hnode
  rcases List.mem_cons.mp hnode with rfl | hnode
  · cases t with
    | lambda body params => rfl
    | block body => rfl
    | _ => cases h
  · apply Node.target?_eq_none
    intro hscopes
    have hinner := (Term.scopes_suffix_of_mem_nodesAll (hentered node hnode)).length_le
    rw [Term.length_innerScopes_of_framed h, hscopes] at hinner
    omega

end Targets

namespace Chain

/-- Enters the frame of a term, if the term has one. -/
def enter (chain : Chain) (t : Term) : Chain :=
  match t.frameKind? with
  | some kind => chain.push kind
  | none => chain

/-- Leaves the frame of a term, if the term has one. -/
def leave (chain : Chain) (t : Term) : Chain :=
  match t.frameKind? with
  | some _ => chain.pop
  | none => chain

theorem kinds_enter (chain : Chain) (t : Term) :
    (chain.enter t).kinds = t.innerFrames chain.kinds := by
  unfold enter Term.innerFrames
  cases t.frameKind? with
  | none => rfl
  | some kind => rfl

/-- Once a term is left, what it and some of its parts define directly is left of what is defined in
between. -/
theorem leave_foldl_define {chain : Chain} {t : Term} {site : Nat} {scopes : List Scope}
    {entered : List Node}
    (hentered : ∀ node ∈ entered,
      node ∈ Term.nodesAll (site + 1) (t.innerScopes site scopes) t.children) :
    ((targets (t.innerScopes site scopes) entered).foldl define
        ((t.boundNames site).foldl define (chain.enter t))).leave t =
      (targets scopes (⟨site, t, scopes⟩ :: entered)).foldl define chain := by
  rw [← List.foldl_append, enter, leave]
  cases h : t.frameKind? with
  | none => rw [targets_of_unframed h, Term.innerScopes_of_unframed h]
  | some kind =>
      rw [targets_of_framed h hentered]
      exact pop_foldl_define _ chain kind

end Chain

end LambdaLift
