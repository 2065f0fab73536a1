import LambdaLift.Proofs.Subterms
import LambdaLift.Scope.Resolution

/-!
# Lexical scope

What a symbol means, said from its place alone. All terms of a module are numbered in preorder. A
scope is the module, a block or a lambda. It owns the assignments that it is the nearest scope
around, and a lambda owns its parameters too. A symbol means what the nearest scope around it owns
of its name, and only assignments with smaller numbers count; where no scope owns the name, it means
a built-in.
-/

namespace LambdaLift

/-- A scope: its number, which is zero for the module, and the parameters it owns. -/
structure Scope where
  site : Nat
  params : List Symbol
deriving DecidableEq, Repr

/-- A term with its number and the scopes around it, the nearest first. -/
structure Node where
  site : Nat
  term : Term
  scopes : List Scope

/-- An occurrence of a symbol and the scopes around it, the nearest first. -/
structure Site where
  symbol : Symbol
  scopes : List Scope
deriving DecidableEq, Repr

/-- The symbols in a parameter list, the first parameter of which has number `site`. -/
def paramSymbols (site : Nat) : List Term → List Symbol
  | [] => []
  | .symbol name :: params => ⟨name, site⟩ :: paramSymbols (site + 1) params
  | param :: params => paramSymbols (site + param.size) params

namespace Term

/-- The scopes around the parts of a term. -/
def innerScopes (site : Nat) (scopes : List Scope) : Term → List Scope
  | lambda body params => ⟨site, paramSymbols (site + 1 + body.size) params⟩ :: scopes
  | block _ => ⟨site, []⟩ :: scopes
  | _ => scopes

mutual

/-- All terms in a term with a given number, in preorder. -/
def nodes (site : Nat) (scopes : List Scope) : Term → List Node
  | module name body => ⟨site, module name body, scopes⟩ :: nodesAll (site + 1) scopes body
  | symbol name => [⟨site, symbol name, scopes⟩]
  | integer value => [⟨site, integer value, scopes⟩]
  | lambda body params =>
    let inner := innerScopes site scopes (lambda body params)
    ⟨site, lambda body params, scopes⟩ ::
      (nodes (site + 1) inner body ++ nodesAll (site + 1 + body.size) inner params)
  | apply callee args =>
    ⟨site, apply callee args, scopes⟩ ::
      (nodes (site + 1) scopes callee ++ nodesAll (site + 1 + callee.size) scopes args)
  | block body =>
    ⟨site, block body, scopes⟩ :: nodesAll (site + 1) (innerScopes site scopes (block body)) body
  | assign target value =>
    ⟨site, assign target value, scopes⟩ ::
      (nodes (site + 1) scopes target ++ nodes (site + 1 + target.size) scopes value)

/-- All terms in a list of terms, the first one of which has number `site`. -/
def nodesAll (site : Nat) (scopes : List Scope) : List Term → List Node
  | [] => []
  | t :: ts => nodes site scopes t ++ nodesAll (site + t.size) scopes ts

end

theorem nodes_eq (site : Nat) (scopes : List Scope) (t : Term) :
    t.nodes site scopes =
      ⟨site, t, scopes⟩ :: nodesAll (site + 1) (t.innerScopes site scopes) t.children := by
  cases t <;> simp [nodes, nodesAll, innerScopes, children]

theorem nodesAll_cons (site : Nat) (scopes : List Scope) (t : Term) (ts : List Term) :
    nodesAll site scopes (t :: ts) =
      ⟨site, t, scopes⟩ :: (nodesAll (site + 1) (t.innerScopes site scopes) t.children ++
        nodesAll (site + t.size) scopes ts) := by
  rw [nodesAll, nodes_eq, List.cons_append]

/-- Where a term binds names, it has symbols. -/
def BindsSymbols : Term → Prop
  | lambda _ params => ∀ param ∈ params, ∃ name, param = symbol name
  | assign target _ => ∃ name, target = symbol name
  | _ => True

/-- Terms are numbered from the first to the last without a gap. -/
theorem map_site_nodesAll (ts : List Term) : ∀ site scopes,
    (nodesAll site scopes ts).map Node.site = List.range' site (sizes ts) := by
  induction ts using forestInduction with
  | nil => exact fun _ _ => rfl
  | cons t ts ihparts ihrest =>
      intro site scopes
      rw [nodesAll_cons, List.map_cons, List.map_append, ihparts, ihrest, sizes, size_eq]
      calc site :: (List.range' (site + 1) (sizes t.children) ++
            List.range' (site + (1 + sizes t.children)) (sizes ts))
          = site :: List.range' (site + 1) (sizes t.children + sizes ts) := by
            rw [← Nat.add_assoc, List.range'_append_1]
        _ = List.range' site (1 + sizes t.children + sizes ts) := by
            rw [Nat.add_assoc, Nat.add_comm 1, List.range'_succ]

/-- The scopes around the parts of a term are the term or around it. -/
theorem site_lt_of_mem_innerScopes {site : Nat} {scopes : List Scope} {t : Term}
    (hscopes : ∀ c ∈ scopes, c.site < site) :
    ∀ c ∈ t.innerScopes site scopes, c.site < site + 1 := by
  have houter : ∀ c ∈ scopes, c.site < site + 1 := fun c hc => Nat.lt_succ_of_lt (hscopes c hc)
  cases t with
  | lambda body params => exact List.forall_mem_cons.mpr ⟨Nat.lt_succ_self site, houter⟩
  | block body => exact List.forall_mem_cons.mpr ⟨Nat.lt_succ_self site, houter⟩
  | _ => exact houter

/-- A term inside terms is the first one of them, or inside it, or inside one of the others. -/
@[elab_as_elim]
theorem nodesAll_induction {P : Nat → List Scope → List Term → Node → Prop}
    (self : ∀ site scopes t ts, P site scopes (t :: ts) ⟨site, t, scopes⟩)
    (part : ∀ site scopes t ts node,
      node ∈ nodesAll (site + 1) (t.innerScopes site scopes) t.children →
      P (site + 1) (t.innerScopes site scopes) t.children node → P site scopes (t :: ts) node)
    (rest : ∀ site scopes t ts node, node ∈ nodesAll (site + t.size) scopes ts →
      P (site + t.size) scopes ts node → P site scopes (t :: ts) node)
    {site : Nat} {scopes : List Scope} {ts : List Term} {node : Node}
    (h : node ∈ nodesAll site scopes ts) :
    P site scopes ts node := by
  induction ts using forestInduction generalizing site scopes node with
  | nil => cases h
  | cons t ts ihparts ihrest =>
      rw [nodesAll_cons] at h
      rcases List.mem_cons.mp h with rfl | h
      · exact self site scopes t ts
      · rcases List.mem_append.mp h with h | h
        · exact part site scopes t ts node h (ihparts h)
        · exact rest site scopes t ts node h (ihrest h)

section Inside

variable {site : Nat} {scopes : List Scope} {ts : List Term} {node : Node}

/-- The scopes around a term have smaller numbers than the term. -/
theorem site_lt_of_mem_nodesAll (h : node ∈ nodesAll site scopes ts) :
    (∀ c ∈ scopes, c.site < site) → ∀ c ∈ node.scopes, c.site < node.site := by
  refine nodesAll_induction ?_ ?_ ?_ h
  · exact fun _ _ _ _ hscopes => hscopes
  · intro site scopes t ts node _ ih hscopes
    exact ih (site_lt_of_mem_innerScopes hscopes)
  · intro site scopes t ts node _ ih hscopes
    exact ih fun c hc => Nat.lt_add_right _ (hscopes c hc)

theorem term_mem_postorderAll (h : node ∈ nodesAll site scopes ts) :
    node.term ∈ postorderAll ts := by
  refine nodesAll_induction ?_ ?_ ?_ h
  · exact fun _ _ t _ => mem_postorderAll List.mem_cons_self (mem_postorder_self t)
  · exact fun _ _ _ _ _ _ ih => mem_postorderAll_of_children ih
  · exact fun _ _ _ _ _ _ ih => mem_postorderAll_of_tail ih

theorem suffix_innerScopes (t : Term) (site : Nat) (scopes : List Scope) :
    scopes <:+ t.innerScopes site scopes := by
  cases t with
  | lambda body params => exact List.suffix_cons _ scopes
  | block body => exact List.suffix_cons _ scopes
  | _ => exact List.suffix_refl scopes

/-- The scopes around terms are around all terms inside them. -/
theorem scopes_suffix_of_mem_nodesAll (h : node ∈ nodesAll site scopes ts) :
    scopes <:+ node.scopes := by
  refine nodesAll_induction ?_ ?_ ?_ h
  · exact fun _ scopes _ _ => List.suffix_refl scopes
  · intro site scopes t ts node _ ih
    exact (t.suffix_innerScopes site scopes).trans ih
  · exact fun _ _ _ _ _ _ ih => ih

end Inside

end Term

/-- The symbol that a term assigns to, if the term is an assignment to `name` that `scope` owns. -/
def Node.assigned? (scope : Scope) (name : String) (node : Node) : Option Symbol :=
  match node.term, node.scopes with
  | .assign (.symbol x) _, c :: _ =>
    if c.site = scope.site ∧ x = name then some ⟨x, node.site + 1⟩ else none
  | _, _ => none

/-- The occurrence that a term is, if it is a symbol. -/
def Node.site? (node : Node) : Option Site :=
  match node.term with
  | .symbol name => some ⟨⟨name, node.site⟩, node.scopes⟩
  | _ => none

/-- The occurrences of symbols among terms. -/
def sites (nodes : List Node) : List Site := nodes.filterMap Node.site?

/-- What a scope owns of a name before the number `before`: the last of the assignments with smaller
numbers, and otherwise the last parameter. -/
def owned? (nodes : List Node) (scope : Scope) (name : String) (before : Nat) : Option Symbol :=
  (((nodes.filter (·.site < before)).filterMap (Node.assigned? scope name)).getLast?).or
    (scope.params.filter (·.name = name)).getLast?

/-- What a symbol can mean. -/
inductive Referent where
  | builtin (name : String)
  | symbol (symbol : Symbol)
deriving DecidableEq, Repr

/-- What an occurrence means: what the nearest scope with its name owns, or a built-in. -/
def referent? (nodes : List Node) (core : Core) (s : Site) : Option Referent :=
  match s.scopes.findSome? fun c => owned? nodes c s.symbol.name s.symbol.site with
  | some symbol => some (.symbol symbol)
  | none => if core.contains s.symbol.name then some (.builtin s.symbol.name) else none

/-- Whether a scope is a lambda. -/
def Scope.isLambda (nodes : List Node) (scope : Scope) : Bool :=
  nodes.any fun node => node.site = scope.site && node.term.isLambda

/-- Whether the nearest scope that owns a name lies outside the nearest lambda. -/
def capturedIn (nodes : List Node) (name : String) (before : Nat) : List Scope → Bool
  | [] => false
  | scope :: scopes =>
    if (owned? nodes scope name before).isSome then false
    else if scope.isLambda nodes then scopes.any fun c => (owned? nodes c name before).isSome
    else capturedIn nodes name before scopes

namespace Module

/-- All terms of a module in preorder. The module itself has number zero and is the outermost
scope. -/
def nodes (m : Module) : List Node := Term.nodesAll 1 [⟨0, []⟩] m.body

/-- The occurrences of symbols in a module, in the order of their numbers. -/
def sites (m : Module) : List Site := LambdaLift.sites m.nodes

/-- What an occurrence of a symbol in a module means. -/
def referent? (m : Module) (core : Core) (s : Site) : Option Referent :=
  LambdaLift.referent? m.nodes core s

/-- In a module, all parameters and all targets of assignments are symbols. -/
def BindsSymbols (m : Module) : Prop := ∀ node ∈ m.nodes, node.term.BindsSymbols

end Module

/-- Terms in the order of their numbers, with scopes around them that have smaller numbers. -/
structure Numbered (nodes : List Node) : Prop where
  sorted : nodes.Pairwise fun a b => a.site < b.site
  scopes_lt : ∀ node ∈ nodes, ∀ c ∈ node.scopes, c.site < node.site

theorem Module.numbered (m : Module) : Numbered m.nodes where
  sorted := by
    have hrange : (m.nodes.map Node.site).Pairwise (· < ·) := by
      rw [Module.nodes, Term.map_site_nodesAll]
      exact List.pairwise_lt_range'
    exact List.pairwise_map.mp hrange
  scopes_lt := fun _ hnode => Term.site_lt_of_mem_nodesAll hnode (by simp)

theorem Module.site_pos (m : Module) {node : Node} (hnode : node ∈ m.nodes) : 0 < node.site := by
  have hmem : node.site ∈ m.nodes.map Node.site := List.mem_map_of_mem hnode
  rw [Module.nodes, Term.map_site_nodesAll] at hmem
  exact (List.mem_range'_1.mp hmem).1

/-- The outermost scope is no lambda. -/
theorem Module.isLambda_outermost (m : Module) : Scope.isLambda m.nodes ⟨0, []⟩ = false := by
  apply List.any_eq_false.mpr
  intro node hnode
  have hpos := m.site_pos hnode
  simp [Nat.ne_of_gt hpos]

namespace Numbered

variable {nodes : List Node} (h : Numbered nodes)

include h

/-- A term is known by its number. -/
theorem eq_of_site_eq {a b : Node} (ha : a ∈ nodes) (hb : b ∈ nodes) (hsite : a.site = b.site) :
    a = b := by
  obtain ⟨front, back, hnodes⟩ := List.append_of_mem ha
  have hsorted := h.sorted
  rw [hnodes, List.pairwise_append] at hsorted
  obtain ⟨_, hback, hfront⟩ := hsorted
  rw [hnodes] at hb
  rcases List.mem_append.mp hb with hb | hb
  · have hlt := hfront b hb a List.mem_cons_self
    omega
  · rcases List.mem_cons.mp hb with rfl | hb
    · rfl
    · have hlt := (List.pairwise_cons.mp hback).1 b hb
      omega

/-- The scope of a term is a lambda exactly if the term is one. -/
theorem isLambda_eq {node : Node} (hnode : node ∈ nodes) {scope : Scope}
    (hsite : scope.site = node.site) :
    scope.isLambda nodes = node.term.isLambda := by
  apply Bool.eq_iff_iff.mpr
  simp only [Scope.isLambda, List.any_eq_true, Bool.and_eq_true, decide_eq_true_eq]
  constructor
  · rintro ⟨other, hother, hnumber, hlambda⟩
    obtain rfl := h.eq_of_site_eq hother hnode (hnumber.trans hsite)
    exact hlambda
  · intro hlambda
    exact ⟨node, hnode, hsite.symm, hlambda⟩

/-- The terms before a number are those before the term with that number. -/
theorem filter_site_lt {front back : List Node} {node : Node}
    (hnodes : nodes = front ++ node :: back) :
    nodes.filter (·.site < node.site) = front ∧
      nodes.filter (·.site < node.site + 1) = front ++ [node] := by
  have hsorted := h.sorted
  rw [hnodes, List.pairwise_append] at hsorted
  obtain ⟨_, hnode, hfront⟩ := hsorted
  have hlt : ∀ a ∈ front, a.site < node.site := fun a ha => hfront a ha node List.mem_cons_self
  have hgt : ∀ b ∈ back, node.site < b.site := (List.pairwise_cons.mp hnode).1
  have hsplit (n : Nat) (hn : node.site ≤ n) (hn' : n ≤ node.site + 1) :
      nodes.filter (·.site < n) = front ++ [node].filter (·.site < n) := by
    have hall : front.filter (·.site < n) = front :=
      List.filter_eq_self.mpr fun a ha => decide_eq_true (Nat.lt_of_lt_of_le (hlt a ha) hn)
    have hnone : back.filter (·.site < n) = [] :=
      List.filter_eq_nil_iff.mpr fun b hb => by
        have hb := hgt b hb
        simp only [decide_eq_true_eq]
        omega
    rw [hnodes, List.filter_append, List.filter_cons, hall, hnone]
    by_cases hsite : node.site < n <;> simp [hsite]
  constructor
  · simpa using hsplit node.site (Nat.le_refl _) (Nat.le_succ _)
  · simpa using hsplit (node.site + 1) (Nat.le_succ _) (Nat.le_refl _)

/-- Past a term, its scope owns what it assigns. -/
theorem owned?_succ {node : Node} (hnode : node ∈ nodes) (scope : Scope) (name : String) :
    owned? nodes scope name (node.site + 1) =
      (node.assigned? scope name).or (owned? nodes scope name node.site) := by
  obtain ⟨front, back, hnodes⟩ := List.append_of_mem hnode
  obtain ⟨hbefore, hpast⟩ := h.filter_site_lt hnodes
  rw [owned?, owned?, hbefore, hpast, List.filterMap_append, List.getLast?_append, Option.or_assoc]
  cases hassigned : node.assigned? scope name <;> simp [hassigned]

/-- At its start, a scope owns nothing but its parameters. -/
theorem owned?_start (scope : Scope) (name : String) :
    owned? nodes scope name (scope.site + 1) =
      (scope.params.filter (·.name = name)).getLast? := by
  have hnone : (nodes.filter (·.site < scope.site + 1)).filterMap (Node.assigned? scope name) =
      [] := by
    rw [List.filterMap_eq_nil_iff]
    intro node hnode
    obtain ⟨hmem, hlt⟩ := List.mem_filter.mp hnode
    have hscopes := h.scopes_lt node hmem
    unfold Node.assigned?
    split
    · rename_i c _ _ hcons
      have hc : c.site < node.site := hscopes c (by simp [hcons])
      simp only [decide_eq_true_eq] at hlt
      rw [if_neg (by omega)]
    · rfl
  rw [owned?, hnone]
  rfl

end Numbered

end LambdaLift
