import LambdaLift.Proofs.Places

/-!
# Scopes and subtrees

The terms inside a term have the numbers from that of the term on, as many as there are. So a scope
around a term is the same as a block or a lambda with the number of the term among its own, and
scopes that share their number share what is around them.
-/

namespace LambdaLift

/-- A number is that of a term or of one inside it. -/
def Node.Contains (node : Node) (site : Nat) : Prop :=
  node.site ≤ site ∧ site < node.site + node.term.size

/-- A term is the first one of `scopes`, and the others are around it. -/
structure Node.Opens (node : Node) (scopes : List Scope) : Prop where
  inner : node.term.innerScopes node.site node.scopes = scopes
  outer : node.scopes = scopes.tail

namespace Term

variable {site : Nat} {scopes : List Scope} {ts : List Term} {node x : Node}

theorem bounds_of_mem_nodesAll (h : node ∈ nodesAll site scopes ts) :
    site ≤ node.site ∧ node.site + node.term.size ≤ site + sizes ts := by
  refine nodesAll_induction ?_ ?_ ?_ h
  · intro site scopes t ts
    simp only [sizes]
    omega
  · intro site scopes t ts node _ ih
    rw [sizes, t.size_eq]
    omega
  · intro site scopes t ts node _ ih
    rw [sizes]
    omega

theorem nodesAll_part_subset (t : Term) (ts : List Term) (site : Nat) (scopes : List Scope) :
    nodesAll (site + 1) (t.innerScopes site scopes) t.children ⊆
      nodesAll site scopes (t :: ts) := by
  rw [nodesAll_cons]
  exact List.subset_cons_of_subset _ (List.subset_append_left _ _)

/-- The terms inside a term that is inside others are inside these too. -/
theorem nodesAll_children_subset (h : node ∈ nodesAll site scopes ts) :
    nodesAll (node.site + 1) (node.term.innerScopes node.site node.scopes) node.term.children ⊆
      nodesAll site scopes ts := by
  refine nodesAll_induction ?_ ?_ ?_ h
  · exact fun site scopes t ts => nodesAll_part_subset t ts site scopes
  · exact fun site scopes t ts _ _ ih =>
      List.Subset.trans ih (nodesAll_part_subset t ts site scopes)
  · intro site scopes t ts node _ ih
    rw [nodesAll]
    exact List.subset_append_of_subset_right _ ih

theorem innerScopes_eq_or (t : Term) (site : Nat) (scopes : List Scope) :
    t.innerScopes site scopes = scopes ∨
      ∃ params, t.innerScopes site scopes = ⟨site, params⟩ :: scopes := by
  cases t with
  | lambda body params => exact .inr ⟨_, rfl⟩
  | block body => exact .inr ⟨_, rfl⟩
  | _ => exact .inl rfl

/-- A scope around a term inside others is around all of these, or it is one of the terms inside
them. -/
theorem exists_opens {c : Scope} {outer : List Scope} (h : x ∈ nodesAll site scopes ts) :
    c :: outer <:+ x.scopes → c :: outer <:+ scopes ∨
      ∃ node ∈ nodesAll site scopes ts, node.Opens (c :: outer) ∧ node.Contains x.site := by
  refine nodesAll_induction ?_ ?_ ?_ h
  · exact fun _ _ _ _ hsuffix => .inl hsuffix
  · intro site scopes t ts x hx ih hsuffix
    rcases ih hsuffix with hinner | ⟨node, hnode, hopens⟩
    · rcases t.innerScopes_eq_or site scopes with heq | ⟨params, heq⟩
      · rw [heq] at hinner
        exact .inl hinner
      · rw [heq, List.suffix_cons_iff] at hinner
        rcases hinner with hself | houter
        · -- The scope is the first term itself.
          have hbounds := bounds_of_mem_nodesAll hx
          have hsize := t.size_eq
          have hxsize := x.term.size_eq
          refine .inr ⟨⟨site, t, scopes⟩, ?_, ⟨heq.trans hself.symm, ?_⟩, ?_, ?_⟩
          · rw [nodesAll_cons]
            exact List.mem_cons_self
          · rw [hself]
            rfl
          · exact Nat.le_of_succ_le hbounds.1
          · simp only
            omega
        · exact .inl houter
    · exact .inr ⟨node, nodesAll_part_subset t ts site scopes hnode, hopens⟩
  · intro site scopes t ts x _ ih hsuffix
    rcases ih hsuffix with houter | ⟨node, hnode, hopens⟩
    · exact .inl houter
    · refine .inr ⟨node, ?_, hopens⟩
      rw [nodesAll]
      exact List.mem_append_right _ hnode

end Term

theorem Node.Opens.site_eq {node : Node} {c : Scope} {outer : List Scope}
    (h : node.Opens (c :: outer)) :
    node.site = c.site := by
  obtain ⟨hinner, houter⟩ := h
  rcases node.term.innerScopes_eq_or node.site node.scopes with heq | ⟨params, heq⟩
  · rw [heq, houter] at hinner
    exact absurd hinner.symm (List.cons_ne_self c outer)
  · rw [heq] at hinner
    exact congrArg Scope.site (List.cons.inj hinner).1

namespace Module

variable {m : Module} {node x y : Node} {c d : Scope} {outer outer' : List Scope}

/-- The terms with numbers inside a term are inside it. -/
theorem mem_of_contains (hnode : node ∈ m.nodes) (hx : x ∈ m.nodes)
    (hcontains : node.Contains x.site) (hne : node.site ≠ x.site) :
    x ∈ Term.nodesAll (node.site + 1)
      (node.term.innerScopes node.site node.scopes) node.term.children := by
  have hsite : x.site ∈ (Term.nodesAll (node.site + 1) (node.term.innerScopes node.site node.scopes)
      node.term.children).map Node.site := by
    rw [Term.map_site_nodesAll, List.mem_range'_1]
    obtain ⟨hfirst, hlast⟩ := hcontains
    rw [node.term.size_eq] at hlast
    omega
  obtain ⟨y, hy, hsite⟩ := List.mem_map.mp hsite
  obtain rfl := m.numbered.eq_of_site_eq (Term.nodesAll_children_subset hnode hy) hx hsite
  exact hy

/-- The scopes around the parts of a term are around all terms inside it. -/
theorem innerScopes_suffix (hnode : node ∈ m.nodes) (hx : x ∈ m.nodes)
    (hcontains : node.Contains x.site) (hne : node.site ≠ x.site) :
    node.term.innerScopes node.site node.scopes <:+ x.scopes :=
  Term.scopes_suffix_of_mem_nodesAll (mem_of_contains hnode hx hcontains hne)

/-- A scope around a term is the module or a term around it. -/
theorem opens_of_suffix (hx : x ∈ m.nodes) (h : c :: outer <:+ x.scopes) :
    c = ⟨0, []⟩ ∧ outer = [] ∨ ∃ node ∈ m.nodes, node.Opens (c :: outer) ∧
      node.Contains x.site := by
  rcases Term.exists_opens hx h with houtermost | hopens
  · left
    rcases List.suffix_cons_iff.mp houtermost with heq | hnil
    · exact List.cons.inj heq
    · cases List.suffix_nil.mp hnil
  · exact .inr hopens

/-- The scopes around a scope have smaller numbers. -/
theorem site_lt_of_suffix (hx : x ∈ m.nodes) (h : c :: outer <:+ x.scopes) :
    ∀ d ∈ outer, d.site < c.site := by
  intro d hd
  rcases opens_of_suffix hx h with ⟨_, rfl⟩ | ⟨node, hnode, hopens, _⟩
  · cases hd
  · rw [← hopens.site_eq]
    apply m.numbered.scopes_lt node hnode
    rw [hopens.outer]
    exact hd

/-- A scope is known by its number, with all that is around it. -/
theorem scopes_eq_of_site_eq (hx : x ∈ m.nodes) (hy : y ∈ m.nodes) (hc : c :: outer <:+ x.scopes)
    (hd : d :: outer' <:+ y.scopes) (hsite : c.site = d.site) : c :: outer = d :: outer' := by
  rcases opens_of_suffix hx hc with ⟨rfl, rfl⟩ | ⟨node, hnode, hopens, _⟩
  · rcases opens_of_suffix hy hd with ⟨rfl, rfl⟩ | ⟨node', hnode', hopens', _⟩
    · rfl
    · have hpos := m.site_pos hnode'
      rw [hopens'.site_eq, ← hsite] at hpos
      cases hpos
  · rcases opens_of_suffix hy hd with ⟨rfl, rfl⟩ | ⟨node', hnode', hopens', _⟩
    · have hpos := m.site_pos hnode
      rw [hopens.site_eq, hsite] at hpos
      cases hpos
    · have hsites : node.site = node'.site := by rw [hopens.site_eq, hsite, hopens'.site_eq]
      obtain rfl := m.numbered.eq_of_site_eq hnode hnode' hsites
      exact hopens.inner.symm.trans hopens'.inner

end Module

end LambdaLift
