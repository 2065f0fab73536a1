import LambdaLift.Proofs.Nesting
import LambdaLift.Proofs.Resolution

/-!
# Where captured symbols are

Whether an occurrence of a symbol is captured is read off the numbers of terms: it is if the
innermost lambda around the occurrence does not contain the symbol that it means. Occurrences that
bind a name mean a symbol of the scope they are in, so they are never captured.
-/

namespace LambdaLift

/-- A lambda is the innermost one around a number: it is inside all others around the number. -/
structure Module.InnermostLambda (m : Module) (lambda : Node) (site : Nat) : Prop where
  mem : lambda ∈ m.nodes
  isLambda : lambda.term.isLambda
  contains : lambda.Contains site
  innermost : ∀ other ∈ m.nodes, other.term.isLambda → other.Contains site →
    other.Contains lambda.site

section CapturedIn

variable {nodes : List Node} {name : String} {before : Nat}

/-- A name that no scope owns is not captured. -/
theorem capturedIn_of_unowned {scopes : List Scope}
    (h : ∀ c ∈ scopes, owned? nodes c name before = none) :
    capturedIn nodes name before scopes = false := by
  induction scopes with
  | nil => rfl
  | cons c scopes ih =>
      obtain ⟨hc, hscopes⟩ := List.forall_mem_cons.mp h
      have hany : (scopes.any fun c => (owned? nodes c name before).isSome) = false :=
        List.any_eq_false.mpr fun d hd => by simp [hscopes d hd]
      simp [capturedIn, hc, hany, ih hscopes]

/-- A name is captured exactly if a lambda is nearer than the nearest scope that owns the name. -/
theorem capturedIn_append {inner outer : List Scope} {c : Scope}
    (hc : (owned? nodes c name before).isSome)
    (hinner : ∀ d ∈ inner, owned? nodes d name before = none) :
    capturedIn nodes name before (inner ++ c :: outer) = inner.any (Scope.isLambda nodes) := by
  induction inner with
  | nil => simp [capturedIn, hc]
  | cons d inner ih =>
      obtain ⟨hd, hinner⟩ := List.forall_mem_cons.mp hinner
      rw [List.cons_append, capturedIn, hd, List.any_cons]
      cases hlambda : d.isLambda nodes with
      | false => simp [ih hinner]
      | true => simp [hc]

end CapturedIn

/-- The symbols of a parameter list are among its terms. -/
theorem mem_nodesAll_of_mem_paramSymbols {symbol : Symbol} {first : Nat} {params : List Term}
    (h : symbol ∈ paramSymbols first params) (scopes : List Scope) :
    ⟨symbol.site, .symbol symbol.name, scopes⟩ ∈ Term.nodesAll first scopes params := by
  fun_induction paramSymbols first params with
  | case1 first => cases h
  | case2 first name params ih =>
      rw [Term.nodesAll]
      rcases List.mem_cons.mp h with rfl | h
      · exact List.mem_append_left _ List.mem_cons_self
      · exact List.mem_append_right _ (ih h)
  | case3 first param params _ ih =>
      rw [Term.nodesAll]
      exact List.mem_append_right _ (ih h)

namespace Node

variable {node : Node} {symbol : Symbol} {c : Scope}

/-- What a term assigns to is bound by it, and the nearest scope around it owns this. -/
theorem assigned?_eq_some {name : String} (h : node.assigned? c name = some symbol) :
    symbol ∈ node.term.boundNames node.site ∧
      ∃ d outer, node.scopes = d :: outer ∧
        node.term.innerScopes node.site node.scopes = d :: outer ∧
        d.site = c.site := by
  obtain ⟨site, term, scopes⟩ := node
  unfold assigned? at h
  split at h
  · rename_i x value d outer hterm hscopes
    simp only at hterm hscopes
    subst hterm hscopes
    simp only [Option.ite_none_right_eq_some, Option.some.injEq] at h
    obtain ⟨⟨hsite, _⟩, rfl⟩ := h
    exact ⟨List.mem_singleton.mpr rfl, d, outer, rfl, rfl, hsite⟩
  · cases h

theorem Opens.mem_boundNames {outer : List Scope} (h : node.Opens (c :: outer))
    (hparam : symbol ∈ c.params) :
    symbol ∈ node.term.boundNames node.site := by
  obtain ⟨hinner, houter⟩ := h
  obtain ⟨site, term, scopes⟩ := node
  cases term with
  | lambda body params =>
      cases hinner
      exact hparam
  | block body =>
      cases hinner
      cases hparam
  | _ =>
      rw [List.tail_cons] at houter
      exact absurd (hinner.symm.trans houter) (List.cons_ne_self c outer)

end Node

namespace Module

variable {m : Module} {node x : Node} {symbol : Symbol}

/-- The symbols that a term binds are terms inside it, in the scope of the term. -/
theorem mem_nodes_of_mem_boundNames (hnode : node ∈ m.nodes)
    (h : symbol ∈ node.term.boundNames node.site) :
    ⟨symbol.site, .symbol symbol.name, node.term.innerScopes node.site node.scopes⟩ ∈ m.nodes := by
  apply Term.nodesAll_children_subset hnode
  obtain ⟨site, term, scopes⟩ := node
  cases term with
  | lambda body params => exact List.mem_append_right _ (mem_nodesAll_of_mem_paramSymbols h _)
  | assign target value =>
      cases target with
      | symbol name =>
          obtain rfl := List.mem_singleton.mp h
          exact List.mem_cons_self
      | _ => cases h
  | _ => cases h

theorem scopes_ne_nil (hnode : node ∈ m.nodes) : node.scopes ≠ [] := by
  intro hnil
  have hsuffix := Term.scopes_suffix_of_mem_nodesAll hnode
  rw [hnil] at hsuffix
  cases List.suffix_nil.mp hsuffix

/-- What a scope owns is a symbol in this scope and in none inside it. -/
theorem mem_nodes_of_owned? {c : Scope} {outer : List Scope} {name : String} {before : Nat}
    (hx : x ∈ m.nodes) (hc : c :: outer <:+ x.scopes)
    (h : owned? m.nodes c name before = some symbol) :
    ⟨symbol.site, .symbol symbol.name, c :: outer⟩ ∈ m.nodes := by
  rcases Option.or_eq_some_iff.mp h with hassigned | ⟨_, hparam⟩
  · obtain ⟨node, hnode, hassigned⟩ := List.mem_filterMap.mp (List.mem_of_getLast? hassigned)
    have hnode := (List.mem_filter.mp hnode).1
    obtain ⟨hbound, d, outer', hscopes, hinner, hsite⟩ := Node.assigned?_eq_some hassigned
    have hmem := mem_nodes_of_mem_boundNames hnode hbound
    have hsuffix : d :: outer' <:+ node.scopes := ⟨[], hscopes.symm⟩
    rwa [hinner, scopes_eq_of_site_eq hnode hx hsuffix hc hsite] at hmem
  · have hparam := (List.mem_filter.mp (List.mem_of_getLast? hparam)).1
    rcases opens_of_suffix hx hc with ⟨rfl, _⟩ | ⟨node, hnode, hopens, _⟩
    · cases hparam
    · have hmem := mem_nodes_of_mem_boundNames hnode (hopens.mem_boundNames hparam)
      rwa [hopens.inner] at hmem

section Lambdas

variable {lambda : Node}

/-- A term with the number of a scope around another term contains that term. -/
theorem contains_of_mem_scopes {c : Scope} (hnode : node ∈ m.nodes) (hx : x ∈ m.nodes)
    (hc : c ∈ x.scopes) (hsite : c.site = node.site) : node.Contains x.site := by
  obtain ⟨inner, outer, hscopes⟩ := List.append_of_mem hc
  rcases opens_of_suffix hx ⟨inner, hscopes.symm⟩ with ⟨rfl, _⟩ |
    ⟨opener, hopener, hopens, hcontains⟩
  · have hpos := m.site_pos hnode
    rw [← hsite] at hpos
    cases hpos
  · obtain rfl := m.numbered.eq_of_site_eq hopener hnode (hopens.site_eq.trans hsite)
    exact hcontains

/-- A lambda contains another term exactly if it is a scope around that term. -/
theorem contains_iff_mem_scopes (hlambda : lambda ∈ m.nodes) (hisLambda : lambda.term.isLambda)
    (hx : x ∈ m.nodes) (hother : x.term.isLambda = false) :
    lambda.Contains x.site ↔ ∃ c ∈ x.scopes, c.site = lambda.site := by
  constructor
  · intro hcontains
    have hne : lambda.site ≠ x.site := by
      intro hsite
      obtain rfl := m.numbered.eq_of_site_eq hlambda hx hsite
      cases hother.symm.trans hisLambda
    have hsuffix := innerScopes_suffix hlambda hx hcontains hne
    obtain ⟨site, term, scopes⟩ := lambda
    cases term with
    | lambda body params => exact ⟨_, hsuffix.subset List.mem_cons_self, rfl⟩
    | _ => cases hisLambda
  · rintro ⟨c, hc, hsite⟩
    exact contains_of_mem_scopes hlambda hx hc hsite

/-- The nearest lambda among the scopes around a term is the innermost one around it. -/
theorem exists_innermostLambda {inner outer : List Scope} {d : Scope} (hx : x ∈ m.nodes)
    (hother : x.term.isLambda = false) (hscopes : x.scopes = inner ++ d :: outer)
    (hd : d.isLambda m.nodes) (hinner : ∀ c ∈ inner, c.isLambda m.nodes = false) :
    ∃ lambda, m.InnermostLambda lambda x.site ∧ lambda.site = d.site := by
  rcases opens_of_suffix hx ⟨inner, hscopes.symm⟩ with ⟨rfl, _⟩ |
    ⟨lambda, hlambda, hopens, hcontains⟩
  · rw [m.isLambda_outermost] at hd
    cases hd
  · have hsite : lambda.site = d.site := hopens.site_eq
    rw [m.numbered.isLambda_eq hlambda hsite.symm] at hd
    refine ⟨lambda, ⟨hlambda, hd, hcontains, ?_⟩, hsite⟩
    intro other hmem hlambda' hcontains'
    obtain ⟨c, hc, hcsite⟩ := (contains_iff_mem_scopes hmem hlambda' hx hother).mp hcontains'
    rw [hscopes] at hc
    rcases List.mem_append.mp hc with hc | hc
    · have hnone := hinner c hc
      rw [m.numbered.isLambda_eq hmem hcsite] at hnone
      cases hnone.symm.trans hlambda'
    · rcases List.mem_cons.mp hc with rfl | hc
      · have hsize := other.term.size_eq
        rw [hsite, hcsite]
        exact ⟨Nat.le_refl _, by omega⟩
      · apply contains_of_mem_scopes hmem hlambda _ hcsite
        rw [hopens.outer]
        exact hc

/-- A name is captured exactly if the innermost lambda around it does not contain the symbol that it
means. -/
theorem capturedIn_iff {name : String} {before : Nat} (hx : x ∈ m.nodes)
    (hother : x.term.isLambda = false)
    (h : x.scopes.findSome? (fun c => owned? m.nodes c name before) = some symbol) :
    capturedIn m.nodes name before x.scopes = true ↔
      ∃ lambda, m.InnermostLambda lambda x.site ∧ ¬lambda.Contains symbol.site := by
  obtain ⟨inner, c, outer, hscopes, hc, hinner⟩ := List.findSome?_eq_some_iff.mp h
  have hsuffix : c :: outer <:+ x.scopes := ⟨inner, hscopes.symm⟩
  have hsymbol := mem_nodes_of_owned? hx hsuffix hc
  rw [hscopes, capturedIn_append (Option.isSome_of_eq_some hc) hinner]
  constructor
  · intro hany
    obtain ⟨d, hd⟩ : ∃ d, inner.find? (Scope.isLambda m.nodes) = some d := by
      rw [← Option.isSome_iff_exists, List.find?_isSome]
      simpa using hany
    obtain ⟨hlambda, near, far, rfl, hnear⟩ := List.find?_eq_some_iff_append.mp hd
    rw [List.append_assoc] at hscopes
    obtain ⟨lambda, hinnermost, hsite⟩ :=
      exists_innermostLambda hx hother hscopes hlambda (by simpa using hnear)
    refine ⟨lambda, hinnermost, ?_⟩
    -- The scopes around the symbol have smaller numbers than the lambda.
    intro hcontains
    obtain ⟨e, he, hesite⟩ :=
      (contains_iff_mem_scopes hinnermost.mem hinnermost.isLambda hsymbol rfl).mp hcontains
    have hlt := site_lt_of_suffix hx ⟨near, hscopes.symm⟩ e (List.mem_append_right _ he)
    omega
  · rintro ⟨lambda, hinnermost, houtside⟩
    obtain ⟨d, hd, hsite⟩ :=
      (contains_iff_mem_scopes hinnermost.mem hinnermost.isLambda hx hother).mp hinnermost.contains
    rw [hscopes] at hd
    rcases List.mem_append.mp hd with hd | hd
    · apply List.any_eq_true.mpr
      exact ⟨d, hd, by rw [m.numbered.isLambda_eq hinnermost.mem hsite]; exact hinnermost.isLambda⟩
    · exact absurd (contains_of_mem_scopes hinnermost.mem hsymbol hd hsite) houtside

end Lambdas

/-- A symbol that a term binds is owned by the scope it is in, where it stands. -/
theorem capturedIn_of_mem_boundNames (hnode : node ∈ m.nodes)
    (h : symbol ∈ node.term.boundNames node.site) :
    capturedIn m.nodes symbol.name symbol.site (node.term.innerScopes node.site node.scopes) =
      false := by
  obtain ⟨site, term, scopes⟩ := node
  cases term with
  | lambda body params =>
      have hparam : ((paramSymbols (site + 1 + body.size) params).filter
          (·.name = symbol.name)).getLast?.isSome := by
        rw [List.getLast?_isSome]
        exact List.ne_nil_of_mem (List.mem_filter.mpr ⟨h, decide_eq_true rfl⟩)
      apply if_pos
      rw [owned?, Option.isSome_or, hparam, Bool.or_true]
  | assign target value =>
      cases target with
      | symbol name =>
          obtain rfl := List.mem_singleton.mp h
          obtain ⟨c, outer, rfl⟩ := List.exists_cons_of_ne_nil (scopes_ne_nil hnode)
          apply if_pos
          change (owned? m.nodes c name (site + 1)).isSome
          rw [m.numbered.owned?_succ hnode, Option.isSome_or]
          simp [Node.assigned?]
      | _ => cases h
  | _ => cases h

/-- What an occurrence means comes from the nearest scope that owns its name, or no scope owns
it. -/
theorem referent?_cases {core : Core} {s : Site} {binding : Binding}
    (h : m.referent? core s = some binding.referent) :
    (∃ symbol frame, binding = .symbol symbol frame ∧
      s.scopes.findSome? (fun c => owned? m.nodes c s.symbol.name s.symbol.site) = some symbol) ∨
    binding = .builtin s.symbol.name ∧
      ∀ c ∈ s.scopes, owned? m.nodes c s.symbol.name s.symbol.site = none := by
  unfold Module.referent? LambdaLift.referent? at h
  cases hfound : s.scopes.findSome? fun c => owned? m.nodes c s.symbol.name s.symbol.site with
  | some symbol =>
      rw [hfound] at h
      cases binding with
      | builtin name => cases h
      | symbol bound frame =>
          cases h
          exact .inl ⟨symbol, frame, rfl, rfl⟩
  | none =>
      simp only [hfound, Option.ite_none_right_eq_some, Option.some.injEq] at h
      cases binding with
      | builtin name =>
          cases h.2
          exact .inr ⟨rfl, List.findSome?_eq_none_iff.mp hfound⟩
      | symbol bound frame => cases h.2

/-- A resolution is one of an occurrence in the module, and tells what this means and whether it is
captured. -/
theorem exists_node_of_resolution {core : Core} {events events' : List Event} {rs : List Resolution}
    (h : m.resolve core events = .ok rs events') {r : Resolution} (hr : r ∈ rs) :
    ∃ x ∈ m.nodes, x.site = r.site.site ∧ x.term = .symbol r.site.name ∧
      m.referent? core ⟨r.site, x.scopes⟩ = some r.binding.referent ∧
      r.captured = capturedIn m.nodes r.site.name r.site.site x.scopes := by
  have hmem := List.mem_map_of_mem (f := fun r => (r.site, some r.binding.referent, r.captured)) hr
  rw [tells_of_resolve h] at hmem
  obtain ⟨s, hs, htells⟩ := List.mem_map.mp hmem
  obtain ⟨⟨site, term, scopes⟩, hx, hsite⟩ := List.mem_filterMap.mp hs
  cases term with
  | symbol name =>
      cases hsite
      obtain ⟨hsymbol, hreferent, hcaptured⟩ := Prod.mk.inj htells |>.imp_right Prod.mk.inj
      rw [← hsymbol]
      exact ⟨_, hx, rfl, rfl, hreferent, hcaptured.symm⟩
  | _ => cases hsite

/-- In a module that is resolved, an occurrence is captured exactly if it means a symbol that the
innermost lambda around the occurrence does not contain. Parameters and targets of assignments are
never captured. -/
theorem captured_iff_outside_innermost_lambda {core : Core} {events events' : List Event}
    {rs : List Resolution} (h : m.resolve core events = .ok rs events') :
    ∀ r ∈ rs,
      (r.captured = true ↔ ∃ symbol frame, r.binding = .symbol symbol frame ∧
        ∃ lambda, m.InnermostLambda lambda r.site.site ∧ ¬lambda.Contains symbol.site) ∧
      ∀ node ∈ m.nodes, r.site ∈ node.term.boundNames node.site → r.captured = false := by
  intro r hr
  obtain ⟨x, hx, hsite, hterm, hreferent, hcaptured⟩ := exists_node_of_resolution h hr
  constructor
  · rw [hcaptured, ← hsite]
    rcases referent?_cases hreferent with ⟨symbol, frame, hbinding, hfound⟩ | ⟨hbuiltin, hunowned⟩
    · rw [← hsite] at hfound
      rw [capturedIn_iff hx (congrArg Term.isLambda hterm) hfound]
      constructor
      · intro houtside
        exact ⟨symbol, frame, hbinding, houtside⟩
      · rintro ⟨_, _, hsymbol, houtside⟩
        cases hbinding.symm.trans hsymbol
        exact houtside
    · rw [← hsite] at hunowned
      rw [capturedIn_of_unowned hunowned]
      constructor
      · intro hfalse
        cases hfalse
      · rintro ⟨_, _, hsymbol, _⟩
        cases hbuiltin.symm.trans hsymbol
  · intro node hnode hbound
    have hmem := mem_nodes_of_mem_boundNames hnode hbound
    obtain rfl := m.numbered.eq_of_site_eq hx hmem hsite
    rw [hcaptured]
    exact capturedIn_of_mem_boundNames hnode hbound

/-- In `(x z) => { y = x; (z) => add (x y z) }` both `x` and `y` are captured by the inner lambda,
and the outer one captures nothing. -/
theorem captured_iff_outside_innermost_lambda_nested :
    let m : Module := ⟨"m", [.lambda (.block [.assign (.symbol "y") (.symbol "x"),
      .lambda (.apply (.symbol "add") [.symbol "x", .symbol "y", .symbol "z"]) [.symbol "z"]])
        [.symbol "x", .symbol "z"]]⟩
    ∃ rs events, m.resolve (.ofNames ["add"]) [] = .ok rs events ∧
      (rs.filter (·.captured)).map (·.site) = [⟨"x", 9⟩, ⟨"y", 10⟩] ∧
      ∀ r ∈ rs, r.captured = true ↔ ∃ symbol frame, r.binding = .symbol symbol frame ∧
        ∃ lambda, m.InnermostLambda lambda r.site.site ∧ ¬lambda.Contains symbol.site := by
  intro m
  let rs : List Resolution :=
    [⟨⟨"y", 4⟩, .symbol ⟨"y", 4⟩ 2, false⟩, ⟨⟨"x", 5⟩, .symbol ⟨"x", 13⟩ 1, false⟩,
    ⟨⟨"add", 8⟩, .builtin "add", false⟩, ⟨⟨"x", 9⟩, .symbol ⟨"x", 13⟩ 1, true⟩,
    ⟨⟨"y", 10⟩, .symbol ⟨"y", 4⟩ 2, true⟩, ⟨⟨"z", 11⟩, .symbol ⟨"z", 12⟩ 3, false⟩,
    ⟨⟨"z", 12⟩, .symbol ⟨"z", 12⟩ 3, false⟩, ⟨⟨"x", 13⟩, .symbol ⟨"x", 13⟩ 1, false⟩,
    ⟨⟨"z", 14⟩, .symbol ⟨"z", 14⟩ 1, false⟩]
  obtain ⟨events, hresolve⟩ : ∃ events, m.resolve (.ofNames ["add"]) [] = .ok rs events := by
    apply exists_eq_ok_of_value
    decide +kernel
  refine ⟨rs, events, hresolve, rfl, ?_⟩
  intro r hr
  exact (captured_iff_outside_innermost_lambda hresolve r hr).1

end Module

end LambdaLift
