import LambdaLift.Proofs.CapturePositions
import LambdaLift.Proofs.Strays

/-!
# Occurrences that bind names

Parameters and targets of assignments are resolved where they stand, like all other occurrences. An
assignment defines its target right before the target is resolved, so that a target means itself. A
lambda defines its parameters before its body is walked and resolves them afterwards: until then a
later parameter or an assignment in the body can take the name, and then the parameter means that
one.
-/

namespace LambdaLift

/-- A lambda gives the name of a parameter away before the parameter is resolved: to a later
parameter, or to the target of an assignment that the lambda is the nearest scope around. -/
def Module.Rebinds (m : Module) (lambda : Node) (param : Symbol) : Prop :=
  (∃ later ∈ lambda.term.boundNames lambda.site, later.name = param.name ∧
    param.site < later.site) ∨
    ∃ node ∈ m.nodes, ∃ value, node.term = .assign (.symbol param.name) value ∧
      node.scopes.head?.map Scope.site = some lambda.site

/-- Of the symbols with one name, one is the last exactly if none has a larger number. -/
theorem getLast?_filter_name_iff {symbols : List Symbol}
    (hsorted : symbols.Pairwise fun a b => a.site < b.site)
    {symbol : Symbol} (h : symbol ∈ symbols) :
    (symbols.filter (·.name = symbol.name)).getLast? = some symbol ↔
      ¬∃ later ∈ symbols, later.name = symbol.name ∧ symbol.site < later.site := by
  obtain ⟨front, back, rfl⟩ := List.append_of_mem h
  obtain ⟨_, hback, hfront⟩ := List.pairwise_append.mp hsorted
  have hlast : ((front ++ symbol :: back).filter (·.name = symbol.name)).getLast? =
      some ((back.filter (·.name = symbol.name)).getLast?.getD symbol) := by
    rw [List.filter_append, List.filter_cons_of_pos (by simp), List.getLast?_append,
      List.getLast?_cons]
    rfl
  rw [hlast, Option.some.injEq]
  constructor
  · rintro heq ⟨later, hmem, hname, hlt⟩
    rcases List.mem_append.mp hmem with hmem | hmem
    · have hbefore := hfront later hmem symbol List.mem_cons_self
      omega
    · rcases List.mem_cons.mp hmem with rfl | hmem
      · omega
      · -- Then the last one of the name comes after `symbol`.
        have hne : back.filter (·.name = symbol.name) ≠ [] :=
          List.ne_nil_of_mem (List.mem_filter.mpr ⟨hmem, decide_eq_true hname⟩)
        obtain ⟨last, hlast⟩ := Option.isSome_iff_exists.mp (List.getLast?_isSome.mpr hne)
        have hafter :=
          (List.pairwise_cons.mp hback).1 last (List.mem_filter.mp (List.mem_of_getLast? hlast)).1
        rw [hlast, Option.getD_some] at heq
        rw [heq] at hafter
        omega
  · intro hnone
    have hnil : back.filter (·.name = symbol.name) = [] := by
      apply List.filter_eq_nil_iff.mpr
      intro later hlater hname
      have hafter := (List.pairwise_cons.mp hback).1 later hlater
      exact hnone ⟨later, by simp [hlater], of_decide_eq_true hname, hafter⟩
    rw [hnil]
    rfl

/-- The symbols of a parameter list come in the order of their numbers. -/
theorem pairwise_paramSymbols (first : Nat) (params : List Term) :
    (paramSymbols first params).Pairwise fun a b => a.site < b.site := by
  fun_induction paramSymbols first params with
  | case1 first => exact .nil
  | case2 first name params ih =>
      refine .cons (fun symbol hsymbol => ?_) ih
      exact (Term.bounds_of_mem_nodesAll (mem_nodesAll_of_mem_paramSymbols hsymbol [])).1
  | case3 first param params _ ih => exact ih

theorem Node.assigned?_eq_some_iff {node : Node} {c : Scope} {name : String} {symbol : Symbol} :
    node.assigned? c name = some symbol ↔ ∃ value, node.term = .assign (.symbol name) value ∧
      node.scopes.head?.map Scope.site = some c.site ∧ symbol = ⟨name, node.site + 1⟩ := by
  constructor
  · intro h
    unfold Node.assigned? at h
    split at h
    · rename_i x value d outer hterm hscopes
      simp only [Option.ite_none_right_eq_some, Option.some.injEq] at h
      obtain ⟨⟨hsite, rfl⟩, rfl⟩ := h
      exact ⟨value, hterm, by simp [hscopes, hsite], rfl⟩
    · cases h
  · rintro ⟨value, hterm, hsite, rfl⟩
    obtain ⟨d, hd, hdsite⟩ := Option.map_eq_some_iff.mp hsite
    obtain ⟨outer, hscopes⟩ := List.head?_eq_some_iff.mp hd
    simp [Node.assigned?, hterm, hscopes, hdsite]

/-- Parameters that are symbols hold no other term. -/
theorem term_eq_symbol_of_mem_params {first : Nat} {scopes : List Scope} {params : List Term}
    (hparams : ∀ param ∈ params, ∃ name, param = .symbol name) {x : Node}
    (hx : x ∈ Term.nodesAll first scopes params) : ∃ name, x.term = .symbol name := by
  obtain ⟨names, rfl⟩ := Term.exists_symbols hparams
  have hterm := Term.term_mem_postorderAll hx
  rw [Term.postorderAll_symbols] at hterm
  obtain ⟨name, _, hname⟩ := List.mem_map.mp hterm
  exact ⟨name, hname.symm⟩

namespace Module

variable {m : Module} {site : Nat} {scopes : List Scope} {body : Term} {params : List Term}
  {symbol : Symbol}

/-- An assignment that a lambda is the nearest scope around stands in the body of the lambda. -/
theorem assign_before_params (hlambda : ⟨site, .lambda body params, scopes⟩ ∈ m.nodes)
    (hparams : ∀ param ∈ params, ∃ name, param = .symbol name) {x : Node} (hx : x ∈ m.nodes)
    {target value : Term} (hterm : x.term = .assign target value)
    (hscope : x.scopes.head?.map Scope.site = some site) :
    x.site + 1 < site + 1 + body.size := by
  obtain ⟨c, hc, hsite⟩ := Option.map_eq_some_iff.mp hscope
  have hcontains := contains_of_mem_scopes hlambda hx (List.mem_of_head? hc) hsite
  have hne : site ≠ x.site := by
    intro heq
    obtain rfl := m.numbered.eq_of_site_eq hlambda hx heq
    cases hterm
  rcases List.mem_append.mp (mem_of_contains hlambda hx hcontains hne) with hbody | hrest
  · have hbounds := Term.bounds_of_mem_nodesAll
      (show x ∈ Term.nodesAll (site + 1) _ [body] from List.mem_append_left _ hbody)
    have htarget := target.size_eq
    rw [hterm, Term.size, Term.sizes, Term.sizes] at hbounds
    omega
  · obtain ⟨name, hname⟩ := term_eq_symbol_of_mem_params hparams hrest
    cases hterm.symm.trans hname

/-- Where a parameter stands, its lambda owns the name, and owns it as this parameter exactly if the
name was not given away. -/
theorem owned?_param (hlambda : ⟨site, .lambda body params, scopes⟩ ∈ m.nodes)
    (hparams : ∀ param ∈ params, ∃ name, param = .symbol name)
    (hsymbol : symbol ∈ paramSymbols (site + 1 + body.size) params) :
    ∃ s, owned? m.nodes ⟨site, paramSymbols (site + 1 + body.size) params⟩ symbol.name symbol.site =
      some s ∧
      (s = symbol ↔ ¬m.Rebinds ⟨site, .lambda body params, scopes⟩ symbol) := by
  generalize hscope : Scope.mk site (paramSymbols (site + 1 + body.size) params) = c
  have hcsite : c.site = site := by rw [← hscope]
  have hcparams : c.params = paramSymbols (site + 1 + body.size) params := by rw [← hscope]
  have hfirst : site + 1 + body.size ≤ symbol.site :=
    (Term.bounds_of_mem_nodesAll (mem_nodesAll_of_mem_paramSymbols hsymbol [])).1
  rw [owned?, hcparams]
  cases hassigned : ((m.nodes.filter (·.site < symbol.site)).filterMap
      (Node.assigned? c symbol.name)).getLast? with
  | some s =>
      refine ⟨s, rfl, ?_⟩
      obtain ⟨node, hnode, hsome⟩ := List.mem_filterMap.mp (List.mem_of_getLast? hassigned)
      have hnode := (List.mem_filter.mp hnode).1
      obtain ⟨value, hterm, hhead, rfl⟩ := Node.assigned?_eq_some_iff.mp hsome
      rw [hcsite] at hhead
      have hlt := assign_before_params hlambda hparams hnode hterm hhead
      apply iff_of_false
      · intro heq
        have hsite : node.site + 1 = symbol.site := congrArg Symbol.site heq
        omega
      · exact fun hnot => hnot (.inr ⟨node, hnode, value, hterm, hhead⟩)
  | none =>
      -- No assignment is left, so that the parameters decide.
      have hnone : ¬∃ node ∈ m.nodes, ∃ value, node.term = .assign (.symbol symbol.name) value ∧
          node.scopes.head?.map Scope.site = some site := by
        rintro ⟨node, hnode, value, hterm, hhead⟩
        have hlt := assign_before_params hlambda hparams hnode hterm hhead
        have hsome : node.assigned? c symbol.name = some ⟨symbol.name, node.site + 1⟩ :=
          Node.assigned?_eq_some_iff.mpr ⟨value, hterm, by rw [hcsite, hhead], rfl⟩
        rw [List.getLast?_eq_none_iff, List.filterMap_eq_nil_iff] at hassigned
        have hbefore : node ∈ m.nodes.filter (·.site < symbol.site) :=
          List.mem_filter.mpr ⟨hnode, decide_eq_true (by omega)⟩
        cases (hassigned node hbefore).symm.trans hsome
      have hne : (paramSymbols (site + 1 + body.size) params).filter (·.name = symbol.name) ≠ [] :=
        List.ne_nil_of_mem (List.mem_filter.mpr ⟨hsymbol, decide_eq_true rfl⟩)
      obtain ⟨s, hs⟩ := Option.isSome_iff_exists.mp (List.getLast?_isSome.mpr hne)
      refine ⟨s, by rw [Option.none_or, hs], ?_⟩
      calc s = symbol
          ↔ ((paramSymbols (site + 1 + body.size) params).filter (·.name = symbol.name)).getLast? =
              some symbol := by rw [hs, Option.some.injEq]
        _ ↔ ¬∃ later ∈ paramSymbols (site + 1 + body.size) params,
              later.name = symbol.name ∧ symbol.site < later.site :=
            getLast?_filter_name_iff (pairwise_paramSymbols _ params) hsymbol
        _ ↔ ¬m.Rebinds ⟨site, .lambda body params, scopes⟩ symbol :=
            not_congr (or_iff_left hnone).symm

/-- Where the target of an assignment stands, the nearest scope owns the name as this target. -/
theorem owned?_target {name : String} {value : Term} {c : Scope} {outer : List Scope}
    (hassign : ⟨site, .assign (.symbol name) value, c :: outer⟩ ∈ m.nodes) :
    owned? m.nodes c name (site + 1) = some ⟨name, site + 1⟩ := by
  have hself : Node.assigned? c name ⟨site, .assign (.symbol name) value, c :: outer⟩ =
      some ⟨name, site + 1⟩ :=
    Node.assigned?_eq_some_iff.mpr ⟨value, rfl, rfl, rfl⟩
  rw [m.numbered.owned?_succ hassign, hself, Option.some_or]

/-- An occurrence means what the nearest scope around it owns. -/
theorem binding_of_owned? {core : Core} {c : Scope} {outer : List Scope} {s : Symbol}
    {binding : Binding} (hreferent : m.referent? core ⟨symbol, c :: outer⟩ = some binding.referent)
    (howned : owned? m.nodes c symbol.name symbol.site = some s) :
    ∃ frame, binding = .symbol s frame := by
  rcases referent?_cases hreferent with ⟨t, frame, hbinding, hfound⟩ | ⟨_, hunowned⟩
  · rw [List.findSome?_cons, howned] at hfound
    cases hfound
    exact ⟨frame, hbinding⟩
  · cases (hunowned c List.mem_cons_self).symm.trans howned

/-- In a module that is resolved, every target of an assignment means itself. A parameter of a
lambda means itself exactly if no later parameter has its name and no assignment gives the name away
directly in the lambda. -/
theorem binds_itself_iff {core : Core} {events events' : List Event} {rs : List Resolution}
    (h : m.resolve core events = .ok rs events') :
    ∀ r ∈ rs, ∀ node ∈ m.nodes, r.site ∈ node.term.boundNames node.site →
      (node.term.isLambda = false → ∃ frame, r.binding = .symbol r.site frame) ∧
      (node.term.isLambda → ((∃ frame, r.binding = .symbol r.site frame) ↔
        ¬m.Rebinds node r.site)) := by
  intro r hr node hnode hbound
  obtain ⟨x, hx, hsite, _, hreferent, _⟩ := exists_node_of_resolution h hr
  obtain rfl := m.numbered.eq_of_site_eq hx (mem_nodes_of_mem_boundNames hnode hbound) hsite
  have hbinds := bindsSymbols_of_resolve h node.term (Term.term_mem_postorderAll hnode)
  obtain ⟨site, term, scopes⟩ := node
  cases term with
  | lambda body params =>
      obtain ⟨s, howned, hiff⟩ := owned?_param hnode hbinds hbound
      obtain ⟨frame, hbinding⟩ := binding_of_owned? hreferent howned
      refine ⟨fun hother => (by cases hother), fun _ => ?_⟩
      rw [← hiff, hbinding]
      constructor
      · rintro ⟨_, heq⟩
        exact (Binding.symbol.inj heq).1
      · rintro rfl
        exact ⟨frame, rfl⟩
  | assign target value =>
      obtain ⟨name, rfl⟩ := hbinds
      obtain ⟨c, outer, rfl⟩ := List.exists_cons_of_ne_nil (scopes_ne_nil hnode)
      have hname : r.site = ⟨name, site + 1⟩ := List.mem_singleton.mp hbound
      rw [hname] at hreferent ⊢
      exact ⟨fun _ => binding_of_owned? hreferent (owned?_target hnode),
        fun hlambda => by cases hlambda⟩
  | _ => cases hbound

/-- In `(x y) => x = y` the parameter `y` means itself, and the parameter `x` means the target in
the body. -/
theorem binds_itself_iff_assigned :
    let lambda : Term := .lambda (.assign (.symbol "x") (.symbol "y")) [.symbol "x", .symbol "y"]
    let m : Module := ⟨"m", [lambda]⟩
    ∃ rs events, m.resolve (.ofNames []) [] = .ok rs events ∧
      rs.map (fun r => (r.site, r.binding.referent)) =
        [(⟨"x", 3⟩, .symbol ⟨"x", 3⟩), (⟨"y", 4⟩, .symbol ⟨"y", 6⟩),
        (⟨"x", 5⟩, .symbol ⟨"x", 3⟩), (⟨"y", 6⟩, .symbol ⟨"y", 6⟩)] ∧
      m.Rebinds ⟨1, lambda, [⟨0, []⟩]⟩ ⟨"x", 5⟩ ∧ ¬m.Rebinds ⟨1, lambda, [⟨0, []⟩]⟩ ⟨"y", 6⟩ := by
  intro lambda m
  let rs : List Resolution :=
    [⟨⟨"x", 3⟩, .symbol ⟨"x", 3⟩ 1, false⟩, ⟨⟨"y", 4⟩, .symbol ⟨"y", 6⟩ 1, false⟩,
    ⟨⟨"x", 5⟩, .symbol ⟨"x", 3⟩ 1, false⟩, ⟨⟨"y", 6⟩, .symbol ⟨"y", 6⟩ 1, false⟩]
  obtain ⟨events, hresolve⟩ : ∃ events, m.resolve (.ofNames []) [] = .ok rs events := by
    apply exists_eq_ok_of_value
    decide +kernel
  have hnode : ⟨1, lambda, [⟨0, []⟩]⟩ ∈ m.nodes := List.mem_cons_self
  have hx := (binds_itself_iff hresolve ⟨⟨"x", 5⟩, .symbol ⟨"x", 3⟩ 1, false⟩ (by simp [rs]) _ hnode
    (by decide)).2 rfl
  have hy := (binds_itself_iff hresolve ⟨⟨"y", 6⟩, .symbol ⟨"y", 6⟩ 1, false⟩ (by simp [rs]) _ hnode
    (by decide)).2 rfl
  refine ⟨rs, events, hresolve, rfl, ?_, hy.mp ⟨1, rfl⟩⟩
  by_contra hnot
  obtain ⟨frame, hself⟩ := hx.mpr hnot
  cases hself

/-- In `(x x) => x` the first parameter does not mean itself but the second one. -/
theorem binds_later_parameter :
    let m : Module := ⟨"m", [.lambda (.symbol "x") [.symbol "x", .symbol "x"]]⟩
    ∃ r rs events, m.resolve (.ofNames []) [] = .ok rs events ∧ r ∈ rs ∧
      (∃ node ∈ m.nodes, r.site ∈ node.term.boundNames node.site) ∧
      r.site = ⟨"x", 3⟩ ∧ r.binding = .symbol ⟨"x", 4⟩ 1 := by
  intro m
  let r : Resolution := ⟨⟨"x", 3⟩, .symbol ⟨"x", 4⟩ 1, false⟩
  let rs : List Resolution :=
    [⟨⟨"x", 2⟩, .symbol ⟨"x", 4⟩ 1, false⟩, r, ⟨⟨"x", 4⟩, .symbol ⟨"x", 4⟩ 1, false⟩]
  obtain ⟨events, hresolve⟩ : ∃ events, m.resolve (.ofNames []) [] = .ok rs events := by
    apply exists_eq_ok_of_value
    decide +kernel
  refine ⟨r, rs, events, hresolve, by simp [rs], ⟨_, List.mem_cons_self, ?_⟩, rfl, rfl⟩
  decide

end Module

end LambdaLift
