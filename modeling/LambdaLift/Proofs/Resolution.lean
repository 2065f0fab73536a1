import LambdaLift.Proofs.FrameOrder
import LambdaLift.Proofs.Walks
import Mathlib.Data.List.Forall2

/-!
# Resolution is lexical scoping

A walk keeps a chain of frames, which are entered, changed and left. At the term with a given
number, the frames hold exactly what the scopes around the term own before that number, so what the
chain says of a name is what the name means there.
-/

namespace LambdaLift

/-- What a binding refers to, whatever frame it was found in. -/
def Binding.referent : Binding → Referent
  | .builtin name => .builtin name
  | .symbol s _ => .symbol s

/-- Of several definitions of a name in one frame, the last one counts. -/
theorem Frame.find?_foldl_define (ps : List Symbol) (frame : Frame) (name : String) :
    (ps.foldl define frame).find? name =
      (ps.filter (·.name = name)).getLast?.or (frame.find? name) := by
  induction ps generalizing frame with
  | nil => simp
  | cons p ps ih =>
      rw [List.foldl_cons, ih, find?_define]
      by_cases hp : p.name = name
      · cases hps : (ps.filter (·.name = name)).getLast? <;> simp [hp, List.getLast?_cons, hps]
      · simp [hp]

theorem Frame.kind_foldl_define (symbols : List Symbol) (frame : Frame) :
    (symbols.foldl define frame).kind = frame.kind := by
  induction symbols generalizing frame with
  | nil => rfl
  | cons symbol symbols ih => rw [List.foldl_cons, ih, kind_define]

/-- A frame holds what a scope owns before the number `before`, and is one of a lambda if the scope
is. -/
structure Frame.Holds (nodes : List Node) (before : Nat) (scope : Scope) (frame : Frame) :
    Prop where
  find? : ∀ name, frame.find? name = owned? nodes scope name before
  kind : frame.kind = .lambda ↔ scope.isLambda nodes

/-- The frame of a term is one of a lambda exactly if the scope of the term is a lambda. -/
theorem Numbered.eq_lambda_iff {nodes : List Node} (h : Numbered nodes) {node : Node}
    (hnode : node ∈ nodes) {kind : FrameKind} (hkind : node.term.frameKind? = some kind)
    {scope : Scope} (hsite : scope.site = node.site) :
    kind = .lambda ↔ scope.isLambda nodes := by
  rw [h.isLambda_eq hnode hsite]
  obtain ⟨site, term, scopes⟩ := node
  cases term with
  | lambda body params =>
      cases hkind
      exact iff_of_true rfl rfl
  | block body =>
      cases hkind
      exact iff_of_false (fun hkind => nomatch hkind) Bool.false_ne_true
  | _ => cases hkind

/-- The frames of a chain hold what the scopes own before the number `before`. -/
structure Represents (nodes : List Node) (core : Core) (scopes : List Scope) (before : Nat)
    (chain : Chain) : Prop where
  core : chain.core = core
  frames : List.Forall₂ (Frame.Holds nodes before) scopes chain.frames

namespace Represents

variable {nodes : List Node} {core : Core} {scopes : List Scope} {before : Nat} {chain : Chain}

/-- A name is found in the frames exactly if a scope owns it, and then that of the nearest such
scope. -/
theorem map_findIn {frames : List Frame} (h : List.Forall₂ (Frame.Holds nodes before) scopes frames)
    (name : String) :
    (Chain.findIn name frames).map Prod.fst = scopes.findSome? fun c =>
      owned? nodes c name before := by
  induction h with
  | nil => rfl
  | @cons scope frame _ _ hframe _ ih =>
      rw [Chain.findIn, List.findSome?_cons, ← hframe.find? name]
      cases frame.find? name with
      | none => exact ih
      | some symbol => rfl

/-- A name is captured exactly if it is found in a frame outside the innermost one of a lambda. -/
theorem capturedIn_eq {frames : List Frame}
    (h : List.Forall₂ (Frame.Holds nodes before) scopes frames) (name : String) :
    capturedIn nodes name before scopes = (Chain.findIn name frames).any fun found =>
      (Chain.innermostIn .lambda frames).any fun lambda => found.2 < lambda := by
  induction h with
  | nil => rfl
  | @cons scope frame scopes frames hframe hrest ih =>
      rw [capturedIn, Chain.findIn, ← hframe.find? name]
      cases frame.find? name with
      | some symbol =>
          cases hlambda : Chain.innermostIn .lambda (frame :: frames) with
          | none => rfl
          | some lambda =>
              have hlt : lambda < frames.length + 1 := Chain.innermostIn_lt hlambda
              exact (decide_eq_false (Nat.not_lt_of_le (Nat.le_of_lt_succ hlt))).symm
      | none =>
          by_cases hkind : frame.kind = .lambda
          · -- All that is found further out lies outside this lambda.
            have hany : (scopes.any fun c => (owned? nodes c name before).isSome) =
                (Chain.findIn name frames).isSome := by
              rw [← List.isSome_findSome?, ← map_findIn hrest, Option.isSome_map]
            rw [Chain.innermostIn, if_pos hkind, if_pos (hframe.kind.mp hkind), hany]
            cases hfound : Chain.findIn name frames with
            | none => rfl
            | some found => exact (decide_eq_true (Chain.findIn_lt hfound)).symm
          · rw [Chain.innermostIn, if_neg hkind, if_neg (hframe.kind.not.mp hkind)]
            exact ih

/-- The chain says of a name what the name means. -/
theorem lookup (h : Represents nodes core scopes before chain) (name : String) :
    (chain.lookup name).map Binding.referent = referent? nodes core ⟨⟨name, before⟩, scopes⟩ := by
  rw [Chain.lookup, Chain.lookupFrom, chain.findFrom_currentIndex, referent?, ← map_findIn h.frames,
    h.core]
  cases Chain.findIn name chain.frames with
  | none =>
      by_cases hcore : core.contains name <;> simp [hcore, Binding.referent]
  | some found => rfl

/-- What the chain says of a name is captured exactly if its scope lies outside the nearest
lambda. -/
theorem isCaptured (h : Represents nodes core scopes before chain) {name : String}
    {binding : Binding} (hbinding : chain.lookup name = some binding) :
    binding.isCaptured chain = capturedIn nodes name before scopes := by
  rw [capturedIn_eq h.frames]
  rw [Chain.lookup, Chain.lookupFrom, chain.findFrom_currentIndex] at hbinding
  cases hfound : Chain.findIn name chain.frames with
  | none =>
      rw [hfound] at hbinding
      simp only [Option.ite_none_right_eq_some, Option.some.injEq] at hbinding
      obtain ⟨_, rfl⟩ := hbinding
      rfl
  | some found =>
      rw [hfound] at hbinding
      cases hbinding
      unfold Binding.isCaptured Chain.innermost?
      cases Chain.innermostIn .lambda chain.frames with
      | none => rfl
      | some lambda => rfl

/-- A term that assigns nothing changes nothing. -/
theorem advance (hnodes : Numbered nodes) {node : Node} (hnode : node ∈ nodes)
    (hassigned : ∀ scope name, node.assigned? scope name = none)
    (h : Represents nodes core scopes node.site chain) :
    Represents nodes core scopes (node.site + 1) chain := by
  refine ⟨h.core, h.frames.imp fun scope frame hframe => ⟨fun name => ?_, hframe.kind⟩⟩
  rw [hnodes.owned?_succ hnode, hassigned, hframe.find?, Option.none_or]

/-- An assignment defines its target in the nearest scope. -/
theorem define (hnodes : Numbered nodes) {site : Nat} {c : Scope} {outer : List Scope} {x : String}
    {value : Term} (hnode : ⟨site, .assign (.symbol x) value, c :: outer⟩ ∈ nodes)
    (houter : ∀ d ∈ outer, d.site < c.site)
    (h : Represents nodes core (c :: outer) site chain) :
    Represents nodes core (c :: outer) (site + 1) (chain.define ⟨x, site + 1⟩) := by
  obtain ⟨hcore, hframes⟩ := h
  obtain ⟨hcurrent, henclosing⟩ := List.forall₂_cons.mp hframes
  refine ⟨hcore, List.Forall₂.cons ⟨fun name => ?_, hcurrent.kind⟩ ?_⟩
  · change (chain.current.define ⟨x, site + 1⟩).find? name = _
    rw [Frame.find?_define, hnodes.owned?_succ hnode, hcurrent.find?]
    by_cases hx : x = name <;> simp [Node.assigned?, hx]
  · refine ((List.forall₂_and_left _ _).mpr ⟨houter, henclosing⟩).imp ?_
    rintro d frame ⟨hd, hframe⟩
    refine ⟨fun name => ?_, hframe.kind⟩
    have hne : c.site ≠ d.site := Nat.ne_of_gt hd
    rw [hnodes.owned?_succ hnode, hframe.find?]
    simp [Node.assigned?, hne]

/-- A new frame with the parameters of a scope holds what the scope owns at its start. -/
theorem enter (hnodes : Numbered nodes) {c : Scope} {kind : FrameKind}
    (hkind : kind = .lambda ↔ c.isLambda nodes)
    (h : Represents nodes core scopes (c.site + 1) chain) :
    Represents nodes core (c :: scopes) (c.site + 1)
      (c.params.foldl Chain.define (chain.push kind)) := by
  obtain ⟨hcore, hcurrent, henclosing⟩ := Chain.define_foldl c.params (chain.push kind)
  refine ⟨hcore.trans h.core, ?_⟩
  rw [Chain.frames, hcurrent, henclosing]
  refine List.Forall₂.cons ⟨fun name => ?_, ?_⟩ h.frames
  · rw [hnodes.owned?_start, Frame.find?_foldl_define]
    exact Option.or_none
  · rw [Frame.kind_foldl_define]
    exact hkind

/-- Without its innermost frame a chain stands for the scopes around the innermost one. -/
theorem leave {c : Scope} (hscopes : scopes ≠ [])
    (h : Represents nodes core (c :: scopes) before chain) :
    Represents nodes core scopes before chain.pop := by
  obtain ⟨chainCore, current, enclosing, linked⟩ := chain
  obtain ⟨hcore, hframes⟩ := h
  obtain ⟨_, henclosing⟩ := List.forall₂_cons.mp hframes
  cases henclosing with
  | nil => exact absurd rfl hscopes
  | cons hframe hrest => exact ⟨hcore, .cons hframe hrest⟩

end Represents

/-- The resolutions `rs` are those of the occurrences `ss`, one by one, and say what each means. -/
def Says (nodes : List Node) (core : Core) (ss : List Site) (rs : List Resolution) : Prop :=
  rs.map (fun r => (r.site, some r.binding.referent)) =
    ss.map (fun s => (s.symbol, referent? nodes core s))

/-- The resolutions `rs` say what each of the occurrences `ss` means and whether it is captured. -/
def Tells (nodes : List Node) (core : Core) (ss : List Site) (rs : List Resolution) : Prop :=
  rs.map (fun r => (r.site, some r.binding.referent, r.captured)) =
    ss.map (fun s => (s.symbol, referent? nodes core s,
      capturedIn nodes s.symbol.name s.symbol.site s.scopes))

theorem Tells.says {nodes : List Node} {core : Core} {ss : List Site} {rs : List Resolution}
    (h : Tells nodes core ss rs) : Says nodes core ss rs := by
  have hmap := congrArg (List.map fun p => (p.1, p.2.1)) h
  rwa [List.map_map, List.map_map] at hmap

theorem Tells.append {nodes : List Node} {core : Core} {ss ss' : List Site}
    {rs rs' : List Resolution} (h : Tells nodes core ss rs) (h' : Tells nodes core ss' rs') :
    Tells nodes core (ss ++ ss') (rs ++ rs') := by
  unfold Tells at h h' ⊢
  rw [List.map_append, List.map_append, h, h']

/-- Whether an occurrence has no meaning. -/
def unbound (nodes : List Node) (core : Core) (s : Site) : Bool := (referent? nodes core s).isNone

theorem Says.find?_unbound {nodes : List Node} {core : Core} {ss : List Site} {rs : List Resolution}
    (h : Says nodes core ss rs) : ss.find? (unbound nodes core) = none := by
  rw [List.find?_eq_none]
  intro s hs
  have hmem : (s.symbol, referent? nodes core s) ∈
      rs.map (fun r => (r.site, some r.binding.referent)) := by
    rw [h]
    exact List.mem_map_of_mem hs
  obtain ⟨r, _, hr⟩ := List.mem_map.mp hmem
  simp [unbound, ← (Prod.mk.inj hr).2]

/-- From chains with `P`, a part of a walk passes the occurrences `ss`: it adds their resolutions
and ends with a chain with `Q`, or it fails at the first one that has no meaning. -/
def Passes {α : Type} (nodes : List Node) (core : Core) (P : Chain → Prop) (ss : List Site)
    (Q : Chain → Prop) (x : Walking α) : Prop :=
  ∀ w, P w.chain → match x w with
    | .ok _ w' => Q w'.chain ∧ ∃ rs, w'.memo = w.memo ++ rs ∧ Tells nodes core ss rs
    | .error e _ => ∃ s suggestions, ss.find? (unbound nodes core) = some s ∧
        e = .unresolved s.symbol.name suggestions

namespace Passes

variable {α β : Type} {nodes : List Node} {core : Core} {P Q R : Chain → Prop} {ss ss' : List Site}

theorem iff_adds {x : Walking α} :
    Passes nodes core P ss Q x ↔ Adds P (Tells nodes core ss) Q
      (fun e => ∃ s suggestions, ss.find? (unbound nodes core) = some s ∧
        e = .unresolved s.symbol.name suggestions) x :=
  Iff.rfl

theorem of_pure {a : α} (h : ∀ chain, P chain → Q chain) :
    Passes nodes core P [] Q (pure a : Walking α) :=
  iff_adds.mpr (Adds.of_pure h rfl)

theorem bind {x : Walking α} {f : α → Walking β} (hx : Passes nodes core P ss Q x)
    (hf : ∀ a, Passes nodes core Q ss' R (f a)) :
    Passes nodes core P (ss ++ ss') R (x >>= f) := by
  rw [iff_adds] at hx ⊢
  refine hx.bind (fun a => iff_adds.mp (hf a)) (fun _ _ => Tells.append) ?_ ?_
  · rintro e ⟨s, suggestions, hs, he⟩
    exact ⟨s, suggestions, by rw [List.find?_append, hs]; rfl, he⟩
  · rintro rs e hrs ⟨s, suggestions, hs, he⟩
    exact ⟨s, suggestions, by rw [List.find?_append, hrs.says.find?_unbound, hs]; rfl, he⟩

theorem bind_nil {x : Walking α} {f : α → Walking β} (hx : Passes nodes core P ss Q x)
    (hf : ∀ a, Passes nodes core Q [] R (f a)) : Passes nodes core P ss R (x >>= f) := by
  rw [← List.append_nil ss]
  exact hx.bind hf

theorem of_imp {x : Walking α} (hP : ∀ chain, R chain → P chain) (hx : Passes nodes core P ss Q x) :
    Passes nodes core R ss Q x :=
  fun w hw => hx w (hP w.chain hw)

/-- Within the frame of a scope, a part of a walk knows the scope; afterwards the frame is left. -/
theorem inFrame {scopes : List Scope} {c : Scope} {before after : Nat} {x : Walking α}
    {kind : FrameKind} (hscopes : scopes ≠ [])
    (hx : Passes nodes core
      (fun chain => ∃ outer, Represents nodes core scopes before outer ∧ chain = outer.push kind) ss
      (Represents nodes core (c :: scopes) after) x) :
    Passes nodes core (Represents nodes core scopes before) ss (Represents nodes core scopes after)
      (Visitor.inFrame kind x) := by
  exact iff_adds.mpr (Adds.inFrame ((iff_adds.mp hx).imp fun _ hchain => hchain.leave hscopes))

/-- The visitor does nothing at a term that is no symbol. -/
theorem call_other {site : Nat} {t : Term} {results : List Unit} (ht : ∀ name, t ≠ .symbol name) :
    Passes nodes core P [] P (resolver.call site t results) :=
  iff_adds.mpr (Adds.call_other ht rfl)

/-- The visitor resolves a symbol to what it means. -/
theorem call_symbol {site : Nat} {scopes : List Scope} {name : String} {results : List Unit}
    (hP : ∀ chain, P chain → Represents nodes core scopes site chain ∧ Q chain) :
    Passes nodes core P [⟨⟨name, site⟩, scopes⟩] Q (resolver.call site (.symbol name) results) := by
  refine iff_adds.mpr (Adds.call_symbol fun chain hchain => ?_)
  obtain ⟨hrepresents, hQ⟩ := hP chain hchain
  have hlookup := hrepresents.lookup name
  cases hfound : chain.lookup name with
  | none =>
      rw [hfound] at hlookup
      rw [Symbol.resolve_of_lookup_eq_none hfound]
      refine ⟨⟨⟨name, site⟩, scopes⟩, _, ?_, rfl⟩
      rw [List.find?_cons_of_pos]
      rw [unbound, ← hlookup]
      rfl
  | some binding =>
      rw [hfound] at hlookup
      rw [Symbol.resolve_of_lookup_eq_some hfound]
      refine ⟨hQ, ?_⟩
      rw [Tells, List.map_singleton, List.map_singleton, ← hlookup, ← hrepresents.isCaptured hfound]
      rfl

/-- The target of an assignment is defined in the nearest scope. -/
theorem define_target (hnodes : Numbered nodes) {site : Nat} {c : Scope} {outer : List Scope}
    {name : String} {value : Term}
    (hnode : ⟨site, .assign (.symbol name) value, c :: outer⟩ ∈ nodes)
    (houter : ∀ d ∈ outer, d.site < c.site) :
    Passes nodes core (Represents nodes core (c :: outer) site) []
      (Represents nodes core (c :: outer) (site + 1))
      (resolver.define .target (site + 1) (.symbol name)) :=
  fun _ hw => ⟨hw.define hnodes hnode houter, [], (List.append_nil _).symm, rfl⟩

/-- The parameters of a lambda are defined in its frame. -/
theorem defineParams (hnodes : Numbered nodes) {site first : Nat} {scopes : List Scope}
    {params : List Term} (hparams : ∀ p ∈ params, ∃ name, p = .symbol name) {kind : FrameKind}
    (hkind : kind = .lambda ↔ Scope.isLambda nodes ⟨site, paramSymbols first params⟩) :
    Passes nodes core
      (fun chain => ∃ outer, Represents nodes core scopes (site + 1) outer ∧
        chain = outer.push kind) []
      (Represents nodes core (⟨site, paramSymbols first params⟩ :: scopes) (site + 1))
      (resolver.defineParams first params) := by
  refine iff_adds.mpr (Adds.defineParams hparams ?_ rfl)
  rintro chain ⟨outer, houter, rfl⟩
  exact houter.enter hnodes hkind

end Passes

/-- Scopes around a term: there is at least the module, and an inner scope has a larger number. -/
structure Nested (scopes : List Scope) : Prop where
  ne_nil : scopes ≠ []
  decreasing : scopes.Pairwise fun a b => b.site < a.site

theorem Nested.cons {site : Nat} {params : List Symbol} {scopes : List Scope} (h : Nested scopes)
    (hsite : ∀ c ∈ scopes, c.site < site) : Nested (⟨site, params⟩ :: scopes) :=
  ⟨List.cons_ne_nil _ _, List.pairwise_cons.mpr ⟨hsite, h.decreasing⟩⟩

theorem sites_cons_of_none {node : Node} (hnode : node.site? = none) (ns : List Node) :
    sites (node :: ns) = sites ns :=
  List.filterMap_cons_none hnode

theorem sites_append (ns ms : List Node) : sites (ns ++ ms) = sites ns ++ sites ms :=
  List.filterMap_append

mutual

/-- Walking a term resolves its symbols to what they mean. -/
theorem walk_passes {nodes : List Node} (core : Core) (hnodes : Numbered nodes)
    (hbinds : ∀ node ∈ nodes, node.term.BindsSymbols) {site : Nat} {scopes : List Scope}
    (hnested : Nested scopes) :
    ∀ t : Term, t.nodes site scopes ⊆ nodes →
      Passes nodes core (Represents nodes core scopes site) (sites (t.nodes site scopes))
        (Represents nodes core scopes (site + t.size)) (resolver.walk site t)
  | .module name body, hsub => by
      obtain ⟨hnode, hbody⟩ := List.cons_subset.mp hsub
      have hwalk := walkAll_passes core hnodes hbinds hnested body hbody
      rw [Term.size, ← Nat.add_assoc]
      exact (hwalk.bind_nil fun _ => Passes.call_other (by simp)).of_imp
        fun _ hchain => hchain.advance hnodes hnode fun _ _ => rfl
  | .symbol name, hsub => by
      obtain ⟨hnode, _⟩ := List.cons_subset.mp hsub
      exact Passes.call_symbol fun _ hchain => ⟨hchain, hchain.advance hnodes hnode fun _ _ => rfl⟩
  | .integer value, hsub => by
      obtain ⟨hnode, _⟩ := List.cons_subset.mp hsub
      exact Passes.of_imp (fun _ hchain => hchain.advance hnodes hnode fun _ _ => rfl)
        (Passes.call_other (by simp))
  | .lambda body params, hsub => by
      obtain ⟨hnode, hparts⟩ := List.cons_subset.mp hsub
      obtain ⟨hbody, hparams⟩ := List.append_subset.mp hparts
      have hinner : Nested (Term.innerScopes site scopes (.lambda body params)) :=
        hnested.cons (hnodes.scopes_lt _ hnode)
      have hsymbols : ∀ p ∈ params, ∃ name, p = .symbol name := hbinds _ hnode
      have hwalkBody := walk_passes core hnodes hbinds hinner body hbody
      have hwalkParams := walkAll_passes core hnodes hbinds hinner params hparams
      rw [Term.size, ← Nat.add_assoc, ← Nat.add_assoc, Term.nodes,
        sites_cons_of_none rfl, sites_append]
      refine Passes.of_imp (fun _ hchain => hchain.advance hnodes hnode fun _ _ => rfl)
        (Passes.inFrame (c := ⟨site, paramSymbols (site + 1 + body.size) params⟩) hnested.ne_nil ?_)
      exact (Passes.defineParams hnodes hsymbols (hnodes.eq_lambda_iff hnode rfl rfl)).bind fun _ =>
        hwalkBody.bind fun _ => hwalkParams.bind_nil fun _ => Passes.call_other (by simp)
  | .apply callee args, hsub => by
      obtain ⟨hnode, hparts⟩ := List.cons_subset.mp hsub
      obtain ⟨hcallee, hargs⟩ := List.append_subset.mp hparts
      have hwalkCallee := walk_passes core hnodes hbinds hnested callee hcallee
      have hwalkArgs := walkAll_passes core hnodes hbinds hnested args hargs
      rw [Term.size, ← Nat.add_assoc, ← Nat.add_assoc, Term.nodes,
        sites_cons_of_none rfl, sites_append]
      refine Passes.of_imp (fun _ hchain => hchain.advance hnodes hnode fun _ _ => rfl) ?_
      exact hwalkCallee.bind fun _ => hwalkArgs.bind_nil fun _ => Passes.call_other (by simp)
  | .block body, hsub => by
      obtain ⟨hnode, hbody⟩ := List.cons_subset.mp hsub
      have hinner : Nested (Term.innerScopes site scopes (.block body)) :=
        hnested.cons (hnodes.scopes_lt _ hnode)
      have hwalk := walkAll_passes core hnodes hbinds hinner body hbody
      rw [Term.size, ← Nat.add_assoc]
      refine Passes.of_imp (fun _ hchain => hchain.advance hnodes hnode fun _ _ => rfl)
        (Passes.inFrame (c := ⟨site, []⟩) hnested.ne_nil ?_)
      refine Passes.of_imp ?_ (hwalk.bind_nil fun _ => Passes.call_other (by simp))
      rintro _ ⟨outer, houter, rfl⟩
      exact houter.enter hnodes (hnodes.eq_lambda_iff hnode rfl rfl)
  | .assign target value, hsub => by
      obtain ⟨hnode, hparts⟩ := List.cons_subset.mp hsub
      obtain ⟨htarget, hvalue⟩ := List.append_subset.mp hparts
      have hwalkTarget := walk_passes core hnodes hbinds hnested target htarget
      have hwalkValue := walk_passes core hnodes hbinds hnested value hvalue
      obtain ⟨c, outer, rfl⟩ := List.exists_cons_of_ne_nil hnested.ne_nil
      obtain ⟨name, rfl⟩ := hbinds _ hnode
      rw [Term.size, ← Nat.add_assoc, ← Nat.add_assoc, Term.nodes,
        sites_cons_of_none rfl, sites_append]
      exact (Passes.define_target hnodes hnode (List.pairwise_cons.mp hnested.decreasing).1).bind
        fun _ => hwalkTarget.bind fun _ => hwalkValue.bind_nil fun _ => Passes.call_other (by simp)

/-- Walking terms resolves their symbols to what they mean. -/
theorem walkAll_passes {nodes : List Node} (core : Core) (hnodes : Numbered nodes)
    (hbinds : ∀ node ∈ nodes, node.term.BindsSymbols) {site : Nat} {scopes : List Scope}
    (hnested : Nested scopes) :
    ∀ ts : List Term, Term.nodesAll site scopes ts ⊆ nodes →
      Passes nodes core (Represents nodes core scopes site) (sites (Term.nodesAll site scopes ts))
        (Represents nodes core scopes (site + Term.sizes ts)) (resolver.walkAll site ts)
  | [], _ => Passes.of_pure fun _ hchain => hchain
  | t :: ts, hsub => by
      obtain ⟨hhead, hrest⟩ := List.append_subset.mp hsub
      have hwalk := walk_passes core hnodes hbinds hnested t hhead
      have hwalkAll := walkAll_passes core hnodes hbinds hnested ts hrest
      rw [Term.nodesAll, sites_append, Term.sizes, ← Nat.add_assoc]
      exact hwalk.bind fun _ => hwalkAll.bind_nil fun _ => Passes.of_pure fun _ hchain => hchain

end

/-- At the start of a module, its chain stands for the outermost scope, which owns nothing. -/
theorem Represents.ofCore (m : Module) (core : Core) :
    Represents m.nodes core [⟨0, []⟩] 1 (Chain.ofCore core) := by
  refine ⟨rfl, .cons ⟨fun name => ?_, ?_⟩ .nil⟩
  · exact (m.numbered.owned?_start ⟨0, []⟩ name).symm
  · rw [m.isLambda_outermost]
    exact iff_of_false (fun hkind => nomatch hkind) Bool.false_ne_true

/-- Resolving a module ends as lexical scoping says, and tells what is captured. -/
theorem Module.resolve_tells (m : Module) (core : Core) (events : List Event)
    (hm : m.BindsSymbols) :
    (∃ rs events', m.resolve core events = .ok rs events' ∧ Tells m.nodes core m.sites rs) ∨
    ∃ s suggestions events', m.sites.find? (unbound m.nodes core) = some s ∧
      m.resolve core events = .error (.unresolved s.symbol.name suggestions) events' := by
  have hnested : Nested [⟨0, []⟩] := ⟨List.cons_ne_nil _ _, List.pairwise_singleton _ _⟩
  have hwalk := walkAll_passes core m.numbered hm hnested m.body (List.Subset.refl m.nodes)
    ⟨.ofCore core, events, []⟩ (Represents.ofCore m core)
  unfold Module.resolve Visitor.walkModule
  cases hresult : resolver.walkAll 1 m.body ⟨.ofCore core, events, []⟩ with
  | ok a w =>
      rw [hresult] at hwalk
      obtain ⟨_, rs, hmemo, hrs⟩ := hwalk
      left
      exact ⟨w.memo, _, rfl, by rw [hmemo]; exact hrs⟩
  | error e w =>
      rw [hresult] at hwalk
      obtain ⟨s, suggestions, hs, rfl⟩ := hwalk
      right
      exact ⟨s, suggestions, _, hs, rfl⟩

/-- Resolving a module ends as lexical scoping says. -/
theorem Module.resolve_cases (m : Module) (core : Core) (events : List Event)
    (hm : m.BindsSymbols) :
    (∃ rs events', m.resolve core events = .ok rs events' ∧ Says m.nodes core m.sites rs) ∨
    ∃ s suggestions events', m.sites.find? (unbound m.nodes core) = some s ∧
      m.resolve core events = .error (.unresolved s.symbol.name suggestions) events' := by
  rcases m.resolve_tells core events hm with ⟨rs, events', hok, htells⟩ | herror
  · exact .inl ⟨rs, events', hok, htells.says⟩
  · exact .inr herror

/-- A module that is resolved binds symbols only. -/
theorem Module.bindsSymbols_of_resolve {m : Module} {core : Core} {rs : List Resolution}
    {events events' : List Event} (h : m.resolve core events = .ok rs events') :
    ∀ t ∈ m.postorder, t.BindsSymbols := by
  unfold Module.resolve Visitor.walkModule at h
  cases hresult : resolver.walkAll 1 m.body ⟨.ofCore core, events, []⟩ with
  | error e w =>
      rw [hresult] at h
      cases h
  | ok results w => exact Visitor.bindsSymbols_of_walkAll m.body hresult

/-- What a module that is resolved is resolved to. -/
theorem Module.tells_of_resolve {m : Module} {core : Core} {rs : List Resolution}
    {events events' : List Event} (h : m.resolve core events = .ok rs events') :
    Tells m.nodes core m.sites rs := by
  have hm : m.BindsSymbols := fun node hnode =>
    Module.bindsSymbols_of_resolve h node.term (Term.term_mem_postorderAll hnode)
  rcases m.resolve_tells core events hm with ⟨rs', _, hok, htells⟩ | ⟨_, _, _, _, herror⟩
  · cases hok.symm.trans h
    exact htells
  · cases herror.symm.trans h

/-- Whether a referent is a built-in. -/
def Referent.isBuiltin : Referent → Bool
  | builtin _ => true
  | symbol _ => false

theorem Resolution.isBuiltin_eq (r : Resolution) : r.isBuiltin = r.binding.referent.isBuiltin := by
  obtain ⟨_, binding, _⟩ := r
  cases binding <;> rfl

/-- Resolution is lexical scoping. In a module that binds symbols only, it succeeds exactly if every
occurrence of a symbol has a meaning. Then it gives every occurrence once, in the order of the
numbers, with its meaning, and marks exactly the built-ins as such. Otherwise it fails with the name
of the first occurrence that has none. -/
theorem Module.resolve_eq_lexical (m : Module) (core : Core) (events : List Event)
    (hm : m.BindsSymbols) :
    ((∃ rs events', m.resolve core events = .ok rs events') ↔
      ∀ s ∈ m.sites, (m.referent? core s).isSome) ∧
    (∀ rs events', m.resolve core events = .ok rs events' →
      rs.map (fun r => (r.site, some r.binding.referent, r.isBuiltin)) =
        m.sites.map (fun s =>
          (s.symbol, m.referent? core s, (m.referent? core s).any Referent.isBuiltin))) ∧
    ((∃ s ∈ m.sites, m.referent? core s = none) →
      ∃ s suggestions events', m.sites.find? (fun s => (m.referent? core s).isNone) = some s ∧
        m.resolve core events = .error (.unresolved s.symbol.name suggestions) events') := by
  rcases m.resolve_cases core events hm with ⟨rs, events', hok, hsays⟩ |
    ⟨s, suggestions, events', hs, herror⟩
  · have hbound : ∀ s ∈ m.sites, (m.referent? core s).isSome := by
      intro s hs
      have hsome := List.find?_eq_none.mp hsays.find?_unbound s hs
      simpa [unbound, Module.referent?, Option.isSome_iff_ne_none] using hsome
    refine ⟨⟨fun _ => hbound, fun _ => ⟨rs, events', hok⟩⟩, ?_, ?_⟩
    · intro rs' events'' hok'
      cases hok.symm.trans hok'
      have hmap := congrArg (List.map fun p => (p.1, p.2, p.2.any Referent.isBuiltin)) hsays
      simpa [Module.referent?, Function.comp_def, ← Resolution.isBuiltin_eq] using hmap
    · rintro ⟨s, hs, hnone⟩
      have hsome := hbound s hs
      rw [hnone] at hsome
      cases hsome
  · have hunbound : m.referent? core s = none := by
      simpa [unbound, Module.referent?] using List.find?_some hs
    refine ⟨⟨?_, ?_⟩, ?_, fun _ => ⟨s, suggestions, events', hs, herror⟩⟩
    · rintro ⟨rs, events'', hok⟩
      cases herror.symm.trans hok
    · intro hbound
      have hsome := hbound s (List.mem_of_find?_eq_some hs)
      rw [hunbound] at hsome
      cases hsome
    · intro rs events'' hok
      cases herror.symm.trans hok

/-- In `x = one; (x y y) => { x = y; x }` a block hides a parameter, which hides the `x` of the
module, and of two parameters `y` the last one is meant. -/
theorem Module.resolve_eq_lexical_shadowing :
    let m : Module := ⟨"m", [.assign (.symbol "x") (.symbol "one"),
      .lambda (.block [.assign (.symbol "x") (.symbol "y"), .symbol "x"])
        [.symbol "x", .symbol "y", .symbol "y"]]⟩
    m.BindsSymbols ∧ ∃ rs events, m.resolve (.ofNames ["one"]) [] = .ok rs events ∧
      rs.map (fun r => (r.site, some r.binding.referent, r.isBuiltin)) =
        [(⟨"x", 2⟩, some (.symbol ⟨"x", 2⟩), false), (⟨"one", 3⟩, some (.builtin "one"), true),
          (⟨"x", 7⟩, some (.symbol ⟨"x", 7⟩), false), (⟨"y", 8⟩, some (.symbol ⟨"y", 12⟩), false),
          (⟨"x", 9⟩, some (.symbol ⟨"x", 7⟩), false), (⟨"x", 10⟩, some (.symbol ⟨"x", 10⟩), false),
          (⟨"y", 11⟩, some (.symbol ⟨"y", 12⟩), false),
          (⟨"y", 12⟩, some (.symbol ⟨"y", 12⟩), false)] := by
  intro m
  have hm : m.BindsSymbols := by
    simp [m, Module.BindsSymbols, Module.nodes, Term.nodesAll, Term.nodes, Term.BindsSymbols]
  obtain ⟨hiff, hmeaning, _⟩ := m.resolve_eq_lexical (.ofNames ["one"]) [] hm
  obtain ⟨rs, events, hok⟩ := hiff.mpr (by decide +kernel)
  refine ⟨hm, rs, events, hok, (hmeaning rs events hok).trans ?_⟩
  decide +kernel

end LambdaLift
