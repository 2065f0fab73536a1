import LambdaLift.Proofs.Places
import LambdaLift.Proofs.VisitorCalls
import Mathlib.Data.List.Forall2

/-!
# What a walk does with its visitor and its chain

A walk calls its visitor once at each term, in postorder, with the results of the parts of the term,
and the chain then has one more frame for each block and lambda around the term. It enters terms in
preorder. Whether it succeeds or fails, it leaves the chain as it found it, except that the
innermost frame has what was assigned to outside all blocks and lambdas among the terms entered.
-/

namespace LambdaLift

variable {ε σ α β γ : Type}

namespace Call

/-- A call is at a place of a walk that starts with a given chain: it sees the term, and on the
chain the frames of the place. -/
structure At (outer : Chain) (place : Place) (call : Call ε α) : Prop where
  site : call.visit.site = place.site
  term : call.visit.term = place.term
  depth : call.visit.chain.depth = outer.depth + place.frames.length
  kind : call.visit.chain.current.kind = place.frames.headD outer.current.kind

/-- A number is that of a call with a given result. -/
def Returned (calls : List (Call ε α)) (site : Nat) (a : α) : Prop :=
  ∃ call ∈ calls, call.visit.site = site ∧ call.outcome = .ok a

/-- What a call gets as results of the parts of its term are the results of calls at these parts. -/
def Fed (calls : List (Call ε α)) (call : Call ε α) : Prop :=
  List.Forall₂ (Returned calls) (Term.partSites (call.visit.site + 1) call.visit.term.children)
    call.visit.results

def succeeds (call : Call ε α) : Bool := call.outcome.isOk

variable {calls calls' : List (Call ε α)}

theorem Returned.mono (hsub : calls ⊆ calls') {site : Nat} {a : α} (h : Returned calls site a) :
    Returned calls' site a := by
  obtain ⟨call, hmem, h⟩ := h
  exact ⟨call, hsub hmem, h⟩

theorem Fed.mono {call : Call ε α} (hsub : calls ⊆ calls') (h : Fed calls call) : Fed calls' call :=
  List.Forall₂.imp (fun _ _ => Returned.mono hsub) h

/-- The frames of a place are those that were open before and those opened since. -/
theorem at_of_kinds {outer : Chain} {place : Place} {call : Call ε α}
    (hsite : call.visit.site = place.site) (hterm : call.visit.term = place.term)
    (hkinds : call.visit.chain.kinds = place.frames ++ outer.kinds) : At outer place call where
  site := hsite
  term := hterm
  depth := by
    rw [← Chain.length_kinds, ← Chain.length_kinds, hkinds, List.length_append, Nat.add_comm]
  kind := by
    have hhead : call.visit.chain.kinds.head? = some call.visit.chain.current.kind := rfl
    have houter : outer.kinds.head? = some outer.current.kind := rfl
    rw [hkinds, List.head?_append, houter] at hhead
    cases hframes : place.frames with
    | nil =>
        rw [hframes] at hhead
        exact (Option.some.inj hhead).symm
    | cons kind kinds =>
        rw [hframes] at hhead
        exact (Option.some.inj hhead).symm

end Call

section Outcomes

/-- Why a walk ended early, after it had entered some terms: a call failed, and the walk had entered
all terms inside its term but no further ones; or all calls succeeded, and the next term does not
bind symbols. -/
def EndsEarly (e : ε) (entered rest : List Node) (calls : List (Call ε α)) : Prop :=
  (∃ visit before front scopes, calls = before ++ [⟨visit, .error e⟩] ∧
    (∀ call ∈ before, call.succeeds) ∧
    entered = front ++ visit.term.nodes visit.site scopes) ∨
  (∃ node after, rest = node :: after ∧ ¬node.term.BindsSymbols ∧
    (∀ node ∈ entered, node.term.BindsSymbols) ∧
    ∀ call ∈ calls, call.succeeds)

/-- Terms were walked to their end, from one chain to another one. -/
structure Completed (outer : Chain) (scopes : List Scope) (nodes : List Node) (places : List Place)
    (chain : Chain)
    (calls : List (Call ε α)) (chain' : Chain) : Prop where
  defined : chain' = (targets scopes nodes).foldl Chain.define chain
  binds : ∀ node ∈ nodes, node.term.BindsSymbols
  called : List.Forall₂ (Call.At outer) places calls
  succeeded : ∀ call ∈ calls, call.succeeds
  fed : ∀ call ∈ calls, call.Fed calls

/-- A walk of terms ended early. -/
structure Stopped (outer : Chain) (scopes : List Scope) (nodes : List Node) (places : List Place)
    (chain : Chain)
    (e : ε) (calls : List (Call ε α)) (chain' : Chain) : Prop where
  defined : ∃ entered rest, nodes = entered ++ rest ∧
    chain' = (targets scopes entered).foldl Chain.define chain ∧ EndsEarly e entered rest calls
  called : ∃ made later, places = made ++ later ∧ List.Forall₂ (Call.At outer) made calls
  fed : ∀ call ∈ calls, call.Fed calls

variable {outer chain chain₁ chain₂ : Chain} {scopes : List Scope} {nodes nodes' : List Node}
  {places places' : List Place} {calls calls' : List (Call ε α)} {e : ε}

theorem fed_append (h : ∀ call ∈ calls, call.Fed calls) (h' : ∀ call ∈ calls', call.Fed calls') :
    ∀ call ∈ calls ++ calls', call.Fed (calls ++ calls') := by
  intro call hcall
  rcases List.mem_append.mp hcall with hcall | hcall
  · exact (h call hcall).mono (List.subset_append_left calls calls')
  · exact (h' call hcall).mono (List.subset_append_right calls calls')

namespace EndsEarly

variable {entered rest : List Node}

/-- What was entered and called before does not change why a walk ended. -/
theorem prepend (h : EndsEarly e entered rest calls')
    (hnodes : ∀ node ∈ nodes, node.term.BindsSymbols) (hcalls : ∀ call ∈ calls, call.succeeds) :
    EndsEarly e (nodes ++ entered) rest (calls ++ calls') := by
  rcases h with ⟨visit, before, front, scopes, hfailed, hbefore, hentered⟩ |
    ⟨node, after, hrest, hnode, hentered, hcalls'⟩
  · refine .inl ⟨visit, calls ++ before, nodes ++ front, scopes, ?_, ?_, ?_⟩
    · rw [hfailed, List.append_assoc]
    · exact List.forall_mem_append.mpr ⟨hcalls, hbefore⟩
    · rw [hentered, List.append_assoc]
  · refine .inr ⟨node, after, hrest, hnode, ?_, ?_⟩
    · exact List.forall_mem_append.mpr ⟨hnodes, hentered⟩
    · exact List.forall_mem_append.mpr ⟨hcalls, hcalls'⟩

/-- Neither does what was never reached. -/
theorem extend (h : EndsEarly e entered rest calls) (nodes : List Node) :
    EndsEarly e entered (rest ++ nodes) calls := by
  rcases h with hcall | ⟨node, after, hrest, hearly⟩
  · exact .inl hcall
  · exact .inr ⟨node, after ++ nodes, by rw [hrest, List.cons_append], hearly⟩

end EndsEarly

namespace Completed

theorem nil : Completed outer scopes [] [] chain ([] : List (Call ε α)) chain where
  defined := rfl
  binds := List.forall_mem_nil _
  called := .nil
  succeeded := List.forall_mem_nil _
  fed := List.forall_mem_nil _

/-- One walk after another one. -/
theorem append (h : Completed outer scopes nodes places chain calls chain₁)
    (h' : Completed outer scopes nodes' places' chain₁ calls' chain₂) :
    Completed outer scopes (nodes ++ nodes') (places ++ places') chain
      (calls ++ calls') chain₂ where
  defined := by rw [targets_append, List.foldl_append, ← h.defined, h'.defined]
  binds := List.forall_mem_append.mpr ⟨h.binds, h'.binds⟩
  called := List.rel_append h.called h'.called
  succeeded := List.forall_mem_append.mpr ⟨h.succeeded, h'.succeeded⟩
  fed := fed_append h.fed h'.fed

/-- A walk that ends early after one that does not. -/
theorem append_stopped (h : Completed outer scopes nodes places chain calls chain₁)
    (h' : Stopped outer scopes nodes' places' chain₁ e calls' chain₂) :
    Stopped outer scopes (nodes ++ nodes') (places ++ places') chain e
      (calls ++ calls') chain₂ where
  defined := by
    obtain ⟨entered, rest, hnodes, hchain, hearly⟩ := h'.defined
    refine ⟨nodes ++ entered, rest, ?_, ?_, ?_⟩
    · rw [hnodes, List.append_assoc]
    · rw [targets_append, List.foldl_append, ← h.defined, hchain]
    · exact hearly.prepend h.binds h.succeeded
  called := by
    obtain ⟨made, later, hplaces, hmade⟩ := h'.called
    exact ⟨places ++ made, later, by rw [hplaces, List.append_assoc],
      List.rel_append h.called hmade⟩
  fed := fed_append h.fed h'.fed

end Completed

/-- What ends early ends just so if more was to come. -/
theorem Stopped.extend (h : Stopped outer scopes nodes places chain e calls chain₁)
    (nodes' : List Node) (places' : List Place) :
    Stopped outer scopes (nodes ++ nodes') (places ++ places') chain e calls chain₁ where
  defined := by
    obtain ⟨entered, rest, hnodes, hchain, hearly⟩ := h.defined
    exact ⟨entered, rest ++ nodes', by rw [hnodes, List.append_assoc], hchain, hearly.extend nodes'⟩
  called := by
    obtain ⟨made, later, hplaces, hmade⟩ := h.called
    exact ⟨made, later ++ places', by rw [hplaces, List.append_assoc], hmade⟩
  fed := h.fed

end Outcomes

section Terms

variable {outer chain chain₁ : Chain} {t : Term} {site : Nat} {scopes : List Scope}
  {frames : List FrameKind}
  {calls : List (Call ε α)} {results : List α} {outcome : Except ε α} {e : ε}

/-- What a term opens and defines before its parts are walked. -/
def Chain.within (chain : Chain) (site : Nat) (t : Term) : Chain :=
  (t.boundNames site).foldl Chain.define (chain.enter t)

theorem Chain.kinds_within (hkinds : chain.kinds = frames ++ outer.kinds) :
    (chain.within site t).kinds = t.innerFrames frames ++ outer.kinds := by
  rw [Chain.within, Chain.kinds_foldl_define, Chain.kinds_enter, hkinds, Term.innerFrames,
    Term.innerFrames, List.append_assoc]

/-- The parts of a term were walked to their end. -/
abbrev PartsCompleted (outer : Chain) (scopes : List Scope) (frames : List FrameKind) (site : Nat)
    (t : Term) (chain : Chain) (calls : List (Call ε α)) (chain₁ : Chain) : Prop :=
  Completed outer (t.innerScopes site scopes)
    (Term.nodesAll (site + 1) (t.innerScopes site scopes) t.children)
    (Term.placesAll (site + 1) (t.innerFrames frames) t.children) (chain.within site t) calls chain₁

/-- The call at a term comes after those at its parts. -/
theorem PartsCompleted.called_append
    (h : PartsCompleted outer scopes frames site t chain calls chain₁)
    (hkinds : chain.kinds = frames ++ outer.kinds) :
    List.Forall₂ (Call.At outer) (t.places site frames)
      (calls ++ [⟨⟨site, t, results, chain₁⟩, outcome⟩]) := by
  rw [Term.places_eq]
  apply List.rel_append h.called
  apply List.Forall₂.cons _ .nil
  apply Call.at_of_kinds rfl rfl
  change chain₁.kinds = _
  rw [h.defined, Chain.kinds_foldl_define, Chain.kinds_within hkinds]

theorem PartsCompleted.fed_append (h : PartsCompleted outer scopes frames site t chain calls chain₁)
    (hresults : List.Forall₂ (Call.Returned calls) (Term.partSites (site + 1) t.children) results) :
    ∀ call ∈ calls ++ [⟨⟨site, t, results, chain₁⟩, outcome⟩],
      call.Fed (calls ++ [⟨⟨site, t, results, chain₁⟩, outcome⟩]) := by
  intro call hcall
  rcases List.mem_append.mp hcall with hcall | hcall
  · exact (h.fed call hcall).mono (List.subset_append_left _ _)
  · obtain rfl := List.mem_singleton.mp hcall
    exact hresults.imp fun _ _ => Call.Returned.mono (List.subset_append_left _ _)

/-- A term is walked to its end once the call at it succeeds. -/
theorem PartsCompleted.call_ok (h : PartsCompleted outer scopes frames site t chain calls chain₁)
    (hkinds : chain.kinds = frames ++ outer.kinds) (hbinds : t.BindsSymbols)
    (hresults : List.Forall₂ (Call.Returned calls) (Term.partSites (site + 1) t.children) results)
    (a : α) :
    Completed outer scopes (t.nodes site scopes) (t.places site frames) chain
      (calls ++ [⟨⟨site, t, results, chain₁⟩, .ok a⟩]) (chain₁.leave t) where
  defined := by
    rw [h.defined, Term.nodes_eq]
    exact Chain.leave_foldl_define fun _ hnode => hnode
  binds := by
    rw [Term.nodes_eq]
    exact List.forall_mem_cons.mpr ⟨hbinds, h.binds⟩
  called := h.called_append hkinds
  succeeded := List.forall_mem_append.mpr ⟨h.succeeded, List.forall_mem_singleton.mpr rfl⟩
  fed := h.fed_append hresults

/-- The walk of a term ends early if the call at the term fails. -/
theorem PartsCompleted.call_error (h : PartsCompleted outer scopes frames site t chain calls chain₁)
    (hkinds : chain.kinds = frames ++ outer.kinds)
    (hresults : List.Forall₂ (Call.Returned calls) (Term.partSites (site + 1) t.children) results)
    (e : ε) :
    Stopped outer scopes (t.nodes site scopes) (t.places site frames) chain e
      (calls ++ [⟨⟨site, t, results, chain₁⟩, .error e⟩]) (chain₁.leave t) where
  defined := by
    refine ⟨t.nodes site scopes, [], (List.append_nil _).symm, ?_, ?_⟩
    · rw [h.defined, Term.nodes_eq]
      exact Chain.leave_foldl_define fun _ hnode => hnode
    · exact .inl ⟨⟨site, t, results, chain₁⟩, calls, [], scopes, rfl, h.succeeded, rfl⟩
  called := ⟨t.places site frames, [], (List.append_nil _).symm, h.called_append hkinds⟩
  fed := h.fed_append hresults

/-- The walk of a term ends early if that of its parts does. -/
theorem Stopped.of_parts
    (h : Stopped outer (t.innerScopes site scopes)
      (Term.nodesAll (site + 1) (t.innerScopes site scopes) t.children)
      (Term.placesAll (site + 1) (t.innerFrames frames) t.children)
      (chain.within site t) e calls chain₁)
    (hbinds : t.BindsSymbols) :
    Stopped outer scopes (t.nodes site scopes) (t.places site frames) chain e calls
      (chain₁.leave t) where
  defined := by
    obtain ⟨entered, rest, hnodes, hchain, hearly⟩ := h.defined
    refine ⟨⟨site, t, scopes⟩ :: entered, rest, ?_, ?_, ?_⟩
    · rw [Term.nodes_eq, hnodes, List.cons_append]
    · rw [hchain]
      apply Chain.leave_foldl_define
      intro node hnode
      rw [hnodes]
      exact List.mem_append_left _ hnode
    · -- The term itself was entered before its parts, and no call was made there.
      have hself : ∀ node ∈ [(⟨site, t, scopes⟩ : Node)], node.term.BindsSymbols :=
        List.forall_mem_singleton.mpr hbinds
      exact hearly.prepend hself (List.forall_mem_nil _)
  called := by
    obtain ⟨made, later, hplaces, hmade⟩ := h.called
    refine ⟨made, later ++ [⟨site, t, t.innerFrames frames⟩], ?_, hmade⟩
    rw [Term.places_eq, hplaces, List.append_assoc]
  fed := h.fed

/-- The walk of a term ends before any call if the term does not bind symbols. -/
theorem stopped_of_not_bindsSymbols (h : ¬t.BindsSymbols) :
    Stopped outer scopes (t.nodes site scopes) (t.places site frames) chain e
      ([] : List (Call ε α)) chain where
  defined := by
    refine ⟨[], t.nodes site scopes, rfl, rfl, ?_⟩
    exact .inr ⟨_, _, t.nodes_eq site scopes, h, List.forall_mem_nil _, List.forall_mem_nil _⟩
  called := ⟨[], _, rfl, .nil⟩
  fed := List.forall_mem_nil _

end Terms

/-- A part of a walk that starts with a given chain logs calls and ends with a chain, both as
stated, whether it succeeds or fails. -/
def Logs (x : EStateM ε (Walk (σ × List (Call ε α))) β) (chain : Chain)
    (Ok : β → List (Call ε α) → Chain → Prop) (Err : ε → List (Call ε α) → Chain → Prop) : Prop :=
  ∀ w, w.chain = chain → match x w with
    | .ok b w' => ∃ calls, w'.memo.2 = w.memo.2 ++ calls ∧ Ok b calls w'.chain
    | .error e w' => ∃ calls, w'.memo.2 = w.memo.2 ++ calls ∧ Err e calls w'.chain

namespace Logs

variable {x : EStateM ε (Walk (σ × List (Call ε α))) β} {chain : Chain}
  {Ok Ok₁ : β → List (Call ε α) → Chain → Prop} {Err Err₁ : ε → List (Call ε α) → Chain → Prop}

theorem of_pure {b : β} (h : Ok b [] chain) :
    Logs (pure b : EStateM ε (Walk (σ × List (Call ε α))) β) chain Ok Err := by
  rintro w rfl
  exact ⟨[], (List.append_nil _).symm, h⟩

theorem bind {f : β → EStateM ε (Walk (σ × List (Call ε α))) γ}
    {Ok : γ → List (Call ε α) → Chain → Prop}
    (hx : Logs x chain Ok₁ Err₁)
    (hf : ∀ b calls chain₁, Ok₁ b calls chain₁ →
      Logs (f b) chain₁ (fun c calls' => Ok c (calls ++ calls'))
        fun e calls' => Err e (calls ++ calls'))
    (herr : ∀ e calls chain₁, Err₁ e calls chain₁ → Err e calls chain₁) :
    Logs (x >>= f) chain Ok Err := by
  intro w hw
  have hx := hx w hw
  change match EStateM.bind x f w with | .ok _ _ => _ | .error _ _ => _
  unfold EStateM.bind
  cases hxw : x w with
  | error e w₁ =>
      rw [hxw] at hx
      obtain ⟨calls, hcalls, h⟩ := hx
      exact ⟨calls, hcalls, herr e calls _ h⟩
  | ok b w₁ =>
      rw [hxw] at hx
      obtain ⟨calls, hcalls, h⟩ := hx
      have hfb := hf b calls w₁.chain h w₁ rfl
      simp only
      cases hfw : f b w₁ with
      | error e w₂ =>
          rw [hfw] at hfb
          obtain ⟨calls', hcalls', h'⟩ := hfb
          exact ⟨calls ++ calls', by rw [hcalls', hcalls, List.append_assoc], h'⟩
      | ok c w₂ =>
          rw [hfw] at hfb
          obtain ⟨calls', hcalls', h'⟩ := hfb
          exact ⟨calls ++ calls', by rw [hcalls', hcalls, List.append_assoc], h'⟩

/-- In the frame of a term, a part of a walk starts with that frame, which is left afterwards. -/
theorem framed {t : Term}
    (hx : Logs x (chain.enter t) (fun b calls chain₁ => Ok b calls (chain₁.leave t))
    fun e calls chain₁ => Err e calls (chain₁.leave t)) :
    Logs (Visitor.framed t x) chain Ok Err := by
  unfold Chain.enter Chain.leave at hx
  unfold Visitor.framed
  cases hkind : t.frameKind? with
  | none =>
      rw [hkind] at hx
      exact hx
  | some kind =>
      rw [hkind] at hx
      rintro w rfl
      have hx := hx (w.enter kind) rfl
      simp only [Visitor.inFrame]
      cases hxw : x (w.enter kind) with
      | error e w₁ =>
          rw [hxw] at hx
          obtain ⟨calls, hcalls, h⟩ := hx
          simp only [w₁.chain_leave, w₁.memo_leave]
          exact ⟨calls, hcalls, h⟩
      | ok b w₁ =>
          rw [hxw] at hx
          obtain ⟨calls, hcalls, h⟩ := hx
          simp only [w₁.chain_leave, w₁.memo_leave]
          exact ⟨calls, hcalls, h⟩

variable (v : Visitor ε σ α)

theorem call {site : Nat} {t : Term} {results : List α} {Ok : α → List (Call ε α) → Chain → Prop}
    (hok : ∀ a, Ok a [⟨⟨site, t, results, chain⟩, .ok a⟩] chain)
    (herr : ∀ e, Err e [⟨⟨site, t, results, chain⟩, .error e⟩] chain) :
    Logs (v.logged.call site t results) chain Ok Err := by
  rintro w rfl
  simp only [Visitor.call, Visitor.logged]
  cases v.visit ⟨site, t, results, w.chain⟩ w.memo.1 with
  | ok a memo => exact ⟨_, rfl, hok a⟩
  | error e memo => exact ⟨_, rfl, herr e⟩

/-- Defining parameters succeeds if all of them are symbols. Otherwise some of them have been
defined. -/
theorem defineParams {Ok : Unit → List (Call ε α) → Chain → Prop} {params : List Term} {site : Nat}
    (hok : (∀ param ∈ params, ∃ name, param = .symbol name) →
      Ok () [] ((paramSymbols site params).foldl Chain.define chain))
    (herr : ¬(∀ param ∈ params, ∃ name, param = .symbol name) →
      ∀ e (symbols : List Symbol), Err e [] (symbols.foldl Chain.define chain)) :
    Logs (v.logged.defineParams site params) chain Ok Err := by
  induction params generalizing site chain with
  | nil => exact of_pure (hok fun _ hparam => by cases hparam)
  | cons param params ih =>
      by_cases hparam : ∃ name, param = .symbol name
      · obtain ⟨name, rfl⟩ := hparam
        have hrest : Logs (v.logged.defineParams (site + 1) params)
            (chain.define ⟨name, site⟩) Ok Err := by
          refine ih ?_ ?_
          · intro hparams
            exact hok (List.forall_mem_cons.mpr ⟨⟨name, rfl⟩, hparams⟩)
          · intro hparams e symbols
            exact herr (fun h => hparams (List.forall_mem_cons.mp h).2) e (⟨name, site⟩ :: symbols)
        rintro w rfl
        exact hrest { w with chain := w.chain.define ⟨name, site⟩ } rfl
      · rintro w rfl
        have hreject := herr (fun h => hparam (List.forall_mem_cons.mp h).1)
          (v.reject (.expectedSymbol param.kind .parameter)) []
        cases param with
        | symbol name => exact absurd ⟨name, rfl⟩ hparam
        | _ => exact ⟨[], (List.append_nil _).symm, hreject⟩

/-- A term defines the names it binds. If it does not bind symbols, then nothing it has defined
stays. -/
theorem bindNames {Ok : Unit → List (Call ε α) → Chain → Prop} {t : Term} {site : Nat}
    {outer : Chain} (hok : t.BindsSymbols → Ok () [] (outer.within site t))
    (herr : ¬t.BindsSymbols → ∀ e chain₁, chain₁.leave t = outer → Err e [] chain₁) :
    Logs (v.logged.bindNames site t) (outer.enter t) Ok Err := by
  cases t with
  | lambda body params =>
      apply defineParams v hok
      intro hparams e symbols
      exact herr hparams e _ (Chain.pop_foldl_define symbols outer .lambda)
  | assign target value =>
      by_cases htarget : ∃ name, target = .symbol name
      · obtain ⟨name, rfl⟩ := htarget
        intro w hw
        obtain rfl : w.chain = outer := hw
        exact ⟨[], (List.append_nil _).symm, hok ⟨name, rfl⟩⟩
      · intro w hw
        obtain rfl : w.chain = outer := hw
        have hreject := herr htarget (v.reject (.expectedSymbol target.kind .target)) w.chain rfl
        cases target with
        | symbol name => exact absurd ⟨name, rfl⟩ htarget
        | _ => exact ⟨[], (List.append_nil _).symm, hreject⟩
  | _ => exact of_pure (hok trivial)

end Logs

namespace Call

theorem map_eq_of_at {outer : Chain} {places : List Place} {calls : List (Call ε α)}
    (h : List.Forall₂ (At outer) places calls) :
    (calls.map fun call => (call.visit.site, call.visit.term)) = places.map fun p =>
      (p.site, p.term) := by
  induction h with
  | nil => rfl
  | cons hat _ ih => rw [List.map_cons, List.map_cons, hat.site, hat.term, ih]

end Call

namespace Visitor

variable (v : Visitor ε σ α)

section Runs

variable {outer : Chain}

/-- From any chain with `outer` below its frames, terms are walked to their end or the walk ends
early. -/
def Traverses (outer : Chain) (ts : List Term) : Prop :=
  ∀ (site : Nat) (scopes : List Scope) {frames : List FrameKind} {chain : Chain},
    chain.kinds = frames ++ outer.kinds →
      Logs (v.logged.walkAll site ts) chain
        (fun results calls chain' =>
          Completed outer scopes (Term.nodesAll site scopes ts)
            (Term.placesAll site frames ts) chain calls chain' ∧
            List.Forall₂ (Call.Returned calls) (Term.partSites site ts) results)
        (Stopped outer scopes (Term.nodesAll site scopes ts) (Term.placesAll site frames ts) chain)

/-- What holds of walks of its parts holds of walks of a term. -/
theorem logs_walk {t : Term} (hparts : v.Traverses outer t.children) (site : Nat)
    (scopes : List Scope) {frames : List FrameKind} {chain : Chain}
    (hkinds : chain.kinds = frames ++ outer.kinds) :
    Logs (v.logged.walk site t) chain
      (fun a calls chain' =>
        Completed outer scopes (t.nodes site scopes) (t.places site frames) chain calls chain' ∧
          Call.Returned calls site a)
      (Stopped outer scopes (t.nodes site scopes) (t.places site frames) chain) := by
  have hnames : Logs (v.logged.bindNames site t) (chain.enter t)
      (fun _ calls chain₁ => t.BindsSymbols ∧ calls = [] ∧ chain₁ = chain.within site t)
      (fun _ calls chain₁ => ¬t.BindsSymbols ∧ calls = [] ∧ chain₁.leave t = chain) := by
    apply Logs.bindNames v
    · exact fun hbinds => ⟨hbinds, rfl, rfl⟩
    · exact fun hbinds _ _ hleave => ⟨hbinds, rfl, hleave⟩
  rw [walk_eq]
  apply Logs.framed
  refine hnames.bind ?_ ?_
  · rintro _ _ _ ⟨hbinds, rfl, rfl⟩
    refine (hparts _ (t.innerScopes site scopes) (Chain.kinds_within hkinds)).bind ?_ ?_
    · rintro results calls chain₁ ⟨hcompleted, hresults⟩
      apply Logs.call v
      · intro a
        refine ⟨PartsCompleted.call_ok hcompleted hkinds hbinds hresults a, ?_⟩
        exact ⟨_, List.mem_append_right _ (List.mem_append_right calls List.mem_cons_self),
          rfl, rfl⟩
      · intro e
        exact PartsCompleted.call_error hcompleted hkinds hresults e
    · intro e calls chain₁ hstopped
      exact hstopped.of_parts hbinds
  · rintro e _ chain₁ ⟨hbinds, rfl, hleave⟩
    rw [hleave]
    exact stopped_of_not_bindsSymbols hbinds

theorem traverses (ts : List Term) : v.Traverses outer ts := by
  induction ts using Term.forestInduction with
  | nil =>
      intro site scopes frames chain _
      exact Logs.of_pure ⟨Completed.nil, .nil⟩
  | cons t ts ihparts ihrest =>
      intro site scopes frames chain hkinds
      rw [walkAll, Term.nodesAll, Term.placesAll]
      refine (v.logs_walk ihparts site scopes hkinds).bind ?_ ?_
      · rintro a calls chain₁ ⟨hfirst, hreturned⟩
        -- The first term leaves the frames as they were, so the others start below the same ones.
        have hkinds₁ : chain₁.kinds = frames ++ outer.kinds := by
          rw [hfirst.defined, Chain.kinds_foldl_define, hkinds]
        refine (ihrest _ scopes hkinds₁).bind ?_ ?_
        · rintro results calls' chain₂ ⟨hrest, hresults⟩
          apply Logs.of_pure
          rw [List.append_nil]
          refine ⟨hfirst.append hrest, .cons ?_ ?_⟩
          · exact hreturned.mono (List.subset_append_left _ _)
          · exact hresults.imp fun _ _ => Call.Returned.mono (List.subset_append_right _ _)
        · intro e calls' chain₂ hrest
          exact hfirst.append_stopped hrest
      · intro e calls chain₁ hfirst
        exact hfirst.extend _ _

end Runs

section Walks

variable {v} {site : Nat} {t : Term} {w w' : Walk σ}

/-- What a walk logs from an empty log on are its calls. -/
theorem of_logs {Ok : α → List (Call ε α) → Chain → Prop} {Err : ε → List (Call ε α) → Chain → Prop}
    (h : Logs (v.logged.walk site t) w.chain Ok Err) :
    (∀ a w', v.walk site t w = .ok a w' → Ok a (v.calls site t w) w'.chain) ∧
      ∀ e w', v.walk site t w = .error e w' → Err e (v.calls site t w) w'.chain := by
  have herase : v.walk site t w =
      mapState Walk.unlogged (v.logged.walk site t ⟨w.chain, w.events, (w.memo, [])⟩) :=
    v.erases_walk (v.erases_walkAll t.children) site ⟨w.chain, w.events, (w.memo, [])⟩
  have hlogs := h ⟨w.chain, w.events, (w.memo, [])⟩ rfl
  rw [herase, calls]
  cases hwalk : v.logged.walk site t ⟨w.chain, w.events, (w.memo, [])⟩ with
  | ok b w₁ =>
      rw [hwalk] at hlogs
      obtain ⟨calls, hcalls, hlogs⟩ := hlogs
      obtain rfl : w₁.memo.2 = calls := hcalls
      constructor
      · rintro a w' h
        cases h
        exact hlogs
      · rintro e w' h
        cases h
  | error e w₁ =>
      rw [hwalk] at hlogs
      obtain ⟨calls, hcalls, hlogs⟩ := hlogs
      obtain rfl : w₁.memo.2 = calls := hcalls
      constructor
      · rintro a w' h
        cases h
      · rintro e w' h
        cases h
        exact hlogs

theorem logs_walk_start : Logs (v.logged.walk site t) w.chain
    (fun a calls chain' =>
      Completed w.chain [] (t.nodes site []) (t.places site []) w.chain calls chain' ∧
        Call.Returned calls site a)
    (Stopped w.chain [] (t.nodes site []) (t.places site []) w.chain) :=
  v.logs_walk (v.traverses t.children) site [] (List.nil_append _).symm

/-- A walk that succeeds has walked its term to the end. -/
theorem completed_of_walk {a : α} (h : v.walk site t w = .ok a w') :
    Completed w.chain [] (t.nodes site []) (t.places site []) w.chain (v.calls site t w) w'.chain ∧
      Call.Returned (v.calls site t w) site a :=
  (of_logs logs_walk_start).1 a w' h

/-- A walk that fails has ended early. -/
theorem stopped_of_walk {e : ε} (h : v.walk site t w = .error e w') :
    Stopped w.chain [] (t.nodes site []) (t.places site []) w.chain e (v.calls site t w) w'.chain :=
  (of_logs logs_walk_start).2 e w' h

/-- The calls of a walk, complete or not, are at the first places of the term. -/
theorem exists_places_of_calls (v : Visitor ε σ α) (site : Nat) (t : Term) (w : Walk σ) :
    (∃ made later, t.places site [] = made ++ later ∧
      List.Forall₂ (Call.At w.chain) made (v.calls site t w)) ∧
      ∀ call ∈ v.calls site t w, call.Fed (v.calls site t w) := by
  cases hwalk : v.walk site t w with
  | ok a w' =>
      have hcompleted := (completed_of_walk hwalk).1
      exact ⟨⟨_, [], (List.append_nil _).symm, hcompleted.called⟩, hcompleted.fed⟩
  | error e w' =>
      have hstopped := stopped_of_walk hwalk
      exact ⟨hstopped.called, hstopped.fed⟩

/-- A walk succeeds if all its calls do and all terms bind symbols. -/
theorem exists_walk_eq_ok (hbinds : ∀ node ∈ t.nodes site [], node.term.BindsSymbols)
    (hcalls : ∀ call ∈ v.calls site t w, call.succeeds) : ∃ a w', v.walk site t w = .ok a w' := by
  cases hwalk : v.walk site t w with
  | ok a w' => exact ⟨a, w', rfl⟩
  | error e w' =>
      obtain ⟨entered, rest, hnodes, _, hearly⟩ := (stopped_of_walk hwalk).defined
      rcases hearly with ⟨visit, before, _, _, hfailed, _⟩ | ⟨node, after, hrest, hnode, _⟩
      · have hsucceeds := hcalls ⟨visit, .error e⟩ (by simp [hfailed])
        cases hsucceeds
      · have hnode' := hbinds node (by simp [hnodes, hrest])
        exact absurd hnode' hnode

end Walks

end Visitor

/-- A chain is another one with symbols defined in the innermost frame. -/
structure Chain.Defines (before : Chain) (symbols : List Symbol) (after : Chain) : Prop where
  core : after.core = before.core
  depth : after.depth = before.depth
  enclosing : after.enclosing = before.enclosing
  current : after.current = symbols.foldl Frame.define before.current

theorem Chain.defines_foldl (symbols : List Symbol) (chain : Chain) :
    chain.Defines symbols (symbols.foldl Chain.define chain) := by
  obtain ⟨hcore, hcurrent, henclosing⟩ := Chain.define_foldl symbols chain
  exact ⟨hcore, by rw [Chain.depth, henclosing, Chain.depth], henclosing, hcurrent⟩

namespace Visitor

/-- A walk leaves the chain as it found it, except that the innermost frame has the targets of the
assignments outside all blocks and lambdas of the term: of all of them if the walk succeeds, and of
those among the terms it has entered if it fails. -/
theorem walk_restores_chain (v : Visitor ε σ α) (site : Nat) (t : Term) (w : Walk σ) :
    (∀ a w', v.walk site t w = .ok a w' → w.chain.Defines (targets [] (t.nodes site [])) w'.chain) ∧
    ∀ e w', v.walk site t w = .error e w' →
      ∃ entered rest, t.nodes site [] = entered ++ rest ∧
        EndsEarly e entered rest (v.calls site t w) ∧
        w.chain.Defines (targets [] entered) w'.chain := by
  constructor
  · intro a w' hwalk
    rw [(completed_of_walk hwalk).1.defined]
    exact Chain.defines_foldl _ _
  · intro e w' hwalk
    obtain ⟨entered, rest, hnodes, hchain, hearly⟩ := (stopped_of_walk hwalk).defined
    refine ⟨entered, rest, hnodes, hearly, ?_⟩
    rw [hchain]
    exact Chain.defines_foldl _ _

/-- In `(f (x := x) { y := () => x } (z := z))` only `x` is defined once a visitor has failed at the
lambda. -/
theorem walk_restores_chain_failed :
    let v : Visitor Unit Unit Unit :=
      ⟨fun x => if x.term.kind = .lambda then throw () else pure (), fun _ => ()⟩
    let t : Term := .apply (.symbol "f") [.assign (.symbol "x") (.symbol "x"),
      .block [.assign (.symbol "y") (.lambda (.symbol "x") [])],
        .assign (.symbol "z") (.symbol "z")]
    let w : Walk Unit := ⟨.ofCore (.ofNames []), [], ()⟩
    ∃ w', v.walk 0 t w = .error () w' ∧ w'.chain = w.chain.define ⟨"x", 3⟩ ∧
      ∃ entered rest, t.nodes 0 [] = entered ++ rest ∧ EndsEarly () entered rest (v.calls 0 t w) ∧
        w.chain.Defines (targets [] entered) w'.chain := by
  intro v t w
  refine ⟨_, rfl, rfl, ?_⟩
  exact (walk_restores_chain v 0 t w).2 () _ rfl

/-- A walk calls its visitor in postorder, at each term at most once, with the frames around the
term on the chain and with the results of the parts of the term. If all terms bind symbols and no
call fails, then it calls the visitor at each term just once and gives the result of the last
call. -/
theorem walk_calls_in_postorder (v : Visitor ε σ α) (site : Nat) (t : Term) (w : Walk σ) :
    (∃ made later, t.places site [] = made ++ later ∧
      List.Forall₂ (Call.At w.chain) made (v.calls site t w)) ∧
    ((v.calls site t w).map (·.visit.site)).Nodup ∧
    (∀ call ∈ v.calls site t w, call.Fed (v.calls site t w)) ∧
    ((∀ node ∈ t.nodes site [], node.term.BindsSymbols) →
      (∀ call ∈ v.calls site t w, call.succeeds) →
      List.Forall₂ (Call.At w.chain) (t.places site []) (v.calls site t w) ∧
      ((v.calls site t w).map fun call => (call.visit.site, call.visit.term)).Perm
        ((t.nodes site []).map fun node => (node.site, node.term)) ∧
      ∃ a w', v.walk site t w = .ok a w' ∧ Call.Returned (v.calls site t w) site a) := by
  obtain ⟨⟨made, later, hplaces, hmade⟩, hfed⟩ := exists_places_of_calls v site t w
  refine ⟨⟨made, later, hplaces, hmade⟩, ?_, hfed, ?_⟩
  · have hnodup := t.nodup_map_site_places site []
    have hsites : (v.calls site t w).map (·.visit.site) = made.map Place.site := by
      have hsites := congrArg (List.map Prod.fst) (Call.map_eq_of_at hmade)
      rwa [List.map_map, List.map_map] at hsites
    rw [hplaces, List.map_append] at hnodup
    rw [hsites]
    exact (List.nodup_append.mp hnodup).1
  · intro hbinds hcalls
    obtain ⟨a, w', hwalk⟩ := exists_walk_eq_ok hbinds hcalls
    obtain ⟨hcompleted, hreturned⟩ := completed_of_walk hwalk
    refine ⟨hcompleted.called, ?_, a, w', hwalk, hreturned⟩
    rw [Call.map_eq_of_at hcompleted.called]
    exact t.places_perm site [] []

/-- In `{ x := (y) => x }` a visitor that gives the depth of the chain succeeds at all terms. -/
theorem walk_calls_in_postorder_depths :
    let v : Visitor ResolveError Unit Nat := ⟨fun x => pure x.chain.depth, id⟩
    let t : Term := .block [.assign (.symbol "x") (.lambda (.symbol "x") [.symbol "y"])]
    let w : Walk Unit := ⟨.ofCore (.ofNames []), [], ()⟩
    (v.calls 0 t w).map (·.visit.site) = [2, 4, 5, 3, 1, 0] ∧
      (v.calls 0 t w).map (·.visit.results) = [[], [], [], [3, 3], [2, 3], [2]] ∧
      List.Forall₂ (Call.At w.chain) (t.places 0 []) (v.calls 0 t w) := by
  intro v t w
  have hbinds : ∀ node ∈ t.nodes 0 [], node.term.BindsSymbols := by
    simp [t, Term.nodes, Term.nodesAll, Term.BindsSymbols]
  have hcalls : ∀ call ∈ v.calls 0 t w, call.succeeds := by decide
  exact ⟨by decide, by decide, ((walk_calls_in_postorder v 0 t w).2.2.2 hbinds hcalls).1⟩

end Visitor

end LambdaLift
