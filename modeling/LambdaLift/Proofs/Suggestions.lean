import LambdaLift.Proofs.ChainRuns
import LambdaLift.Proofs.Renaming
import Mathlib.Data.List.Destutter

/-!
# Which names are suggested

The names near a target are ranked by their distance to it, and those with the same distance by
their code points. The best three are suggested. What is best is said of the set of the candidates,
so it does not matter how often a candidate occurs or where, and the names in a table may be visited
in any order. Sorting all candidates and dropping the repeats that stand side by side gives the same
suggestions, as equal names cannot be kept apart by the order.
-/

namespace LambdaLift.Suggestion

open EditDistance

/-- The code points of a text. -/
def codePoints (s : String) : List Nat := s.toList.map Char.toNat

/-- The name `a` is closer to the target than `b`, or it is as close and its code points come
first. -/
def Ahead (target a b : String) : Prop :=
  distance target a < distance target b ∨ distance target a = distance target b ∧
    codePoints a < codePoints b

/-- A candidate other than the target and at distance three at most. -/
structure Near (target : String) (candidates : List String) (name : String) : Prop where
  mem : name ∈ candidates
  ne : name ≠ target
  close : distance target name ≤ 3

/-- The names of `best`, which are in strict order and thus distinct, are the first three near
candidates, or all of them if there are fewer. -/
structure BestThree (target : String) (candidates best : List String) : Prop where
  ordered : best.Pairwise (Ahead target)
  near : ∀ name ∈ best, Near target candidates name
  length_le : best.length ≤ 3
  missed : ∀ name, Near target candidates name → name ∉ best → best.length = 3 ∧
    ∀ a ∈ best, Ahead target a name

section Order

variable {target a b c : String}

theorem map_toNat_lt_iff (l m : List Char) : l.map Char.toNat < m.map Char.toNat ↔ l < m := by
  induction l generalizing m with
  | nil => cases m <;> simp
  | cons c l ih =>
      cases m with
      | nil => simp
      | cons d m =>
          have hlt : c.toNat < d.toNat ↔ c < d := UInt32.lt_iff_toNat_lt.symm
          have heq : c.toNat = d.toNat ↔ c = d := Char.toNat_inj
          rw [List.map_cons, List.map_cons, List.cons_lt_cons_iff, List.cons_lt_cons_iff, ih, hlt,
            heq]

theorem codePoints_lt_iff : codePoints a < codePoints b ↔ a < b :=
  map_toNat_lt_iff a.toList b.toList

theorem Ahead.irrefl : ¬Ahead target a a := by
  simp [Ahead]

theorem Ahead.trans (hab : Ahead target a b) (hbc : Ahead target b c) : Ahead target a c := by
  unfold Ahead at *
  rw [codePoints_lt_iff] at *
  rcases hab with hab | ⟨hab, hlt⟩ <;> rcases hbc with hbc | ⟨hbc, hlt'⟩
  · exact .inl (Nat.lt_trans hab hbc)
  · exact .inl (hbc ▸ hab)
  · exact .inl (hab ▸ hbc)
  · exact .inr ⟨hab.trans hbc, String.lt_trans hlt hlt'⟩

theorem Ahead.ne (h : Ahead target a b) : a ≠ b := by
  rintro rfl
  exact Ahead.irrefl h

theorem ahead_trichotomy (target a b : String) : Ahead target a b ∨ a = b ∨ Ahead target b a := by
  unfold Ahead
  rw [codePoints_lt_iff, codePoints_lt_iff]
  rcases Nat.lt_trichotomy (distance target a) (distance target b) with hlt | heq | hgt
  · exact .inl (.inl hlt)
  · by_cases hab : a < b
    · exact .inl (.inr ⟨heq, hab⟩)
    by_cases hba : b < a
    · exact .inr (.inr (.inr ⟨heq.symm, hba⟩))
    exact .inr (.inl (String.le_antisymm (String.not_lt.mp hba) (String.not_lt.mp hab)))
  · exact .inr (.inr (.inl hgt))

/-- One name is sorted before another unless the other one is ahead of it. -/
theorem precedes_iff : precedes target a b ↔ ¬Ahead target b a := by
  unfold precedes Ahead
  rw [codePoints_lt_iff]
  simp only [Bool.or_eq_true, Bool.and_eq_true, decide_eq_true_eq, beq_iff_eq, ← String.not_lt]
  grind

theorem ahead_of_precedes (h : precedes target a b) (hne : a ≠ b) : Ahead target a b := by
  rcases ahead_trichotomy target a b with hab | hab | hba
  · exact hab
  · exact absurd hab hne
  · exact absurd hba (precedes_iff.mp h)

theorem precedes_trans (hab : precedes target a b) (hbc : precedes target b c) :
    precedes target a c := by
  rw [precedes_iff] at *
  intro hca
  rcases ahead_trichotomy target a b with h | rfl | h
  · exact hbc (hca.trans h)
  · exact hbc hca
  · exact hab h

theorem precedes_antisymm (hab : precedes target a b) (hba : precedes target b a) : a = b := by
  rcases ahead_trichotomy target a b with h | h | h
  · exact absurd h (precedes_iff.mp hba)
  · exact h
  · exact absurd h (precedes_iff.mp hab)

theorem precedes_total (target a b : String) :
    (precedes target a b || precedes target b a) = true := by
  rw [Bool.or_eq_true, precedes_iff, precedes_iff]
  by_contra h
  push Not at h
  exact Ahead.irrefl (h.1.trans h.2)

/-- Distinct names that are sorted are in strict order. -/
theorem pairwise_ahead {names : List String}
    (hsorted : names.Pairwise fun a b => precedes target a b) (hnodup : names.Nodup) :
    names.Pairwise (Ahead target) :=
  hsorted.imp₂ (fun _ _ => ahead_of_precedes) hnodup

end Order

namespace BestThree

variable {target : String} {candidates others best best' : List String}

theorem nodup (h : BestThree target candidates best) : best.Nodup := h.ordered.imp Ahead.ne

/-- The first three of all near candidates in strict order are the best three. -/
theorem of_take {names : List String} (hordered : names.Pairwise (Ahead target))
    (hnames : ∀ name, name ∈ names ↔ Near target candidates name) :
    BestThree target candidates (names.take 3) := by
  refine ⟨hordered.sublist (List.take_sublist 3 names), ?_, ?_, ?_⟩
  · exact fun name hname => (hnames name).mp (List.mem_of_mem_take hname)
  · exact List.length_take_le 3 names
  · intro name hnear hmissed
    -- A name that is not among the first three stands behind them.
    have hdrop : name ∈ names.drop 3 := by
      have hmem := (hnames name).mpr hnear
      rw [← List.take_append_drop 3 names] at hmem
      exact (List.mem_append.mp hmem).resolve_left hmissed
    constructor
    · have hlength := List.length_pos_of_mem hdrop
      rw [List.length_drop] at hlength
      rw [List.length_take]
      omega
    · intro a ha
      rw [← List.take_append_drop 3 names] at hordered
      exact (List.pairwise_append.mp hordered).2.2 a ha name hdrop

/-- No selection of the best three leaves out a name that another one has. -/
theorem subset (h : BestThree target candidates best) (h' : BestThree target candidates best') :
    best ⊆ best' := by
  intro x hx
  by_contra hmissed
  obtain ⟨hlength, hahead⟩ := h'.missed x (h.near x hx) hmissed
  -- The other one is full, so it has a name that this one does not have, and each of the two is
  -- ahead of the other.
  obtain ⟨y, hy, hy'⟩ : ∃ y ∈ best', y ∉ best := by
    by_contra hall
    push Not at hall
    have hsubset : x :: best' ⊆ best := List.cons_subset.mpr ⟨hx, hall⟩
    have hle := ((List.nodup_cons.mpr ⟨hmissed, h'.nodup⟩).subperm hsubset).length_le
    have hthree := h.length_le
    rw [List.length_cons] at hle
    omega
  exact Ahead.irrefl ((hahead y hy).trans ((h.missed y (h'.near y hy) hy').2 x hx))

/-- There is only one selection of the best three. -/
theorem unique (h : BestThree target candidates best) (h' : BestThree target candidates best') :
    best = best' := by
  have hperm : best.Perm best' :=
    (List.perm_ext_iff_of_nodup h.nodup h'.nodup).mpr fun _ =>
      ⟨fun hx => h.subset h' hx, fun hx => h'.subset h hx⟩
  exact hperm.eq_of_pairwise (fun _ _ _ _ hab hba => absurd (hab.trans hba) Ahead.irrefl) h.ordered
    h'.ordered

/-- What is best depends on the set of the candidates only. -/
theorem congr (h : BestThree target candidates best)
    (hmem : ∀ name, name ∈ others ↔ name ∈ candidates) :
    BestThree target others best := by
  have hnear (name : String) : Near target others name ↔ Near target candidates name :=
    ⟨fun h => ⟨(hmem name).mp h.mem, h.ne, h.close⟩,
      fun h => ⟨(hmem name).mpr h.mem, h.ne, h.close⟩⟩
  exact ⟨h.ordered, fun name hname => (hnear name).mpr (h.near name hname), h.length_le,
    fun name hname => h.missed name ((hnear name).mp hname)⟩

end BestThree

section Suggest

variable {target : String} {candidates : List String}

theorem nodup_eraseDups (names : List String) : names.eraseDups.Nodup := by
  match names with
  | [] => exact List.nodup_nil
  | name :: names =>
      rw [List.eraseDups_cons, List.nodup_cons, List.mem_eraseDups]
      exact ⟨by simp, nodup_eraseDups _⟩
termination_by names.length
decreasing_by exact Nat.lt_succ_of_le (List.length_filter_le _ _)

theorem suggest_bestThree (target : String) (candidates : List String) :
    BestThree target candidates (suggest target candidates) := by
  unfold suggest maxCount maxDistance
  refine .of_take (pairwise_ahead ?_ ?_) fun name => ?_
  · apply List.pairwise_mergeSort
    · exact fun _ _ _ => precedes_trans
    · exact precedes_total target
  · exact (List.mergeSort_perm _ _).nodup_iff.mpr ((nodup_eraseDups candidates).filter _)
  · rw [List.mem_mergeSort, List.mem_filter, List.mem_eraseDups, Bool.and_eq_true, bne_iff_ne,
      decide_eq_true_eq]
    exact ⟨fun h => ⟨h.1, h.2.1, h.2.2⟩, fun h => ⟨h.mem, h.ne, h.close⟩⟩

theorem suggest_eq_iff {result : List String} :
    suggest target candidates = result ↔ BestThree target candidates result := by
  constructor
  · rintro rfl
    exact suggest_bestThree target candidates
  · exact (suggest_bestThree target candidates).unique

theorem suggest_congr {others : List String} (hmem : ∀ name, name ∈ others ↔ name ∈ candidates) :
    suggest target others = suggest target candidates :=
  suggest_eq_iff.mpr ((suggest_bestThree target candidates).congr hmem)

/-- Equal names stand side by side in a sorted list, so it is enough to drop a name that is the same
as the one before. -/
theorem suggest_eq_take_destutter {sorted : List String}
    (hperm : sorted.Perm (candidates.filter fun name => name ≠ target ∧ distance target name ≤ 3))
    (hsorted : sorted.Pairwise fun a b => ¬Ahead target b a) :
    suggest target candidates = (sorted.destutter (· ≠ ·)).take 3 := by
  have hprecedes : sorted.Pairwise fun a b => precedes target a b := hsorted.imp precedes_iff.mpr
  have hantisymm : Std.Antisymm fun a b : String => precedes target a b :=
    ⟨fun _ _ => precedes_antisymm⟩
  rw [suggest_eq_iff, hprecedes.destutter_eq_dedup]
  have hstrict :=
    pairwise_ahead (hprecedes.sublist (List.dedup_sublist sorted)) (List.nodup_dedup sorted)
  refine .of_take hstrict fun name => ?_
  rw [List.mem_dedup, hperm.mem_iff, List.mem_filter, decide_eq_true_eq]
  exact ⟨fun h => ⟨h.1, h.2.1, h.2.2⟩, fun h => ⟨h.mem, h.ne, h.close⟩⟩

end Suggest

/-- `Visit names keys`: the keys of a table, each of them once, in the order in which they are
visited. -/
structure Visit (names keys : List String) : Prop where
  nodup : keys.Nodup
  mem_iff : ∀ name, name ∈ keys ↔ name ∈ names

/-- The visible names of a chain as they are visited, frame by frame from the innermost one on and
then the built-ins. -/
def VisitChain (chain : Chain) (visited : List String) : Prop :=
  ∃ frames builtins, List.Forall₂ (fun frame keys => Visit frame.names keys) chain.frames frames ∧
    Visit chain.core.names builtins ∧ visited = frames.flatten ++ builtins

theorem VisitChain.mem_iff {chain : Chain} {visited : List String} (h : VisitChain chain visited)
    (name : String) :
    name ∈ visited ↔ name ∈ chain.visibleNames := by
  obtain ⟨frames, builtins, hframes, hbuiltins, rfl⟩ := h
  rw [List.mem_append, Chain.visibleNames, List.mem_append, hbuiltins.mem_iff]
  refine or_congr_left ?_
  generalize chain.frames = outer at hframes
  induction hframes with
  | nil => simp
  | cons hkeys _ ih =>
      rw [List.flatten_cons, List.flatMap_cons, List.mem_append, List.mem_append, hkeys.mem_iff, ih]

/-- The suggestions for a name are the best three of the candidates and nothing else. They can be
had from a sorted list of the near candidates by dropping repeats side by side, and neither the
order nor the multiplicity of the candidates matters. So where a name without a meaning is reported,
the suggestions do not depend on the order in which the names of the frames, of the built-ins or of
the parameters are visited. -/
theorem suggest_eq_best (target : String) (candidates : List String) :
    (∀ result, suggest target candidates = result ↔ BestThree target candidates result) ∧
    (∀ sorted : List String,
      sorted.Perm (candidates.filter fun name => name ≠ target ∧ distance target name ≤ 3) →
      (sorted.Pairwise fun a b => ¬Ahead target b a) →
      suggest target candidates = (sorted.destutter (· ≠ ·)).take 3) ∧
    (∀ others, (∀ name, name ∈ others ↔ name ∈ candidates) →
      suggest target others = suggest target candidates) ∧
    (∀ chain visited e, VisitChain chain visited → (chain.get target = .error e ↔
      chain.lookup target = none ∧ e = .unresolved target (suggest target visited))) ∧
    (∀ (r : Renaming) visited e, Visit (r.bound.map Renamed.source) visited →
      (r.get target = .error e ↔
      r.find? target = none ∧ e = .unresolvedSymbol target (suggest target visited))) := by
  refine ⟨fun result => suggest_eq_iff, fun sorted => suggest_eq_take_destutter,
    fun others => suggest_congr, ?_, ?_⟩
  · intro chain visited e hvisited
    rw [Chain.get_eq_error_iff, suggest_congr hvisited.mem_iff]
  · intro r visited e hvisited
    have hmem (name : String) : name ∈ visited ↔ name ∈ r.sources := by
      rw [hvisited.mem_iff, Renaming.sources, List.mem_eraseDups]
    rw [Renaming.get_eq_error_iff, suggest_congr hmem]

/-- Four names are at distance one of `aa`. Two frames define one of them, and a parameter has the
name of another. -/
theorem suggest_eq_best_shuffled :
    let outer := ((Chain.ofCore (.ofNames ["ae", "ac"])).define ⟨"ad", 1⟩).define ⟨"ab", 2⟩
    let chain := (outer.push .block).define ⟨"ab", 3⟩
    let r := ((((Renaming.empty.bind "ad").bind "ab").bind "ae").bind "ac").bind "ad"
    suggest "aa" ["ae", "ab", "ac", "ad", "ab"] = ["ab", "ac", "ad"] ∧
    VisitChain chain ["ab", "ad", "ab", "ac", "ae"] ∧
      chain.get "aa" = .error (.unresolved "aa" ["ab", "ac", "ad"]) ∧
    Visit (r.bound.map Renamed.source) ["ac", "ab", "ae", "ad"] ∧
      r.get "aa" = .error (.unresolvedSymbol "aa" ["ab", "ac", "ad"]) := by
  intro outer chain r
  obtain ⟨_, hsort, hothers, hchain, hrenaming⟩ :=
    suggest_eq_best "aa" ["ae", "ab", "ac", "ad", "ab"]
  have hsorted : ["ab", "ab", "ac", "ad", "ae"].Pairwise fun a b => precedes "aa" a b := by
    decide +kernel
  have hbest : suggest "aa" ["ae", "ab", "ac", "ad", "ab"] = ["ab", "ac", "ad"] :=
    hsort ["ab", "ab", "ac", "ad", "ae"] (by decide +kernel) (hsorted.imp precedes_iff.mp)
  have hvisit : VisitChain chain ["ab", "ad", "ab", "ac", "ae"] := by
    refine ⟨[["ab"], ["ad", "ab"]], ["ac", "ae"], .cons ?_ (.cons ?_ .nil), ?_, rfl⟩
    · exact ⟨by decide, fun name => Iff.rfl⟩
    · exact ⟨by decide, fun name => (List.Perm.swap "ab" "ad" []).mem_iff⟩
    · exact ⟨by decide, fun name => (List.Perm.swap "ae" "ac" []).mem_iff⟩
  have hbound : Visit (r.bound.map Renamed.source) ["ac", "ab", "ae", "ad"] := by
    refine ⟨by decide, fun name => ?_⟩
    change name ∈ ["ac", "ab", "ae", "ad"] ↔ name ∈ ["ad", "ac", "ae", "ab", "ad"]
    grind
  refine ⟨hbest, hvisit, ?_, hbound, ?_⟩
  · rw [hchain chain _ _ hvisit, hothers _ (by grind), hbest]
    exact ⟨by decide +kernel, rfl⟩
  · rw [hrenaming r _ _ hbound, hothers _ (by grind), hbest]
    exact ⟨by decide +kernel, rfl⟩

end LambdaLift.Suggestion
