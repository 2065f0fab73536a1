import LambdaLift.Proofs.BoundNames
import Mathlib.Data.Finset.Card
import Mathlib.Order.Bounds.Basic

/-!
# The number behind a taken name

A name that is taken gets a number behind it. The numbers are tried one after another, from the
number of emitted names on, and nothing bounds this loop. It stops all the same: the names that it
tries are distinct and the taken name is none of them, so at least one of as many numbers as there
are emitted names is free.
-/

namespace LambdaLift.Renaming

/-- The loop that tries one number after another, from `count` on, stops at the free number `n`.
Nothing bounds how often it goes on. -/
inductive CountsUp (r : Renaming) (base : String) : (count n : Nat) → Prop where
  | stop {count : Nat} (free : numbered base count ∉ r.emitted) : CountsUp r base count count
  | next {count n : Nat} (taken : numbered base count ∈ r.emitted) (rest :
    CountsUp r base (count + 1) n) :
      CountsUp r base count n

section Loop

variable {r : Renaming} {base : String} {count n k : Nat}

theorem countsUp_of_taken (hle : count ≤ n) (hfree : numbered base n ∉ r.emitted)
    (htaken : ∀ k, count ≤ k → k < n → numbered base k ∈ r.emitted) : r.CountsUp base count n := by
  obtain ⟨steps, rfl⟩ := Nat.exists_eq_add_of_le hle
  induction steps generalizing count with
  | zero => exact .stop hfree
  | succ steps ih =>
      have hnext : count + (steps + 1) = count + 1 + steps := by omega
      refine .next (htaken count (Nat.le_refl _) (by omega)) ?_
      rw [hnext] at hfree htaken ⊢
      exact ih (Nat.le_add_right _ _) hfree fun k hk => htaken k (Nat.le_of_succ_le hk)

theorem CountsUp.unique (h : r.CountsUp base count n) (h' : r.CountsUp base count k) : k = n := by
  induction h with
  | stop free =>
      cases h' with
      | stop _ => rfl
      | next taken _ => exact absurd taken free
  | next taken _ ih =>
      cases h' with
      | stop free => exact absurd taken free
      | next _ rest => exact ih rest

end Loop

/-- Whatever names are bound, the number of names is that of the distinct emitted ones, and a fresh
name is none of them. For a name that is taken the loop over the numbers stops with the fresh name.
This is the name with the least number behind it that is not below the number of emitted names and
makes it free, and it is below twice that number. -/
theorem fresh_least_number {bases names : List String} {r : Renaming}
    (hr : empty.bindAll bases = (names, r)) (base : String) :
    r.emitted.toFinset.card = r.size ∧ r.fresh base ∉ r.emitted ∧
    (base ∈ r.emitted → ∃ n, (∀ k, r.CountsUp base r.size k ↔ k = n) ∧
      r.fresh base = base ++ n.repr ∧
      IsLeast {k | r.size ≤ k ∧ base ++ k.repr ∉ r.emitted} n ∧ n ≤ 2 * r.size - 1) := by
  have hnodup : r.emitted.Nodup := by
    have hbound := nodup_emitted_bindAll bases
    rwa [hr] at hbound
  refine ⟨(List.toFinset_card_of_nodup hnodup).trans (List.length_map _), r.fresh_notMem base,
    fun hbase => ?_⟩
  obtain ⟨n, hn, hfresh, hfree, htaken⟩ := fresh_of_mem hbase
  obtain ⟨hle, hlt⟩ := List.mem_range'_1.mp hn
  have hstops : r.CountsUp base r.size n := countsUp_of_taken hle hfree htaken
  refine ⟨n, fun k => ⟨hstops.unique, fun hk => hk ▸ hstops⟩, hfresh, ⟨⟨hle, hfree⟩, ?_⟩, by omega⟩
  rintro k ⟨hk, hkfree⟩
  by_contra hsmaller
  exact hkfree (htaken k hk (Nat.lt_of_not_le hsmaller))

/-- After `x2` and `x` the name `x` is taken, and so is the first number that is tried for it. -/
theorem fresh_least_number_taken :
    let r := (empty.bindAll ["x2", "x"]).2
    "x" ∈ r.emitted ∧ r.fresh "x" ∉ r.emitted ∧ ∃ n, (∀ k, r.CountsUp "x" 2 k ↔ k = n) ∧
      r.fresh "x" = "x" ++ n.repr ∧ IsLeast {k | 2 ≤ k ∧ "x" ++ k.repr ∉ r.emitted} n ∧ n = 3 := by
  intro r
  have hr : empty.bindAll ["x2", "x"] = ((empty.bindAll ["x2", "x"]).1, r) := rfl
  have htaken : "x" ∈ r.emitted := by decide +kernel
  obtain ⟨_, hfree, hnumber⟩ := fresh_least_number hr "x"
  obtain ⟨n, hloop, hfresh, hleast, hle⟩ := hnumber htaken
  refine ⟨htaken, hfree, n, hloop, hfresh, hleast, ?_⟩
  have hne : n ≠ 2 := by
    rintro rfl
    exact hleast.1.2 (by decide +kernel)
  have hge : 2 ≤ n := hleast.1.1
  have hbound : n ≤ 3 := hle
  omega

end LambdaLift.Renaming
