import LambdaLift.Proofs.Composition

/-!
# Texts one below the other

Two texts with a newline between them are read as the expressions of the first one followed by those
of the second one. A comment at the end of the first text ends at the newline, and nothing that a
module can start with continues an expression before it.
-/

namespace LambdaLift

open Text

namespace Relocation

theorem ofNat_min_le (n : Nat) (a b : UInt32) (h : a ≤ b) :
    UInt32.ofNat (min (a.toNat + n) (UInt32.size - 1)) ≤
      UInt32.ofNat (min (b.toNat + n) (UInt32.size - 1)) := by
  have hsize : 0 < UInt32.size := by decide
  rw [UInt32.le_iff_toNat_le] at h ⊢
  rw [UInt32.toNat_ofNat_of_lt' (by omega), UInt32.toNat_ofNat_of_lt' (by omega)]
  omega

/-- Everything moves `n` bytes to the back, as far as offsets go. -/
def later (n : Nat) : Relocation :=
  ofMonotone (fun a => .ofNat (min (a.toNat + n) (UInt32.size - 1))) (ofNat_min_le n)

/-- Where offsets go far enough, everything moves by just so much. -/
theorem move_later {n : Nat} {s : Span} (hstart : s.start.toNat + n < UInt32.size)
    (hstop : s.stop.toNat + n < UInt32.size) : (later n).move s = s.shift n := by
  change Span.ofOffsets (min (s.start.toNat + n) (UInt32.size - 1))
    (min (s.stop.toNat + n) (UInt32.size - 1)) = _
  rw [Nat.min_eq_left (by omega), Nat.min_eq_left (by omega)]
  rfl

theorem move_later_ofOffsets {n i j : Nat} (hij : i ≤ j) (hj : n + j < UInt32.size) :
    (later n).move (.ofOffsets i j) = .ofOffsets (n + i) (n + j) := by
  have hstart : (UInt32.ofNat i).toNat = i := UInt32.toNat_ofNat_of_lt' (by omega)
  have hstop : (UInt32.ofNat j).toNat = j := UInt32.toNat_ofNat_of_lt' (by omega)
  calc
    (later n).move (.ofOffsets i j) = (Span.ofOffsets i j).shift n :=
      move_later (by rw [Span.ofOffsets, hstart]; omega) (by rw [Span.ofOffsets, hstop]; omega)
    _ = .ofOffsets (n + i) (n + j) := by
      change Span.ofOffsets ((UInt32.ofNat i).toNat + n) ((UInt32.ofNat j).toNat + n) = _
      rw [hstart, hstop, Nat.add_comm i, Nat.add_comm j]

end Relocation

namespace Tree

open Token

/-- A sequence read at one place is read at another one, with its trees there. -/
theorem Sequence.relocate {ts : List Token} {trees : List Tree} (h : Sequence Separates ts trees)
    (f : Relocation) :
    Sequence Separates (ts.map (Token.relocate f)) (relocateAll f trees) := by
  induction h with
  | nil => exact .nil
  | @skip t ts trees ht _ ih => exact .skip (t := t.relocate f) ht ih
  | @part used ts tree trees head _ ih =>
      rw [List.map_append]
      exact .part (head.relocate_alone f) ih

/-- The trees of a text move together with all their nodes, as long as the text itself fits behind
`n` bytes. -/
theorem Sequence.relocateAll_later {cs rest : List Char} {ts : List Token} {trees : List Tree}
    {n : Nat} (h : Sequence Separates ts trees) (htiles : Tiles 0 cs ts rest)
    (hlen : n + byteLength cs < UInt32.size) :
    relocateAll (.later n) trees = trees.map (mapSpans (Span.shift n)) := by
  rw [← mapSpansAll_eq_map]
  refine mapSpansAll_congr trees fun node hnode => ?_
  obtain ⟨hstart, hstop⟩ := (h.nodes_readWithin node hnode).span_le htiles (by omega)
  exact Relocation.move_later (by omega) (by omega)

/-- Two texts with a newline between them have the expressions of the first one and then those of
the second one, which start as many bytes later as the first one and the newline take up. -/
theorem ofSource_append_newline {above below : String} {tree tree' : Tree}
    (hlen : byteLength (above ++ "\n" ++ below).toList < UInt32.size)
    (h : ofSource above = .ok tree) (h' : ofSource below = .ok tree') :
    ofSource (above ++ "\n" ++ below) =
      .ok (branch moduleKind (.ofOffsets 0 (byteLength (above ++ "\n" ++ below).toList))
        (tree.children ++ tree'.children.map
          (mapSpans (Span.shift (byteLength above.toList + 1))))) := by
  obtain ⟨ts, trees, htiles, hsequence, rfl⟩ := ofSource_eq_ok_iff.mp h
  obtain ⟨ts', trees', htiles', hsequence', rfl⟩ := ofSource_eq_ok_iff.mp h'
  have hsource : (above ++ "\n" ++ below).toList = above.toList ++ (['\n'] ++ below.toList) := by
    simp
  have hnewline : byteLength ['\n'] = 1 := by decide
  have hlen' : byteLength above.toList + 1 + byteLength below.toList < UInt32.size := by
    rw [hsource, byteLength_append, byteLength_append, hnewline, ← Nat.add_assoc] at hlen
    exact hlen
  -- The newline is blank text between the tokens above it and those below it.
  have habove : Tiles 0 above.toList ts (['\n'] ++ below.toList ++ []) :=
    htiles.of_lineEnd (by simp)
  have hgap : Tiles (0 + byteLength above.toList) ['\n'] [] (below.toList ++ []) :=
    .gap (.blank (by decide) .nil)
  have hbelow : Tiles (byteLength above.toList + 1) below.toList
      (ts'.map (Token.relocate (.later (byteLength above.toList + 1)))) [] :=
    htiles'.relocate fun i j hj hij => by
      rw [Nat.zero_add, Nat.zero_add]
      exact Relocation.move_later_ofOffsets hij (by omega)
  have hrest := hgap.append (by rw [Nat.zero_add, hnewline]; exact hbelow)
  have hall := hsequence.append (hsequence'.relocate (.later (byteLength above.toList + 1)))
  rw [hsequence'.relocateAll_later htiles' hlen'] at hall
  refine ofSource_eq_ok_iff.mpr ⟨_, _, ?_, hall, rfl⟩
  rw [hsource]
  exact habove.append hrest

/-- A comment at the end of the text above and a call at the start of the text below. -/
theorem ofSource_append_newline_call :
    byteLength ("x = (y) => y // é" ++ "\n" ++ "(x 1)").toList < UInt32.size ∧
    ∃ tree tree', ofSource "x = (y) => y // é" = .ok tree ∧ ofSource "(x 1)" = .ok tree' ∧
      tree.children.length = 1 ∧ tree'.children.length = 1 ∧
      ofSource ("x = (y) => y // é" ++ "\n" ++ "(x 1)") =
        .ok (branch moduleKind (.ofOffsets 0
          (byteLength ("x = (y) => y // é" ++ "\n" ++ "(x 1)").toList))
          (tree.children ++ tree'.children.map
            (mapSpans (Span.shift (byteLength "x = (y) => y // é".toList + 1))))) := by
  obtain ⟨tree, htree, hcount⟩ := exists_eq_ok_of_any (x := ofSource "x = (y) => y // é")
    (p := fun tree => tree.children.length = 1) (by decide +kernel)
  obtain ⟨tree', htree', hcount'⟩ := exists_eq_ok_of_any (x := ofSource "(x 1)")
    (p := fun tree => tree.children.length = 1) (by decide +kernel)
  have hlen : byteLength ("x = (y) => y // é" ++ "\n" ++ "(x 1)").toList < UInt32.size := by decide
  exact ⟨hlen, tree, tree', htree, htree', of_decide_eq_true hcount, of_decide_eq_true hcount',
    ofSource_append_newline hlen htree htree'⟩

end Tree

end LambdaLift
