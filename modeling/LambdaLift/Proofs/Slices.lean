import LambdaLift.Proofs.Composition

/-!
# Cutting a node out of its text

The part of a text over which a node runs is a text of its own. It is read as a module with this
node as its only expression, as many bytes earlier as the node starts late in the whole text.
-/

namespace LambdaLift

open Text

/-- The span `n` bytes earlier. -/
def Span.back (n : UInt32) (s : Span) : Span := ⟨s.start - n, s.stop - n⟩

namespace Relocation

theorem ofNat_sub_le (n : Nat) (a b : UInt32) (h : a ≤ b) :
    UInt32.ofNat (a.toNat - n) ≤ UInt32.ofNat (b.toNat - n) := by
  have ha := a.toNat_lt_size
  have hb := b.toNat_lt_size
  rw [UInt32.le_iff_toNat_le] at h ⊢
  rw [UInt32.toNat_ofNat_of_lt' (by omega), UInt32.toNat_ofNat_of_lt' (by omega)]
  omega

/-- Everything moves `n` bytes to the front, and what is no `n` bytes from the start moves there. -/
def earlier (n : Nat) : Relocation := ofMonotone (fun a => .ofNat (a.toNat - n)) (ofNat_sub_le n)

theorem move_earlier_ofOffsets {n i j : Nat} (hij : i ≤ j) (hj : n + j < UInt32.size) :
    (earlier n).move (.ofOffsets (n + i) (n + j)) = .ofOffsets i j := by
  change Span.ofOffsets ((UInt32.ofNat (n + i)).toNat - n) ((UInt32.ofNat (n + j)).toNat - n) = _
  rw [UInt32.toNat_ofNat_of_lt' (by omega), UInt32.toNat_ofNat_of_lt' hj, Nat.add_sub_cancel_left,
    Nat.add_sub_cancel_left]

/-- What is at least `n` bytes from the start moves by just so much. -/
theorem move_earlier {n : UInt32} {s : Span} (hstart : n ≤ s.start) (hstop : n ≤ s.stop) :
    (earlier n.toNat).move s = s.back n := by
  change Span.mk (.ofNat (s.start.toNat - n.toNat)) (.ofNat (s.stop.toNat - n.toNat)) = _
  rw [← UInt32.toNat_sub_of_le _ _ hstart, ← UInt32.toNat_sub_of_le _ _ hstop, UInt32.ofNat_toNat,
    UInt32.ofNat_toNat]
  rfl

end Relocation

namespace Tree

open Token

/-- A node moves to the start of a text together with all nodes inside it. -/
theorem ReadsExpression.relocate_earlier {used : List Token} {node : Tree}
    (h : ReadsExpression used node []) (hused : Ascending used) :
    node.relocate (.earlier node.span.start.toNat) = node.mapSpans (Span.back node.span.start) := by
  have hwithin : ReadWithin used node := ⟨[], used, [], by simp, h⟩
  refine mapSpans_congr node fun inner hinner => ?_
  obtain ⟨part, hpart, hspan⟩ :=
    (forall_mem_nodes (fun _ => ReadWithin.child) node hwithin inner hinner).exists_encloses hused
  have hstart := ((h.encloses hused).inside hused hspan hpart).1
  have hlt := hspan.start_lt_stop (hused.sublist hpart)
  exact Relocation.move_earlier hstart (UInt32.le_trans hstart (UInt32.le_of_lt hlt))

/-- Reading the slice of a text at a node gives the node. The bytes at the span of a node are a
text, and this has a tree, whose only child is the node with all spans moved to the front by as many
bytes as there are before it. -/
theorem ofSource_slice_eq_node {source : String} {tree node : Tree}
    (hlen : byteLength source.toList < UInt32.size) (h : ofSource source = .ok tree)
    (hnode : node ∈ nodesAll tree.children) :
    ∃ before text after : String, source = before ++ text ++ after ∧
      node.span.RunsOver before.toList text.toList ∧ node.span.bytes source = text.toUTF8 ∧
      ofSource text = .ok (branch moduleKind (.ofOffsets 0 (byteLength text.toList))
        [node.mapSpans (Span.back node.span.start)]) := by
  obtain ⟨ts, trees, htiles, hsequence, rfl⟩ := ofSource_eq_ok_iff.mp h
  obtain ⟨front, text, back, used, hsource, hruns, halone, hpassage⟩ :=
    (hsequence.nodes_readWithin node hnode).exists_runsOver htiles hlen
  have hlen' : byteLength front + byteLength text < UInt32.size := by
    rw [hsource, byteLength_append, byteLength_append] at hlen
    omega
  refine ⟨.ofList front, .ofList text, .ofList back, eq_append_ofList hsource, by simpa using hruns,
    hruns.bytes_eq hsource, ?_⟩
  -- The passage is read at the start of a text, with nothing behind it.
  have hcut : Tiles (byteLength front) text used [] := hpassage.of_lineEnd (by simp)
  have hmoved : Tiles 0 text (used.map (Token.relocate (.earlier (byteLength front)))) [] :=
    hcut.relocate fun i j hj hij => by
      rw [Nat.zero_add, Nat.zero_add]
      exact Relocation.move_earlier_ofOffsets hij (by omega)
  have hread := halone.relocate_alone (.earlier (byteLength front))
  rw [← hruns.1, halone.relocate_earlier (hcut.ascending hlen')] at hread
  rw [← hruns.1] at hmoved
  exact ofSource_eq_ok_iff.mpr ⟨_, _, by rwa [String.toList_ofList], .singleton hread, rfl⟩

/-- The block in a text that starts with a comment, cut out of it. -/
theorem ofSource_slice_eq_node_block :
    byteLength "// é\nf = (x) => { (g x); 1 }".toList < UInt32.size ∧
    ∃ tree node, ∃ text : String, ofSource "// é\nf = (x) => { (g x); 1 }" = .ok tree ∧
      node ∈ nodesAll tree.children ∧ node.kind = blockKind ∧
      node.span.bytes "// é\nf = (x) => { (g x); 1 }" = text.toUTF8 ∧
      ofSource text = .ok (branch moduleKind (.ofOffsets 0 (byteLength text.toList))
        [node.mapSpans (Span.back node.span.start)]) := by
  obtain ⟨tree, htree, hkinds⟩ :=
    exists_eq_ok_of_any (x := ofSource "// é\nf = (x) => { (g x); 1 }")
    (p := fun tree => (nodesAll tree.children).any (·.kind = blockKind)) (by decide +kernel)
  simp only [List.any_eq_true, decide_eq_true_eq] at hkinds
  obtain ⟨node, hnode, hkind⟩ := hkinds
  have hlen : byteLength "// é\nf = (x) => { (g x); 1 }".toList < UInt32.size := by decide
  obtain ⟨before, text, after, _, _, hbytes, hread⟩ := ofSource_slice_eq_node hlen htree hnode
  exact ⟨hlen, tree, node, text, htree, hnode, hkind, hbytes, hread⟩

end Tree

end LambdaLift
