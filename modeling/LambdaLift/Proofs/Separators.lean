import LambdaLift.Proofs.Composition

/-!
# Semicolons

A semicolon can stand between the expressions of a module or of a block, and it says no more than a
blank does. A text in which every semicolon token is replaced by a space has the other tokens at the
same places. They are read as the same tree, since no expression of a module or of a block is
continued by the next one.
-/

namespace LambdaLift

open Text

namespace Cursor

open Token

/-- The text from the cursor on with a space in place of every semicolon token. -/
def blankSemicolons (c : Cursor) : List Char :=
  match h : c.next with
  | .error _ => c.rest
  | .ok (t, d) =>
    if ht : t.kind = .eof then c.rest
    else
      have := rest_next_lt h ht
      let gap := c.rest.take (c.rest.length - c.skipTrivia.rest.length)
      gap ++ (if t.kind = .semicolon then [' '] else t.text.toList) ++ d.blankSemicolons
termination_by c.rest.length

theorem blankSemicolons_gap {gap : List Char} (h : Gap gap []) (offset : Nat) :
    blankSemicolons ⟨offset, gap⟩ = gap := by
  have hnext : next ⟨offset, gap⟩ =
    .ok (⟨.eof, .ofOffsets (offset + byteLength gap) (offset + byteLength gap), ""⟩,
      ⟨offset + byteLength gap, []⟩) := by
    have hgap := next_gap h offset
    rw [List.append_nil] at hgap
    rw [hgap, next, skipTrivia_of_settled settled_nil]
    rfl
  rw [blankSemicolons]
  split
  · rfl
  · rename_i heq
    rw [hnext] at heq
    cases heq
    rfl

theorem blankSemicolons_token {gap rest : List Char} {t : Token} {offset : Nat}
    (hgap : Gap gap (t.text.toList ++ rest)) (ht : t.StandsAt (offset + byteLength gap) rest) :
    blankSemicolons ⟨offset, gap ++ (t.text.toList ++ rest)⟩ =
      gap ++ (if t.kind = .semicolon then [' '] else t.text.toList) ++
        blankSemicolons ⟨offset + byteLength gap + byteLength t.text.toList, rest⟩ := by
  have hskip : skipTrivia ⟨offset, gap ++ (t.text.toList ++ rest)⟩ =
      ⟨offset + byteLength gap, t.text.toList ++ rest⟩ := by
    rw [skipTrivia_gap hgap, skipTrivia_of_settled ht.settled]
  have hnext := (next_gap hgap offset).trans (next_of_standsAt ht)
  rw [blankSemicolons]
  split
  · rename_i heq
    rw [hnext] at heq
    cases heq
  · rename_i heq
    rw [hnext] at heq
    cases heq
    rw [dif_neg ht.ne_eof, hskip]
    simp

end Cursor

namespace Token

/-- The text with a space in place of every semicolon token. -/
def blankSemicolons (source : String) : String :=
  String.ofList (Cursor.ofString source).blankSemicolons

/-- The tokens that are no semicolons. -/
def unseparated (ts : List Token) : List Token := ts.filter (·.kind ≠ .semicolon)

section Unseparated

variable {t : Token} {ts us : List Token}

theorem unseparated_cons_of_semicolon (h : t.kind = .semicolon) :
    unseparated (t :: ts) = unseparated ts := by
  simp [unseparated, h]

theorem unseparated_cons (h : t.kind ≠ .semicolon) :
    unseparated (t :: ts) = t :: unseparated ts := by
  simp [unseparated, h]

theorem unseparated_append : unseparated (ts ++ us) = unseparated ts ++ unseparated us :=
  List.filter_append ts us

end Unseparated

/-- The text starts as before or with a space. -/
theorem Tiles.head?_blankSemicolons {offset : Nat} {cs : List Char} {ts : List Token}
    (h : Tiles offset cs ts []) :
    (Cursor.blankSemicolons ⟨offset, cs⟩).head? = cs.head? ∨
      (Cursor.blankSemicolons ⟨offset, cs⟩).head? = some ' ' := by
  generalize hrest : ([] : List Char) = rest at h
  cases h with
  | gap hgap =>
      subst hrest
      rw [Cursor.blankSemicolons_gap hgap]
      exact .inl rfl
  | @token _ gap t cs ts _ hgap ht _ =>
      subst hrest
      rw [List.append_nil] at hgap ht
      obtain ⟨c, text, htext, _⟩ := ht.spells.startsToken ht.ne_eof
      rw [List.append_assoc, Cursor.blankSemicolons_token hgap ht]
      cases gap with
      | cons d gap => exact .inl rfl
      | nil =>
          split
          · exact .inr rfl
          · rw [htext]
            exact .inl rfl

/-- The tokens that are no semicolons stay at their places. -/
theorem Tiles.blankSemicolons {offset : Nat} {cs : List Char} {ts : List Token}
    (h : Tiles offset cs ts []) :
    Tiles offset (Cursor.blankSemicolons ⟨offset, cs⟩) (unseparated ts) [] ∧
      byteLength (Cursor.blankSemicolons ⟨offset, cs⟩) = byteLength cs := by
  generalize hrest : ([] : List Char) = rest at h
  induction h with
  | gap hgap =>
      subst hrest
      rw [Cursor.blankSemicolons_gap hgap]
      exact ⟨.gap hgap, rfl⟩
  | @token offset gap t cs ts rest hgap ht tail ih =>
      subst hrest
      obtain ⟨htiles, hlength⟩ := ih rfl
      have hhead := tail.head?_blankSemicolons
      rw [List.append_nil] at hgap ht
      rw [List.append_assoc, Cursor.blankSemicolons_token hgap ht]
      generalize Cursor.blankSemicolons ⟨offset + byteLength gap + byteLength t.text.toList, cs⟩ =
        blanked
        at htiles hlength hhead ⊢
      by_cases hkind : t.kind = .semicolon
      · -- The gap before the semicolon, the space and the gap behind it become one.
        have hspells : Kind.semicolon.Spells t.text := hkind ▸ ht.spells
        have htext : t.text = ";" := hspells
        have hbytes : byteLength t.text.toList = byteLength [' '] := by
          rw [htext]
          decide
        rw [htext] at hgap
        have hwhole : Gap (gap ++ [' ']) (blanked ++ []) :=
          .append (hgap.of_rest fun hend => absurd (hend ';' rfl) (by decide))
            (.blank (by decide) .nil)
        rw [if_pos hkind, unseparated_cons_of_semicolon hkind]
        refine ⟨.append (.gap hwhole) ?_, ?_⟩
        · rwa [byteLength_append, ← hbytes, ← Nat.add_assoc]
        · simp only [byteLength_append, hlength, hbytes, Nat.add_assoc]
      · have hends : t.kind.Ends blanked := by
          rcases hhead with hhead | hhead
          · exact ht.ends.of_head? hhead
          · apply Kind.ends_of_isBlank
            rw [hhead]
            rintro c ⟨⟩
            decide
        rw [if_neg hkind, unseparated_cons hkind]
        refine ⟨.cons_of_ends hgap ht hends htiles, ?_⟩
        simp only [byteLength_append, hlength, Nat.add_assoc]

end Token

namespace Tree

open Token

mutual

/-- An expression is read from its own tokens also without the semicolons among them. -/
theorem exists_readsExpression_unseparated {ts rest : List Token} {tree : Tree}
    (h : ReadsExpression ts tree rest) :
    ∃ used, used ++ rest = ts ∧ ReadsExpression (unseparated used) tree [] := by
  cases h with
  | @integer t _ ht =>
      refine ⟨[t], rfl, ?_⟩
      rw [unseparated_cons (by rw [ht]; decide)]
      exact .integer ht
  | @symbol t _ ht _ =>
      refine ⟨[t], rfl, ?_⟩
      rw [unseparated_cons (by rw [ht]; decide)]
      exact .symbol ht (by simp [unseparated])
  | @assign t u vs value ht hu hvalue =>
      obtain ⟨used, hused, halone⟩ := exists_readsExpression hvalue
      refine ⟨t :: u :: used, by simp [hused], ?_⟩
      have hlt : used.length ≤ vs.length := by simp [← hused]
      obtain ⟨_, hread⟩ := halone.unseparated.expression_eq
      rw [unseparated_cons (by rw [ht]; decide), unseparated_cons (by rw [hu]; decide)]
      exact .assign ht hu hread
  | @apply t us group ht hgroup hne _ =>
      obtain ⟨inner, hinner, hsequence⟩ := exists_sequence_of_elements hgroup
      obtain ⟨_, _, hclose, _⟩ := derives_of_elements hgroup
      have hlt : inner.length < us.length := by
        simp only [← hinner, List.length_append, List.length_cons]; omega
      obtain ⟨_, hread⟩ := hsequence.unseparated.elements_eq t hclose []
      refine ⟨t :: (inner ++ [group.value.close]), by simp [hinner], ?_⟩
      rw [unseparated_cons (by rw [ht]; decide), unseparated_append,
        unseparated_cons (by rw [hclose]; decide)]
      exact .apply ht hread hne (by simp)
  | @lambda t us group a vs body ht hgroup hrest ha hparams hbody =>
      obtain ⟨inner, hinner, hsequence⟩ := exists_sequence_of_elements hgroup
      obtain ⟨_, _, hclose, _⟩ := derives_of_elements hgroup
      obtain ⟨used, hused, halone⟩ := exists_readsExpression hbody
      rw [hrest] at hinner
      have hlt : inner.length + used.length < us.length := by
        simp only [← hinner, ← hused, List.length_append, List.length_cons]
        omega
      obtain ⟨_, hread⟩ := halone.unseparated.expression_eq
      obtain ⟨_, hparts⟩ := hsequence.unseparated.elements_eq t hclose (a :: unseparated used)
      refine ⟨t :: (inner ++ group.value.close :: a :: used), by simp [hused, hinner], ?_⟩
      rw [unseparated_cons (by rw [ht]; decide), unseparated_append,
        unseparated_cons (by rw [hclose]; decide), unseparated_cons (by rw [ha]; decide)]
      exact .lambda ht hparts rfl ha hparams hread
  | @block t us group ht hgroup =>
      obtain ⟨inner, hinner, hsequence⟩ := exists_sequence_of_statements hgroup
      obtain ⟨_, _, hclose, _⟩ := derives_of_statements hgroup
      have hlt : inner.length < us.length := by
        simp only [← hinner, List.length_append, List.length_cons]; omega
      obtain ⟨_, hread⟩ := hsequence.unseparated.statements_eq t hclose []
      refine ⟨t :: (inner ++ [group.value.close]), by simp [hinner], ?_⟩
      rw [unseparated_cons (by rw [ht]; decide), unseparated_append,
        unseparated_cons (by rw [hclose]; decide)]
      exact .block ht hread
termination_by 3 * ts.length
decreasing_by all_goals simp only [List.length_cons]; omega

theorem ReadsExpression.unseparated {used : List Token} {tree : Tree}
    (h : ReadsExpression used tree []) :
    ReadsExpression (unseparated used) tree [] := by
  obtain ⟨used', hused, halone⟩ := exists_readsExpression_unseparated h
  rwa [← hused, List.append_nil]
termination_by 3 * used.length + 1

/-- A sequence is one also without semicolons. -/
theorem Sequence.unseparated {skips : Token → Prop} {ts : List Token} {trees : List Tree}
    (h : Sequence skips ts trees) :
    Sequence skips (unseparated ts) trees := by
  cases h with
  | nil => exact .nil
  | @skip t us trees ht tail =>
      by_cases hkind : t.kind = .semicolon
      · rw [unseparated_cons_of_semicolon hkind]
        exact tail.unseparated
      · rw [unseparated_cons hkind]
        exact .skip ht tail.unseparated
  | @part used tree us trees head tail =>
      obtain ⟨t, used', hused, _⟩ := head.exists_start
      rw [unseparated_append]
      exact .part head.unseparated tail.unseparated
termination_by 3 * ts.length + 2
decreasing_by
  · simp only [List.length_cons]; omega
  · simp only [List.length_cons]; omega
  · simp only [List.length_append]; omega
  · simp only [hused, List.length_append, List.length_cons]; omega

end

theorem ofSource_blankSemicolons {source : String} {tree : Tree} (h : ofSource source = .ok tree) :
    ofSource (blankSemicolons source) = .ok tree ∧
    byteLength (blankSemicolons source).toList = byteLength source.toList ∧
    ∃ tokens, read source = .ok tokens ∧
      read (blankSemicolons source) = .ok (unseparated tokens) := by
  obtain ⟨ts, trees, htiles, hsequence, rfl⟩ := ofSource_eq_ok_iff.mp h
  obtain ⟨hblanked, hlength⟩ := htiles.blankSemicolons
  have htext : (blankSemicolons source).toList = Cursor.blankSemicolons ⟨0, source.toList⟩ :=
    String.toList_ofList
  rw [← htext] at hblanked hlength
  refine ⟨?_, hlength, ?_⟩
  · exact ofSource_eq_ok_iff.mpr ⟨_, trees, hblanked, hsequence.unseparated, by rw [hlength]⟩
  · refine ⟨_, read_of_tiles htiles, ?_⟩
    rw [read_of_tiles hblanked, hlength, unseparated_append]
    rfl

/-- Semicolons are optional. A text that has a tree has the same one, spans included, with a space
in place of every semicolon token. It has all its other tokens at the same places then. -/
theorem ofSlices_blankSemicolons {source : String} {tree : Tree}
    (hlen : byteLength source.toList < UInt32.size) (h : ofSlices source = some (.ok tree)) :
    ofSlices (blankSemicolons source) = some (.ok tree) ∧
    ∃ tokens, read source = .ok tokens ∧
      read (blankSemicolons source) = .ok (unseparated tokens) := by
  rw [ofSlices_eq hlen] at h
  obtain ⟨htree, hlength, htokens⟩ := ofSource_blankSemicolons (Option.some.inj h)
  rw [ofSlices_eq (hlength ▸ hlen), htree]
  exact ⟨rfl, htokens⟩

/-- Semicolons between assignments, twice in a block, in a comment and at the end. -/
theorem ofSlices_blankSemicolons_block :
    blankSemicolons "x = 1; {a;; b} // c; d\n;(x);" = "x = 1  {a   b} // c; d\n (x) " ∧
    byteLength "x = 1; {a;; b} // c; d\n;(x);".toList < UInt32.size ∧
    ∃ tree, ofSlices "x = 1; {a;; b} // c; d\n;(x);" = some (.ok tree) ∧ tree.children.length = 3 ∧
      ofSlices "x = 1  {a   b} // c; d\n (x) " = some (.ok tree) := by
  have hblanked : blankSemicolons "x = 1; {a;; b} // c; d\n;(x);" =
      "x = 1  {a   b} // c; d\n (x) " := by
    decide +kernel
  have hlen : byteLength "x = 1; {a;; b} // c; d\n;(x);".toList < UInt32.size := by decide
  obtain ⟨tree, htree, hcount⟩ :=
    exists_eq_ok_of_any (x := ofSource "x = 1; {a;; b} // c; d\n;(x);")
    (p := fun tree => tree.children.length = 3) (by decide +kernel)
  have hslices := (ofSlices_eq hlen).trans (congrArg some htree)
  have hsame := (ofSlices_blankSemicolons hlen hslices).1
  rw [hblanked] at hsame
  exact ⟨hblanked, hlen, tree, hslices, of_decide_eq_true hcount, hsame⟩

section Spaced

variable (n : Nat)

theorem standsAt_semicolon (rest : List Char) : StandsAt ⟨.semicolon, ⟨0, 1⟩, ";"⟩ 0 rest :=
  ⟨nofun, rfl, rfl, trivial⟩

theorem blankSemicolons_spaced :
    blankSemicolons (Text.spaced ";" n "a") = Text.spaced " " n "a" := by
  have hname (offset : Nat) :
      StandsAt ⟨.ident, .ofOffsets offset (offset + byteLength "a".toList), "a"⟩ offset [] :=
    ⟨nofun, rfl, show isIdentifier "a" by decide, by simp [Kind.Ends]⟩
  have hspaces (offset : Nat) :
      Cursor.blankSemicolons ⟨offset, List.replicate n ' ' ++ "a".toList⟩ =
        List.replicate n ' ' ++ "a".toList := by
    have htoken :=
      Cursor.blankSemicolons_token (gap_replicate n _)
        (hname (offset + byteLength (List.replicate n ' ')))
    rw [Cursor.blankSemicolons_gap .nil, List.append_nil, List.append_nil] at htoken
    exact htoken
  have htoken :=
    Cursor.blankSemicolons_token .nil (standsAt_semicolon (List.replicate n ' ' ++ "a".toList))
  rw [hspaces] at htoken
  rw [blankSemicolons, Cursor.ofString, toList_spaced, Text.spaced]
  exact congrArg String.ofList htoken

theorem tiles_semicolon (rest : List Char) :
    Tiles 0 ";".toList [⟨.semicolon, ⟨0, 1⟩, ";"⟩] rest := by
  have htiles : Tiles 0 ([] ++ ";".toList ++ []) [⟨.semicolon, ⟨0, 1⟩, ";"⟩] rest :=
    .token .nil (standsAt_semicolon _) (.gap .nil)
  rwa [List.nil_append, List.append_nil] at htiles

end Spaced

/-- The name `a` at the offset `2 ^ 32` has the span of the semicolon, and of the space in its
place. -/
theorem ofSlices_blankSemicolons_collides :
    ∃ tree tree', ofSlices (Text.spaced ";" (UInt32.size - 1) "a") = some (.ok tree) ∧
      ofSlices (blankSemicolons (Text.spaced ";" (UInt32.size - 1) "a")) = some (.ok tree') ∧
        tree ≠ tree' := by
  have hback : Cursor.tokens ⟨4294967296, "a".toList⟩ =
      .ok [⟨.ident, ⟨0, 1⟩, "a"⟩, ⟨.eof, ⟨1, 1⟩, ""⟩] := eq_ok_of_value (by decide +kernel)
  have hread : read (Text.spaced ";" (UInt32.size - 1) "a") =
      .ok ([⟨.semicolon, ⟨0, 1⟩, ";"⟩] ++ _) :=
    read_spaced (tiles_semicolon _) hback
  have hread' : read (Text.spaced " " (UInt32.size - 1) "a") = _ :=
    read_spaced_gap (fun _ => .blank rfl .nil) hback
  obtain ⟨tree, htree, htext⟩ := exists_ofSlices_spaced hread (by decide +kernel)
    (p := fun tree => tree.children.map Tree.text = [";"]) (by decide +kernel)
  obtain ⟨tree', htree', htext'⟩ := exists_ofSlices_spaced hread' (by decide +kernel)
    (p := fun tree => tree.children.map Tree.text = [" "]) (by decide +kernel)
  rw [blankSemicolons_spaced]
  refine ⟨tree, tree', htree, htree', ?_⟩
  rintro rfl
  exact absurd ((of_decide_eq_true htext).symm.trans (of_decide_eq_true htext')) (by decide)

end Tree

end LambdaLift
