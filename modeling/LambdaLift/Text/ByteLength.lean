/-!
# Length in bytes

Offsets into a text count the bytes of its UTF-8 form.
-/

namespace LambdaLift.Text

/-- The number of bytes that the characters take in UTF-8. -/
def byteLength (cs : List Char) : Nat := cs.foldr (fun c n => c.utf8Size + n) 0

@[simp] theorem byteLength_nil : byteLength [] = 0 := rfl

@[simp] theorem byteLength_cons (c : Char) (cs : List Char) :
    byteLength (c :: cs) = c.utf8Size + byteLength cs := rfl

@[simp] theorem byteLength_append (cs ds : List Char) :
    byteLength (cs ++ ds) = byteLength cs + byteLength ds := by
  induction cs with
  | nil => simp
  | cons c cs ih => rw [List.cons_append, byteLength_cons, byteLength_cons, ih, Nat.add_assoc]

/-- Splits a text behind its first `n` bytes, unless it is shorter or a character lies across the
cut. -/
def splitBytes? : Nat → List Char → Option (List Char × List Char)
  | 0, cs => some ([], cs)
  | _ + 1, [] => none
  | n + 1, c :: cs =>
    if c.utf8Size ≤ n + 1 then
      (splitBytes? (n + 1 - c.utf8Size) cs).map fun p => (c :: p.1, p.2)
    else none

theorem splitBytes?_append (front back : List Char) :
    splitBytes? (byteLength front) (front ++ back) = some (front, back) := by
  induction front with
  | nil => simp [splitBytes?]
  | cons c front ih =>
    have hpos := c.utf8Size_pos
    obtain ⟨n, hn⟩ : ∃ n, byteLength (c :: front) = n + 1 :=
      ⟨byteLength (c :: front) - 1, by rw [byteLength_cons]; omega⟩
    have hrest : n + 1 - c.utf8Size = byteLength front := by
      rw [← hn, byteLength_cons]
      omega
    rw [hn, List.cons_append, splitBytes?, if_pos (by rw [← hn, byteLength_cons]; omega), hrest, ih]
    rfl

theorem eq_of_splitBytes? {n : Nat} {cs front back : List Char}
    (h : splitBytes? n cs = some (front, back)) : cs = front ++ back ∧ byteLength front = n := by
  fun_induction splitBytes? n cs generalizing front with
  | case1 cs =>
    cases h
    exact ⟨rfl, rfl⟩
  | case2 n => cases h
  | case3 n c cs hle ih =>
    obtain ⟨⟨others, rest⟩, hsplit, heq⟩ := Option.map_eq_some_iff.mp h
    cases heq
    obtain ⟨rfl, hlength⟩ := ih hsplit
    refine ⟨rfl, ?_⟩
    change c.utf8Size + byteLength others = n + 1
    omega
  | case4 n c cs hgt => cases h

end LambdaLift.Text
