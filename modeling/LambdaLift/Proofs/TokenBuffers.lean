import LambdaLift.Proofs.Tiling

/-!
# Tokens one after another

Nothing counts how often the loop over the tokens of a text goes on. It ends because every token but
the last one moves the cursor on, so that it takes no more tokens than there are characters. The
tokens of a text are a buffer: they end with the only one that marks the end of the text.
-/

namespace LambdaLift

open Text

namespace Cursor

/-- The cursor `d` stands further on in the text than `c`, by the bytes of the characters between
them. -/
structure Precedes (c d : Cursor) : Prop where
  offset_lt : c.offset < d.offset
  exists_taken : ∃ taken, c.rest = taken ++ d.rest ∧ d.offset = c.offset + byteLength taken

/-- `Takes c ts d`: the loop over the tokens of a text takes the tokens `ts` from the cursor `c` on,
none of which ends the text, and then stands at `d`. -/
inductive Takes : Cursor → List Token → Cursor → Prop where
  | nothing {c : Cursor} : Takes c [] c
  | token {c d d' : Cursor} {t : Token} {ts : List Token} (next : c.next = .ok (t, d)) (ht :
    t.kind ≠ .eof)
      (rest : Takes d ts d') : Takes c (t :: ts) d'

section Loop

open Token

variable {c d : Cursor} {t : Token} {ts : List Token}

theorem precedes_of_next (h : c.next = .ok (t, d)) (ht : t.kind ≠ .eof) : c.Precedes d := by
  obtain ⟨offset, cs⟩ := c
  obtain ⟨gap, others, rfl, hgap, hothers⟩ := exists_gap cs
  rw [next_gap hgap] at h
  -- Behind the gap the text ends, or a token stands there, or the text is refused.
  by_cases hnil : others = []
  · rw [hnil, next, skipTrivia_of_settled settled_nil] at h
    cases h
    exact absurd rfl ht
  rcases hothers.decided hnil (offset + byteLength gap) with ⟨t', rest, rfl, ht'⟩ |
    ⟨bad, rest, e, rfl, hbad⟩
  · rw [next_of_standsAt ht'] at h
    cases h
    have hpos := ht'.spells.byteLength_pos ht'.ne_eof
    refine ⟨?_, gap ++ t.text.toList, by simp, by simp [Nat.add_assoc]⟩
    change offset < offset + byteLength gap + byteLength t.text.toList
    omega
  · rw [next_of_refused hbad] at h
    cases h

theorem Takes.ne_eof (h : c.Takes ts d) : ∀ t ∈ ts, t.kind ≠ .eof := by
  induction h with
  | nothing => simp
  | token _ ht _ ih => exact List.forall_mem_cons.mpr ⟨ht, ih⟩

/-- The loop ends at a token that cannot be read or at the end of the text. The characters pay for
the tokens. -/
theorem exists_takes (c : Cursor) :
    ∃ ts d, c.Takes ts d ∧ ts.length + d.rest.length ≤ c.rest.length ∧
    ((∃ e, d.next = .error e ∧ c.tokens = .error e) ∨
      ∃ last d', d.next = .ok (last, d') ∧ last.kind = .eof ∧ c.tokens = .ok (ts ++ [last])) := by
  fun_induction tokens c with
  | case1 c e hnext => exact ⟨[], c, .nothing, by simp, .inl ⟨e, hnext, rfl⟩⟩
  | case2 c t d hnext ht => exact ⟨[], c, .nothing, by simp, .inr ⟨t, d, hnext, ht, rfl⟩⟩
  | case3 c t d hnext ht hlt ih =>
      obtain ⟨ts, d', htakes, hlength, hends⟩ := ih
      refine ⟨t :: ts, d', .token hnext ht htakes, by rw [List.length_cons]; omega, ?_⟩
      rcases hends with ⟨e, hnext', herror⟩ | ⟨last, d'', hnext', hlast, hok⟩
      · exact .inl ⟨e, hnext', except_bind_eq_error_iff.mpr (.inl herror)⟩
      · exact .inr ⟨last, d'', hnext', hlast, except_bind_eq_ok_iff.mpr ⟨_, hok, rfl⟩⟩

end Loop

end Cursor

/-- Tokens that end with the only one among them that marks the end of a text. -/
structure Token.Buffer where
  words : List Token
  last : Token
  words_ne_eof : ∀ t ∈ words, t.kind ≠ .eof
  last_eof : last.kind = .eof

namespace Token.Buffer

variable (b : Buffer) {pos : Nat}

def tokens : List Token := b.words ++ [b.last]

/-- The tokens from a place on. -/
def ahead (pos : Nat) : List Token := b.tokens.drop pos

/-- The token at a place. Past the end it is the last one. -/
def peek (pos : Nat) : Token := (b.tokens[pos]?).getD b.last

theorem peek_eq_getElem (hlt : pos < b.words.length) : b.peek pos = b.words[pos] := by
  rw [peek, tokens, List.getElem?_append_left hlt, List.getElem?_eq_getElem hlt]
  rfl

/-- The only token that marks the end of a text stands behind the words, and past it nothing else is
seen. -/
theorem peek_eof_iff : (b.peek pos).kind = .eof ↔ b.words.length ≤ pos := by
  rcases Nat.lt_or_ge pos b.words.length with hlt | hge
  · rw [b.peek_eq_getElem hlt]
    exact iff_of_false (b.words_ne_eof _ (List.getElem_mem hlt)) (Nat.not_le_of_lt hlt)
  · have hlast : b.peek pos = b.last := by
      rw [peek, tokens, List.getElem?_append_right hge]
      cases pos - b.words.length with
      | zero => rfl
      | succ _ => rfl
    rw [hlast]
    exact iff_of_true b.last_eof hge

theorem lt_of_peek_ne_eof (h : (b.peek pos).kind ≠ .eof) : pos < b.words.length :=
  Nat.lt_of_not_le fun hle => h (b.peek_eof_iff.mpr hle)

theorem peek_mem_words (h : (b.peek pos).kind ≠ .eof) : b.peek pos ∈ b.words := by
  rw [b.peek_eq_getElem (b.lt_of_peek_ne_eof h)]
  exact List.getElem_mem _

/-- Up to the end of the text the token at a place is in the buffer. -/
theorem getElem?_peek (hpos : pos ≤ b.words.length) : b.tokens[pos]? = some (b.peek pos) := by
  have hlt : pos < b.tokens.length := by simpa [tokens] using Nat.lt_succ_of_le hpos
  rw [peek, List.getElem?_eq_getElem hlt]
  rfl

theorem ahead_eq_cons (hpos : pos ≤ b.words.length) :
    b.ahead pos = b.peek pos :: b.ahead (pos + 1) := by
  obtain ⟨hlt, hget⟩ := List.getElem?_eq_some_iff.mp (b.getElem?_peek hpos)
  rw [ahead, List.drop_eq_getElem_cons hlt, hget, ahead]

theorem ahead_eq_last (hpos : pos ≤ b.words.length) (heof : (b.peek pos).kind = .eof) :
    b.ahead pos = [b.last] := by
  obtain rfl : pos = b.words.length := Nat.le_antisymm hpos (b.peek_eof_iff.mp heof)
  simp [ahead, tokens]

theorem length_ahead (pos : Nat) : (b.ahead pos).length = b.words.length + 1 - pos := by
  simp [ahead, tokens]

end Token.Buffer

end LambdaLift
