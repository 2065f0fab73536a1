import LambdaLift.Proofs.Lexemes
import LambdaLift.Proofs.Sequencing

/-!
# Cutting texts into tokens

A text is tiled by gaps and tokens, each token as long as it can be. Every text is tiled as a whole
or up to a place where it is refused, in one way only, and this is what the reader of tokens finds.
-/

namespace LambdaLift

open Text

namespace Token

/-- `Tiles offset cs ts rest`: the text `cs`, which starts at a byte offset and is followed by
`rest`, consists of the tokens `ts` with gaps around them. -/
inductive Tiles : Nat → List Char → List Token → List Char → Prop
  | gap {offset gap rest} (hgap : Gap gap rest) : Tiles offset gap [] rest
  | token {offset gap t cs ts rest} (hgap : Gap gap (t.text.toList ++ cs ++ rest))
      (ht : StandsAt t (offset + byteLength gap) (cs ++ rest))
      (tail : Tiles (offset + byteLength gap + byteLength t.text.toList) cs ts rest) :
      Tiles offset (gap ++ t.text.toList ++ cs) (t :: ts) rest

theorem Gap.append {gap gap' rest : List Char} (h : Gap gap (gap' ++ rest)) (h' : Gap gap' rest) :
    Gap (gap ++ gap') rest := by
  generalize hrest : gap' ++ rest = others at h
  induction h with
  | nil => exact h'
  | blank hc _ ih => exact .blank hc (ih hrest)
  | comment hbody hend _ ih =>
      rw [List.cons_append, List.cons_append, List.append_assoc]
      exact .comment hbody (by rwa [List.append_assoc, hrest]) (ih hrest)

/-- Texts that stand one behind the other are tiled by the tokens of the first and then those of the
second. -/
theorem Tiles.append {offset : Nat} {cs ds rest : List Char} {ts us : List Token}
    (h : Tiles offset cs ts (ds ++ rest)) (h' : Tiles (offset + byteLength cs) ds us rest) :
    Tiles offset (cs ++ ds) (ts ++ us) rest := by
  generalize hrest : ds ++ rest = others at h
  induction h with
  | @gap offset gap _ hgap =>
      subst hrest
      cases h' with
      | gap hgap' => exact .gap (hgap.append hgap')
      | @token _ gap' t cs ts _ hgap' ht tail =>
          have hoffset : offset + byteLength gap + byteLength gap' =
              offset + byteLength (gap ++ gap') := by
            rw [byteLength_append, Nat.add_assoc]
          rw [hoffset] at ht tail
          rw [← List.append_assoc, ← List.append_assoc]
          exact .token (.append (by simpa using hgap) hgap') ht tail
  | @token offset gap t cs ts _ hgap ht tail ih =>
      subst hrest
      rw [List.append_assoc]
      refine .token (by simpa using hgap) (by simpa using ht) (ih ?_ rfl)
      simpa [Nat.add_assoc] using h'

/-- Every text is tiled as a whole or up to a place where it is refused. -/
theorem tiles_or_refused (offset : Nat) (cs : List Char) :
    (∃ ts, Tiles offset cs ts []) ∨
      ∃ front ts bad rest e, cs = front ++ (bad ++ rest) ∧ Tiles offset front ts (bad ++ rest) ∧
        Refused (offset + byteLength front) bad rest e := by
  generalize hn : cs.length = n
  induction n using Nat.strongRecOn generalizing offset cs with
  | _ n ih =>
      subst hn
      obtain ⟨gap, others, rfl, hgap, hothers⟩ := exists_gap cs
      by_cases hnil : others = []
      · subst hnil
        exact .inl ⟨[], by simpa using .gap hgap⟩
      rcases hothers.decided hnil (offset + byteLength gap) with ⟨t, rest, rfl, ht⟩ |
        ⟨bad, rest, e, rfl, hbad⟩
      · have hlt : rest.length < (gap ++ (t.text.toList ++ rest)).length := by
          obtain ⟨c, cs, htext, _⟩ := ht.spells.startsToken ht.ne_eof
          simp only [htext, List.length_append, List.length_cons]
          omega
        rcases ih _ hlt (offset + byteLength gap + byteLength t.text.toList) rest rfl with
          ⟨ts, hts⟩ | ⟨front, ts, bad, rest', e, rfl, hts, hbad⟩
        · refine .inl ⟨t :: ts, ?_⟩
          rw [← List.append_assoc]
          exact .token (by simpa using hgap) (by simpa using ht) hts
        · refine .inr ⟨gap ++ t.text.toList ++ front, t :: ts, bad, rest', e, by simp, ?_, ?_⟩
          · exact .token (by simpa using hgap) ht hts
          · simpa [Nat.add_assoc] using hbad
      · exact .inr ⟨gap, [], bad, rest, e, rfl, .gap hgap, hbad⟩

end Token

namespace Cursor

open Token

theorem next_gap {gap rest : List Char} (h : Gap gap rest) (offset : Nat) :
    next ⟨offset, gap ++ rest⟩ = next ⟨offset + byteLength gap, rest⟩ := by
  rw [next, next, skipTrivia_gap h]

theorem next_of_standsAt {t : Token} {offset : Nat} {rest : List Char}
    (h : t.StandsAt offset rest) :
    next ⟨offset, t.text.toList ++ rest⟩ = .ok (t, ⟨offset + byteLength t.text.toList, rest⟩) := by
  rw [next, skipTrivia_of_settled h.settled, lexeme_of_standsAt h]

theorem next_of_refused {offset : Nat} {bad rest : List Char} {e : SyntaxError}
    (h : Refused offset bad rest e) : next ⟨offset, bad ++ rest⟩ = .error e := by
  rw [next, skipTrivia_of_settled h.settled, lexeme_of_refused h]

theorem tokens_eq (c : Cursor) : c.tokens =
    c.next >>= fun p => if p.1.kind = .eof then .ok [p.1] else (p.1 :: ·) <$> p.2.tokens := by
  rw [tokens]
  split <;> rename_i h <;> simp only [h]
  · rfl
  · split <;> rename_i ht
    · exact (if_pos ht).symm
    · exact (if_neg ht).symm

theorem tokens_nil (offset : Nat) :
    tokens ⟨offset, []⟩ = .ok [⟨.eof, .ofOffsets offset offset, ""⟩] := by
  rw [tokens_eq, next, skipTrivia_of_settled settled_nil]
  rfl

theorem tokens_of_refused {offset : Nat} {bad rest : List Char} {e : SyntaxError}
    (h : Refused offset bad rest e) : tokens ⟨offset, bad ++ rest⟩ = .error e := by
  rw [tokens_eq, next_of_refused h]
  rfl

/-- The reader reads the tokens that tile a text, and then goes on behind it. -/
theorem tokens_of_tiles {offset : Nat} {cs rest : List Char} {ts : List Token}
    (h : Tiles offset cs ts rest) :
    tokens ⟨offset, cs ++ rest⟩ = (ts ++ ·) <$> tokens ⟨offset + byteLength cs, rest⟩ := by
  induction h with
  | @gap offset gap rest hgap =>
      rw [tokens_eq, next_gap hgap, ← tokens_eq]
      exact (id_map _).symm
  | @token offset gap t cs ts rest hgap ht tail ih =>
      rw [List.append_assoc, List.append_assoc, tokens_eq, next_gap (by simpa using hgap),
        next_of_standsAt ht]
      change (if t.kind = .eof then _ else (t :: ·) <$> tokens ⟨_, cs ++ rest⟩) = _
      have hoffset : offset + byteLength (gap ++ t.text.toList ++ cs) =
          offset + byteLength gap + byteLength t.text.toList + byteLength cs := by
        simp [Nat.add_assoc]
      rw [if_neg ht.ne_eof, ih, hoffset]
      exact Functor.map_map _ _ _

end Cursor

namespace Token

/-- The token at the end of a text of the given length. -/
def endAt (length : Nat) : Token := ⟨.eof, .ofOffsets length length, ""⟩

theorem read_of_tiles {source : String} {ts : List Token} (h : Tiles 0 source.toList ts []) :
    read source = .ok (ts ++ [endAt (byteLength source.toList)]) := by
  have htokens := Cursor.tokens_of_tiles h
  rw [List.append_nil, Nat.zero_add, Cursor.tokens_nil] at htokens
  exact htokens

theorem read_of_refused {source : String} {front bad rest : List Char} {ts : List Token}
    {e : SyntaxError} (hsource : source.toList = front ++ (bad ++ rest))
    (hfront : Tiles 0 front ts (bad ++ rest)) (hbad : Refused (byteLength front) bad rest e) :
    read source = .error e := by
  have htokens := Cursor.tokens_of_tiles hfront
  rw [Nat.zero_add, Cursor.tokens_of_refused hbad, ← hsource] at htokens
  exact htokens

theorem read_eq_ok_iff {source : String} {tokens : List Token} :
    read source = .ok tokens ↔
      ∃ ts, tokens = ts ++ [endAt (byteLength source.toList)] ∧ Tiles 0 source.toList ts [] := by
  constructor
  · intro h
    rcases tiles_or_refused 0 source.toList with ⟨ts, hts⟩ |
      ⟨front, ts, bad, rest, e, hsource, hts, hbad⟩
    · rw [read_of_tiles hts] at h
      cases h
      exact ⟨ts, rfl, hts⟩
    · rw [Nat.zero_add] at hbad
      rw [read_of_refused hsource hts hbad] at h
      cases h
  · rintro ⟨ts, rfl, hts⟩
    exact read_of_tiles hts

theorem read_eq_error_iff {source : String} {e : SyntaxError} :
    read source = .error e ↔
      ∃ front ts bad rest, source.toList = front ++ (bad ++ rest) ∧ Tiles 0 front ts (bad ++ rest) ∧
        Refused (byteLength front) bad rest e := by
  constructor
  · intro h
    rcases tiles_or_refused 0 source.toList with ⟨ts, hts⟩ |
      ⟨front, ts, bad, rest, e', hsource, hts, hbad⟩
    · rw [read_of_tiles hts] at h
      cases h
    · rw [Nat.zero_add] at hbad
      rw [read_of_refused hsource hts hbad] at h
      cases h
      exact ⟨front, ts, bad, rest, hsource, hts, hbad⟩
  · rintro ⟨front, ts, bad, rest, hsource, hts, hbad⟩
    exact read_of_refused hsource hts hbad

/-- No token that tiles a text marks its end, and each has the text of its kind. -/
theorem Tiles.spells {offset : Nat} {cs rest : List Char} {ts : List Token}
    (h : Tiles offset cs ts rest) :
    ∀ t ∈ ts, t.kind ≠ .eof ∧ t.kind.Spells t.text := by
  induction h with
  | gap _ => simp
  | token _ ht _ ih => exact List.forall_mem_cons.mpr ⟨⟨ht.ne_eof, ht.spells⟩, ih⟩

/-- The tokens of a text that are not its end. -/
def words (tokens : List Token) : List Token := tokens.filter (·.kind ≠ .eof)

theorem Tiles.words_append_endAt {offset : Nat} {cs rest : List Char} {ts : List Token}
    (h : Tiles offset cs ts rest) (length : Nat) : words (ts ++ [endAt length]) = ts := by
  rw [words, List.filter_append, List.filter_eq_self.mpr fun t ht => by simp [(h.spells t ht).1]]
  simp [endAt]

theorem read_eq_words {source : String} {tokens : List Token} (h : read source = .ok tokens) :
    ∃ last : Token, tokens = words tokens ++ [last] ∧ last.kind = .eof := by
  obtain ⟨ts, rfl, hts⟩ := read_eq_ok_iff.mp h
  exact ⟨_, by rw [hts.words_append_endAt], rfl⟩

theorem spells_of_mem_words {source : String} {tokens : List Token} (h : read source = .ok tokens) :
    ∀ t ∈ words tokens, t.kind.Spells t.text := by
  obtain ⟨ts, rfl, hts⟩ := read_eq_ok_iff.mp h
  rw [hts.words_append_endAt]
  exact fun t ht => (hts.spells t ht).2

end Token

/-- The span runs over `text`, which stands directly behind `before`. -/
def Span.RunsOver (s : Span) (before text : List Char) : Prop :=
  s.start.toNat = byteLength before ∧ s.stop.toNat = byteLength before + byteLength text

namespace Token

/-- The tokens `ts` cut up the text `front`, behind which `rest` stands. -/
structure CutUp (front : List Char) (ts : List Token) (rest : List Char) : Prop where
  tiles : Tiles 0 front ts rest
  runsOver : ∀ t ∈ ts, ∃ before after, front = before ++ t.text.toList ++ after ∧
    t.span.RunsOver before t.text.toList
  nonempty : ∀ t ∈ ts, t.span.start < t.span.stop
  ordered : ts.Pairwise fun t u => t.span.stop ≤ u.span.start

theorem StandsAt.toNat_span {t : Token} {offset : Nat} {rest : List Char}
    (h : t.StandsAt offset rest) (hlen : offset + byteLength t.text.toList < UInt32.size) :
    t.span.start.toNat = offset ∧ t.span.stop.toNat = offset + byteLength t.text.toList := by
  rw [h.span]
  exact ⟨UInt32.toNat_ofNat_of_lt' (by omega), UInt32.toNat_ofNat_of_lt' hlen⟩

theorem Kind.Spells.byteLength_pos {kind : Kind} {text : String} (h : kind.Spells text)
    (hkind : kind ≠ .eof) : 0 < byteLength text.toList := by
  obtain ⟨c, cs, htext, _⟩ := h.startsToken hkind
  rw [htext, byteLength_cons]
  exact Nat.add_pos_left c.utf8Size_pos _

namespace Tiles

variable {offset : Nat} {cs rest : List Char} {ts : List Token}

/-- The span of a token runs over its text. -/
theorem toNat_span (h : Tiles offset cs ts rest) (hlen : offset + byteLength cs < UInt32.size) :
    ∀ t ∈ ts, ∃ before after, cs = before ++ t.text.toList ++ after ∧
      t.span.start.toNat = offset + byteLength before ∧
      t.span.stop.toNat = offset + byteLength before + byteLength t.text.toList := by
  induction h with
  | gap _ => simp
  | @token offset gap t cs ts rest hgap ht tail ih =>
      simp only [byteLength_append] at hlen
      refine List.forall_mem_cons.mpr ⟨⟨gap, cs, rfl, ht.toNat_span (by omega)⟩, fun u hu => ?_⟩
      obtain ⟨before, after, rfl, hstart, hstop⟩ := ih (by omega) u hu
      refine ⟨gap ++ t.text.toList ++ before, after, by simp, ?_, ?_⟩
      · simp only [hstart, byteLength_append]
        omega
      · simp only [hstop, byteLength_append]
        omega

theorem nonempty (h : Tiles offset cs ts rest) (hlen : offset + byteLength cs < UInt32.size) :
    ∀ t ∈ ts, t.span.start < t.span.stop := by
  induction h with
  | gap _ => simp
  | @token offset gap t cs ts rest hgap ht tail ih =>
      simp only [byteLength_append] at hlen
      refine List.forall_mem_cons.mpr ⟨?_, ih (by omega)⟩
      have hpos := ht.spells.byteLength_pos ht.ne_eof
      obtain ⟨hstart, hstop⟩ := ht.toNat_span (by omega)
      rw [UInt32.lt_iff_toNat_lt, hstart, hstop]
      omega

/-- Tokens do not overlap and come in the order of the text. -/
theorem ordered (h : Tiles offset cs ts rest) (hlen : offset + byteLength cs < UInt32.size) :
    ts.Pairwise fun t u => t.span.stop ≤ u.span.start := by
  induction h with
  | gap _ => exact .nil
  | @token offset gap t cs ts rest hgap ht tail ih =>
      simp only [byteLength_append] at hlen
      refine .cons (fun u hu => ?_) (ih (by omega))
      obtain ⟨_, _, _, hstart, _⟩ := tail.toNat_span (by omega) u hu
      rw [UInt32.le_iff_toNat_le, (ht.toNat_span (by omega)).2, hstart]
      exact Nat.le_add_right _ _

theorem cutUp (h : Tiles 0 cs ts rest) (hlen : byteLength cs < UInt32.size) : CutUp cs ts rest where
  tiles := h
  runsOver t ht := by
    obtain ⟨before, after, hcs, hstart, hstop⟩ := h.toNat_span (by omega) t ht
    exact ⟨before, after, hcs, by omega, by omega⟩
  nonempty := h.nonempty (by omega)
  ordered := h.ordered (by omega)

end Tiles

theorem Refused.runsOver {front bad rest : List Char} {e : SyntaxError}
    (h : Refused (byteLength front) bad rest e)
    (hlen : byteLength front + byteLength bad < UInt32.size) :
    e.span.RunsOver front bad := by
  cases h with
  | character => exact ⟨UInt32.toNat_ofNat_of_lt' (by omega), UInt32.toNat_ofNat_of_lt' hlen⟩
  | integer => exact ⟨UInt32.toNat_ofNat_of_lt' (by omega), UInt32.toNat_ofNat_of_lt' hlen⟩

theorem runsOver_endAt {front : List Char} (hlen : byteLength front < UInt32.size) :
    (endAt (byteLength front)).span.RunsOver front [] :=
  ⟨UInt32.toNat_ofNat_of_lt' hlen, UInt32.toNat_ofNat_of_lt' hlen⟩

theorem eq_endAt {front : List Char} {t : Token} (hkind : t.kind = .eof) (htext : t.text = "")
    (hspan : t.span.RunsOver front []) : t = endAt (byteLength front) := by
  obtain ⟨kind, ⟨start, stop⟩, text⟩ := t
  obtain ⟨hstart, hstop⟩ := hspan
  obtain rfl : stop = start := UInt32.toNat_inj.mp (hstop.trans hstart.symm)
  cases hkind
  cases htext
  rw [endAt, Span.ofOffsets, ← hstart, UInt32.ofNat_toNat]

/-- The tokens of a text cut up the whole of it, and nothing but the end of the text follows them. A
text that has none is cut up to the place of the error, where a character starts neither a token nor
a comment or where an identifier character directly follows digits. A text is cut up in no other
way. -/
theorem read_eq_tiling {source : String} (hlen : byteLength source.toList < UInt32.size) :
    (∀ tokens, read source = .ok tokens ↔ ∃ ts last, tokens = ts ++ [last] ∧
      CutUp source.toList ts [] ∧ last.kind = .eof ∧ last.text = "" ∧
      last.span.RunsOver source.toList []) ∧
    ∀ e, read source = .error e ↔ ∃ front ts bad rest, source.toList = front ++ (bad ++ rest) ∧
      CutUp front ts (bad ++ rest) ∧ Refused (byteLength front) bad rest e ∧
      e.span.RunsOver front bad := by
  constructor
  · intro tokens
    rw [read_eq_ok_iff]
    constructor
    · rintro ⟨ts, rfl, hts⟩
      exact ⟨ts, _, rfl, hts.cutUp hlen, rfl, rfl, runsOver_endAt hlen⟩
    · rintro ⟨ts, last, rfl, hts, hkind, htext, hspan⟩
      exact ⟨ts, by rw [eq_endAt hkind htext hspan], hts.tiles⟩
  · intro e
    rw [read_eq_error_iff]
    constructor
    · rintro ⟨front, ts, bad, rest, hsource, hts, hbad⟩
      have hlen' : byteLength front + byteLength bad < UInt32.size := by
        simp only [hsource, byteLength_append] at hlen
        omega
      exact ⟨front, ts, bad, rest, hsource, hts.cutUp (by omega), hbad, hbad.runsOver hlen'⟩
    · rintro ⟨front, ts, bad, rest, hsource, hts, hbad, _⟩
      exact ⟨front, ts, bad, rest, hsource, hts.tiles, hbad⟩

/-- A no-break space, an arrow and a comment that runs to the end are cut up. A slash before another
character is refused, and so are digits with a letter behind them. -/
theorem read_eq_tiling_multibyte :
    (byteLength "\u00a0f=>1 // é".toList < UInt32.size ∧ ∃ ts last,
      read "\u00a0f=>1 // é" = .ok (ts ++ [last]) ∧ CutUp "\u00a0f=>1 // é".toList ts [] ∧
        last.span.RunsOver "\u00a0f=>1 // é".toList []) ∧
    ∀ source ∈ ["x /é", "f =\u300012ab"], byteLength source.toList < UInt32.size ∧
      ∃ e front ts bad rest, read source = .error e ∧ source.toList = front ++ (bad ++ rest) ∧
        CutUp front ts (bad ++ rest) ∧ Refused (byteLength front) bad rest e := by
  refine ⟨⟨by decide, ?_⟩, fun source hsource => ?_⟩
  · obtain ⟨tokens, hread⟩ := exists_eq_ok_of_isOk (x := read "\u00a0f=>1 // é") (by decide +kernel)
    obtain ⟨ts, last, rfl, hts, _, _, hlast⟩ := ((read_eq_tiling (by decide)).1 tokens).mp hread
    exact ⟨ts, last, hread, hts, hlast⟩
  · have hlen : ∀ s ∈ ["x /é", "f =\u300012ab"], byteLength s.toList < UInt32.size := by decide
    have herror : ∀ s ∈ ["x /é", "f =\u300012ab"], (read s).isOk = false := by decide +kernel
    obtain ⟨e, hread⟩ : ∃ e, read source = .error e := by
      cases hread : read source with
      | ok tokens => simpa [hread, Except.isOk, Except.toBool] using herror source hsource
      | error e => exact ⟨e, rfl⟩
    obtain ⟨front, ts, bad, rest, hsplit, hts, hbad, _⟩ :=
      ((read_eq_tiling (hlen source hsource)).2 e).mp hread
    exact ⟨hlen source hsource, e, front, ts, bad, rest, hread, hsplit, hts, hbad⟩

end Token

end LambdaLift
