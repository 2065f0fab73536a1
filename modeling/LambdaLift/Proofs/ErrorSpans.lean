import LambdaLift.Proofs.Composition
import LambdaLift.Proofs.ViablePrefix

/-!
# Errors point at what they report

A text that cannot be read has one error. Each span that the error marks is a part of the text, from
one character border to another. It holds the character or the token that the error names, or the
bracket that is left open, or it is empty and stands at the end of the text.
-/

namespace LambdaLift

open Text

namespace Span

/-- The span marks the part `text` of the source: it runs from one character border to another,
these are the bytes there, and its length does not underflow and keeps to the source. -/
structure Shows (s : Span) (source text : String) : Prop where
  stands : ∃ before after : String, source = before ++ text ++ after ∧
    s.RunsOver before.toList text.toList
  bytes_eq : s.bytes source = text.toUTF8
  length : ∃ n, s.length? = some n ∧ s.start.toNat + n.toNat ≤ byteLength source.toList

theorem RunsOver.shows {s : Span} {source : String} {before text after : List Char}
    (h : s.RunsOver before text) (hsource : source.toList = before ++ (text ++ after)) :
    s.Shows source (.ofList text) where
  stands := ⟨.ofList before, .ofList after, eq_append_ofList hsource, by simpa using h⟩
  bytes_eq := h.bytes_eq hsource
  length := by
    have hle : s.start ≤ s.stop := by
      rw [UInt32.le_iff_toNat_le, h.1, h.2]
      exact Nat.le_add_right _ _
    refine ⟨s.stop - s.start, if_pos hle, ?_⟩
    rw [UInt32.toNat_sub_of_le _ _ hle, h.1, h.2, hsource, byteLength_append, byteLength_append]
    omega

theorem RunsOver.shows_end {s : Span} {source : String} (h : s.RunsOver source.toList []) :
    s.Shows source "" :=
  h.shows (show source.toList = source.toList ++ ([] ++ []) by simp)

end Span

/-- What an error says about a text holds of it. -/
def SyntaxError.Accurate (source : String) : SyntaxError → Prop
  | unexpectedCharacter c span => span.Shows source c.toString
  | unexpectedToken text span => span.Shows source text ∧
      ∃ tokens, Token.read source = .ok tokens ∧ ∃ t ∈ Token.words tokens, t.text = text ∧
        t.span = span
  | missingExpression span => span.RunsOver source.toList []
  | unclosedDelimiter d opening expectedClose => opening.Shows source d.opening.toString ∧
      expectedClose.RunsOver source.toList [] ∧
      ∃ tokens, Token.read source = .ok tokens ∧ Token.Innermost d opening (Token.words tokens)
  | invalid _ span => ∃ text, span.Shows source text

theorem SyntaxError.Accurate.labels {source : String} {e : SyntaxError} (h : e.Accurate source) :
    ∀ label ∈ e.labels, ∃ text, label.span.Shows source text := by
  cases e with
  | unexpectedCharacter c span => exact List.forall_mem_singleton.mpr ⟨_, h⟩
  | unexpectedToken text span => exact List.forall_mem_singleton.mpr ⟨_, h.1⟩
  | missingExpression span => exact List.forall_mem_singleton.mpr ⟨_, h.shows_end⟩
  | unclosedDelimiter d opening expectedClose =>
      exact List.forall_mem_cons.mpr ⟨⟨_, h.1⟩, List.forall_mem_singleton.mpr ⟨_, h.2.1.shows_end⟩⟩
  | invalid construct span => exact List.forall_mem_singleton.mpr h

namespace Tree

open Token

/-- A reader that takes tokens leaves the bracket at a span open. This is the one inside of which it
is, or one among these tokens. -/
def LeavesOpen (r : Reader) (front : List Token) (d : Delimiter) (opening : Span) : Prop :=
  (∃ t, r = .enclosed d t ∧ t.span = opening ∧ Balanced front) ∨ Innermost d opening front

/-- Where the tokens stand that an error is about: the reader `r` has taken them, or they come
next. -/
def Locates (r : Reader) (front rest : List Token) : SyntaxError → Prop
  | .unexpectedCharacter _ _ => False
  | .unexpectedToken text span => ∃ t ∈ rest, t.kind ≠ .eof ∧ t.text = text ∧ t.span = span
  | .missingExpression span => span = spanAhead rest
  | .unclosedDelimiter d opening expectedClose =>
      LeavesOpen r front d opening ∧ expectedClose = spanAhead rest
  | .invalid _ span =>
      ∃ before part after, front = before ++ (part ++ after) ∧ (∀ t ∈ part, t.kind ≠ .eof) ∧
      (Ascending part → span.Encloses part)

section Steps

variable {r r' : Reader} {front rest : List Token} {d : Delimiter} {opening : Span}
  {e : SyntaxError}

/-- Matched brackets before the tokens that a reader takes leave nothing open. -/
theorem LeavesOpen.behind {used : List Token} (h : LeavesOpen r front d opening)
    (hused : Balanced used) :
    LeavesOpen r (used ++ front) d opening := by
  rcases h with ⟨t, hr, hspan, hfront⟩ | hopen
  · exact .inl ⟨t, hr, hspan, hused.append hfront⟩
  · exact .inr (hopen.append used)

/-- What an expression leaves open, everything does that has the expression as its last part. -/
theorem LeavesOpen.inside (h : LeavesOpen .expression front d opening) (used : List Token) :
    LeavesOpen r (used ++ front) d opening := by
  rcases h with ⟨t, hr, _⟩ | hopen
  · cases hr
  · exact .inr (hopen.append used)

/-- The bracket inside of which a reader is belongs to the expression that it opens. -/
theorem LeavesOpen.opened {d' : Delimiter} {t : Token}
    (h : LeavesOpen (.enclosed d' t) front d opening) (ht : t.kind = d'.openingKind) :
    LeavesOpen r ([t] ++ front) d opening := by
  rcases h with ⟨t', hr, hspan, hfront⟩ | hopen
  · cases hr
    rw [← hspan]
    exact .inr (hfront.innermost ht)
  · exact .inr (hopen.append [t])

/-- More tokens in front change nothing but which bracket is left open. -/
theorem Locates.append {used : List Token} (h : Locates r front rest e)
    (hopen : ∀ d opening, LeavesOpen r front d opening → LeavesOpen r' (used ++ front) d opening) :
    Locates r' (used ++ front) rest e := by
  cases e with
  | unexpectedCharacter c span => exact h
  | unexpectedToken text span => exact h
  | missingExpression span => exact h
  | unclosedDelimiter d opening expectedClose => exact ⟨hopen d opening h.1, h.2⟩
  | invalid construct span =>
      obtain ⟨before, part, after, rfl, hpart⟩ := h
      exact ⟨used ++ before, part, after, (List.append_assoc used before _).symm, hpart⟩

end Steps

/-- A part of a group that is no symbol has its place among the tokens of the group. -/
theorem locates_parameters {r : Reader} {t a : Token} {used rest : List Token}
    {group : Parsed Enclosed (used ++ a :: rest)} {bad : Tree}
    (parts : elements t (used ++ a :: rest) = .ok group) (hrest : group.rest = a :: rest)
    (hbad : bad ∈ group.value.parts) :
    Locates r (t :: used) (a :: rest) (.invalid .parameterList bad.span) := by
  obtain ⟨inner, hinner, hsequence⟩ := exists_sequence_of_elements parts
  obtain ⟨before, part, after, rfl, halone⟩ := hsequence.readWithin bad hbad
  rw [hrest, List.append_cons, List.append_left_inj] at hinner
  exact ⟨t :: before, part, after ++ [group.value.close], by simp [← hinner], halone.derives.ne_eof,
    halone.encloses⟩

/-- Whatever the reader reports, it has taken or has it ahead. -/
theorem Fails.locates {r : Reader} {front rest : List Token} {e : SyntaxError}
    (h : Fails r front rest e) :
    Locates r front rest e := by
  -- Inside brackets the opening one is not among the tokens taken, so what is left open goes by the
  -- reader, too.
  induction h with
  | missing _ => rfl
  | @unexpected t rest _ heof => exact ⟨t, List.mem_cons_self, heof, rfl, rfl⟩
  | @value t u front rest e _ _ _ ih => exact ih.append fun _ _ h => h.inside [t, u]
  | group ht _ ih => exact ih.append fun _ _ h => h.opened ht
  | @callee t u rest ht hu _ =>
      refine ⟨[], [t, u], [], rfl, by simp [ht, hu], fun hts => ?_⟩
      change (t.span.cover u.span).Encloses ([t] ++ ([] ++ [u]))
      exact (Span.Encloses.singleton t).cover (.singleton u) hts
  | parameters _ parts hrest _ hbad =>
      exact locates_parameters parts hrest (List.mem_of_find?_eq_some hbad)
  | @body t params u a front rest e _ _ _ _ _ ih =>
      have hfront : t :: (params ++ u :: a :: front) = (t :: (params ++ [u, a])) ++ front := by simp
      rw [hfront]
      exact ih.append fun _ _ h => h.inside _
  | block ht _ ih => exact ih.append fun _ _ h => h.opened ht
  | @unclosed d opening rest _ => exact ⟨.inl ⟨opening, rfl, rfl, .nil⟩, rfl⟩
  | @semicolon r t front rest e _ ht _ ih =>
      have hword : Balanced [t] := .word (by rw [ht]; rfl)
      exact ih.append fun _ _ h => h.behind hword
  | part _ _ _ ih => exact ih.append fun _ _ h => h.inside []
  | laterPart _ _ head _ ih =>
      obtain ⟨p, hp, hrest⟩ := except_map_eq_ok_iff.mp head
      obtain ⟨used, hused, hpart⟩ := derives_of_expression hp
      rw [hrest] at hused
      obtain rfl := List.append_cancel_right hused
      exact ih.append fun _ _ h => h.behind hpart.balanced

end Tree

namespace Token

section Reported

variable {source : String} {ts : List Token}

/-- The span of a token marks its text. -/
theorem Tiles.shows (h : Tiles 0 source.toList ts [])
    (hlen : byteLength source.toList < UInt32.size) {t : Token} (ht : t ∈ ts) :
    t.span.Shows source t.text := by
  obtain ⟨before, after, hsource, hruns⟩ := (h.cutUp hlen).runsOver t ht
  rw [List.append_assoc] at hsource
  simpa using hruns.shows hsource

/-- The span of tokens that stand next to each other marks a part of the text. -/
theorem Tiles.exists_shows {before part after : List Token} {span : Span}
    (h : Tiles 0 source.toList ts []) (hlen : byteLength source.toList < UInt32.size)
    (hts : ts = before ++ (part ++ after)) (hspan : Ascending part → span.Encloses part) :
    ∃ text, span.Shows source text := by
  subst hts
  have hpart := hspan (h.ascending (by omega)).middle
  obtain ⟨front, text, back, hsource, hruns, _⟩ := h.exists_runsOver hpart hlen
  exact ⟨_, hruns.shows hsource⟩

theorem Kind.Spells.eq_opening {d : Delimiter} {text : String} (h : d.openingKind.Spells text) :
    text = d.opening.toString := by
  cases d with
  | paren => exact h
  | brace => exact h

theorem Innermost.shows {d : Delimiter} {opening : Span} (h : Innermost d opening ts)
    (htiles : Tiles 0 source.toList ts []) (hlen : byteLength source.toList < UInt32.size) :
    opening.Shows source d.opening.toString := by
  obtain ⟨before, t, after, rfl, ht, rfl, _⟩ := h
  have hmem : t ∈ before ++ t :: after := List.mem_append_right before List.mem_cons_self
  have hspells := (htiles.spells t hmem).2
  rw [ht] at hspells
  rw [← hspells.eq_opening]
  exact htiles.shows hlen hmem

/-- An error at characters that are no token reports what is there. -/
theorem Refused.accurate {front bad rest : List Char} {e : SyntaxError}
    (h : Refused (byteLength front) bad rest e) (hsource : source.toList = front ++ (bad ++ rest))
    (hlen : byteLength source.toList < UInt32.size) :
    e.Accurate source := by
  rw [hsource, byteLength_append, byteLength_append] at hlen
  have hshows := (h.runsOver (by omega)).shows hsource
  cases h with
  | character => exact hshows
  | integer => exact ⟨_, hshows⟩

end Reported

end Token

namespace Tree

open Token

/-- An error of the reader reports what is among the tokens. -/
theorem Fails.accurate {source : String} {front rest ts : List Token} {e : SyntaxError}
    (h : Fails .module front rest e) (htiles : Tiles 0 source.toList ts [])
    (hsplit : front ++ rest = ts ++ [endAt (byteLength source.toList)])
    (hlen : byteLength source.toList < UInt32.size) : e.Accurate source := by
  have hread := read_of_tiles htiles
  have hwords := htiles.words_append_endAt (byteLength source.toList)
  -- Where the text ends, all of its tokens are taken and only the end is left.
  have hend (hrest : AtEnd rest) (he : ∀ construct span, e ≠ .invalid construct span) :
      front = ts ∧ (spanAhead rest).RunsOver source.toList [] := by
    have hfront := eq_words_of_atEnd hread hsplit (h.viable he).ne_eof hrest
    rw [hwords] at hfront
    rw [hfront, List.append_cancel_left_eq] at hsplit
    rw [hsplit]
    exact ⟨hfront, runsOver_endAt hlen⟩
  have hlocates := h.locates
  cases e with
  | unexpectedCharacter c span => exact hlocates.elim
  | unexpectedToken text span =>
      obtain ⟨t, ht, heof, rfl, rfl⟩ := hlocates
      have hmem : t ∈ words (ts ++ [endAt (byteLength source.toList)]) := by
        rw [← hsplit]
        exact List.mem_filter.mpr ⟨List.mem_append_right front ht, by simpa using heof⟩
      exact ⟨htiles.shows hlen (hwords ▸ hmem), _, hread, t, hmem, rfl, rfl⟩
  | missingExpression span =>
      obtain rfl : span = spanAhead rest := hlocates
      exact (hend h.tells (by simp)).2
  | unclosedDelimiter d opening expectedClose =>
      obtain ⟨hopen, rfl⟩ := hlocates
      obtain ⟨rfl, hclose⟩ := hend h.tells (by simp)
      rcases hopen with ⟨_, hr, _⟩ | hinnermost
      · cases hr
      · exact ⟨hinnermost.shows htiles hlen, hclose, _, hread, by rwa [hwords]⟩
  | invalid construct span =>
      obtain ⟨before, part, after, rfl, heof, hspan⟩ := hlocates
      have hpart : words part = part := List.filter_eq_self.mpr fun t ht => by simpa using heof t ht
      have hts : ts = words before ++ (part ++ words (after ++ rest)) := by
        calc
          ts = words (before ++ (part ++ after) ++ rest) := by rw [hsplit, hwords]
          _ = words before ++ (words part ++ words (after ++ rest)) := by simp [words]
          _ = words before ++ (part ++ words (after ++ rest)) := by rw [hpart]
      exact htiles.exists_shows hlen hts hspan

theorem accurate_of_ofSource {source : String} {e : SyntaxError}
    (hlen : byteLength source.toList < UInt32.size) (h : ofSource source = .error e) :
    e.Accurate source := by
  cases hread : Token.read source with
  | error e' =>
      obtain ⟨front, ts, bad, rest, hsource, _, hbad⟩ := read_eq_error_iff.mp hread
      rw [ofSource, hread] at h
      cases h
      exact hbad.accurate hsource hlen
  | ok tokens =>
      obtain ⟨ts, rfl, htiles⟩ := read_eq_ok_iff.mp hread
      rw [ofSource_of_read hread] at h
      obtain ⟨front, rest, hsplit, hfails⟩ :=
        Reader.run_eq_error_iff.mp (show Reader.module.run _ = .error e from
          except_map_eq_error_iff.mpr (except_map_eq_error_iff.mp h))
      exact hfails.accurate htiles hsplit hlen

/-- A text without a tree has exactly one error, and each span that it marks is a part of the text.
The part at the span of an unexpected character or token is this character or token, a missing
expression is missed at the end of the text, and an unclosed bracket is the innermost one that is
left open, with its closing one expected at the end of the text. -/
theorem parse_error_points_into_source {source : String}
    (hlen : byteLength source.toList < UInt32.size) (h : (parse source).tree? = none) :
    ∃ e, (parse source).errors = [e] ∧ (∀ label ∈ e.labels, ∃ text, label.span.Shows source text) ∧
      e.Accurate source := by
  rw [parse] at h ⊢
  cases hsource : ofSource source with
  | ok tree =>
      rw [hsource] at h
      cases h
  | error e =>
      have haccurate := accurate_of_ofSource hlen hsource
      exact ⟨e, rfl, haccurate.labels, haccurate⟩

/-- Of the brackets in `f = { (g) (x { y; } // é`, the second parenthesis is the innermost one that
is left open. -/
theorem parse_error_points_into_source_brackets :
    byteLength r"f = { (g) (x { y; } // é".toList < UInt32.size ∧
    (parse r"f = { (g) (x { y; } // é").tree? = none ∧
    ∃ e, e = .unclosedDelimiter .paren ⟨10, 11⟩ ⟨25, 25⟩ ∧
      (parse r"f = { (g) (x { y; } // é").errors = [e] ∧
      (∀ label ∈ e.labels, ∃ text, label.span.Shows r"f = { (g) (x { y; } // é" text) ∧
      e.Accurate r"f = { (g) (x { y; } // é" := by
  have herror : ofSource r"f = { (g) (x { y; } // é" =
      .error (.unclosedDelimiter .paren ⟨10, 11⟩ ⟨25, 25⟩) := eq_error_of_value (by decide +kernel)
  have hlen : byteLength r"f = { (g) (x { y; } // é".toList < UInt32.size := by decide
  have hnone : (parse r"f = { (g) (x { y; } // é").tree? = none := by
    rw [parse, herror]
    rfl
  obtain ⟨e, herrors, haccurate⟩ := parse_error_points_into_source hlen hnone
  have he : [SyntaxError.unclosedDelimiter .paren ⟨10, 11⟩ ⟨25, 25⟩] = [e] := by
    rw [← herrors, parse, herror]
    rfl
  exact ⟨hlen, hnone, e, (List.singleton_inj.mp he).symm, herrors, haccurate⟩

end Tree

end LambdaLift
