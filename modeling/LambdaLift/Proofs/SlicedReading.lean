import LambdaLift.Proofs.ReadingProgress
import LambdaLift.Tree.Slices

/-!
# Reading by slices

In a text shorter than `2 ^ 32` bytes the span of each token leads back to the text that it was read
from, so reading by slices gives what reading by the texts of the tokens gives. In a longer text
offsets wrap around. A span then leads to a part near the start of the text instead, or to none.
-/

namespace LambdaLift

open Text

namespace Span

variable {s : Span} {source : String}

theorem RunsOver.slice?_eq {before text after : List Char} (h : s.RunsOver before text)
    (hsource : source.toList = before ++ (text ++ after)) :
    s.slice? source = some (.ofList text) := by
  have hle : s.start ≤ s.stop := by
    rw [UInt32.le_iff_toNat_le, h.1, h.2]
    exact Nat.le_add_right _ _
  rw [slice?, if_pos hle, h.1, h.2, Nat.add_sub_cancel_left, hsource, splitBytes?_append]
  change (splitBytes? (byteLength text) (text ++ after) >>= _) = _
  rw [splitBytes?_append]
  rfl

theorem exists_runsOver_of_slice? {text : String} (h : s.slice? source = some text) :
    ∃ before after, source.toList = before ++ (text.toList ++ after) ∧
      s.RunsOver before text.toList := by
  rw [slice?] at h
  split at h
  · rename_i hle
    obtain ⟨⟨before, rest⟩, hbefore, h⟩ := Option.bind_eq_some_iff.mp h
    obtain ⟨⟨part, after⟩, hpart, h⟩ := Option.bind_eq_some_iff.mp h
    cases h
    obtain ⟨hsource, hstart⟩ := eq_of_splitBytes? hbefore
    obtain ⟨rfl, hstop⟩ := eq_of_splitBytes? hpart
    rw [UInt32.le_iff_toNat_le] at hle
    rw [String.toList_ofList]
    exact ⟨before, after, hsource, hstart.symm, by omega⟩
  · cases h

/-- What stands behind a slice does not change it. -/
theorem slice?_ofList_append {text : String} (h : s.slice? source = some text) (more : List Char) :
    s.slice? (.ofList (source.toList ++ more)) = some text := by
  obtain ⟨before, after, hsource, hruns⟩ := exists_runsOver_of_slice? h
  have hmore : (String.ofList (source.toList ++ more)).toList =
      before ++ (text.toList ++ (after ++ more)) := by
    simp [hsource]
  rw [hruns.slice?_eq hmore, String.ofList_toList]

theorem slice?_eq_none (h : s.stop < s.start) (source : String) : s.slice? source = none :=
  if_neg (UInt32.not_le.mpr h)

end Span

namespace Token

variable {source : String} {tokens : List Token}

/-- The span of a token leads back to its text. -/
theorem slice?_of_mem_read (hlen : byteLength source.toList < UInt32.size)
    (h : read source = .ok tokens) :
    ∀ t ∈ tokens, t.span.slice? source = some t.text := by
  obtain ⟨ts, rfl, hts⟩ := read_eq_ok_iff.mp h
  intro t ht
  rcases List.mem_append.mp ht with ht | ht
  · obtain ⟨before, after, hsource, hruns⟩ := (hts.cutUp hlen).runsOver t ht
    rw [List.append_assoc] at hsource
    rw [hruns.slice?_eq hsource, String.ofList_toList]
  · cases List.mem_singleton.mp ht
    exact (runsOver_endAt hlen).slice?_eq (show source.toList = source.toList ++ ([] ++ []) by simp)

theorem exists_buffer (h : read source = .ok tokens) : ∃ b : Buffer, b.tokens = tokens := by
  obtain ⟨ts, rfl, hts⟩ := read_eq_ok_iff.mp h
  exact ⟨⟨ts, endAt _, fun t ht => (hts.spells t ht).1, rfl⟩, rfl⟩

end Token

namespace Tree

variable {source : String}

theorem text_slices {t : Token} {text : String} (h : t.span.slice? source = some text) :
    (Access.slices source).text t = .ok text := by
  simp only [Access.slices, h]

/-- If the spans of the words lead to slices, then reading by slices gives what reading these slices
gives. -/
theorem expressions_slices {b : Token.Buffer} {text : Token → String}
    (h : ∀ t ∈ b.words, t.span.slice? source = some (text t)) :
    (Access.slices source).expressions b.tokens =
      ((⟨fun t => .ok (text t), id⟩ : Access SyntaxError).expressions b.tokens).mapError .error :=
  Token.Buffer.expressions_mapError (fun t ht => text_slices (h t ht)) fun _ => rfl

/-- Below `2 ^ 32` bytes reading by slices does not break off, and gives what reading by the texts
of the tokens gives. -/
theorem ofSlices_eq (hlen : byteLength source.toList < UInt32.size) :
    ofSlices source = some (ofSource source) := by
  rw [ofSlices, ofSource]
  cases hread : Token.read source with
  | error e => rfl
  | ok tokens =>
      obtain ⟨b, rfl⟩ := Token.exists_buffer hread
      have hslices : (Access.slices source).expressions b.tokens =
          (expressions b.tokens).mapError .error :=
        expressions_slices fun t ht =>
          Token.slice?_of_mem_read hlen hread t (List.mem_append_left _ ht)
      change Stop.returned? ((Access.slices source).expressions b.tokens >>= _) =
        some (expressions b.tokens >>= _)
      rw [hslices]
      cases expressions b.tokens with
      | ok trees => rfl
      | error e => rfl

theorem parseSlices_eq (hlen : byteLength source.toList < UInt32.size) :
    parseSlices source = some (parse source) := by
  rw [parseSlices, ofSlices_eq hlen]
  rfl

end Tree

section Spaced

/-- The text `back` behind the text `front` and `n` spaces. -/
def Text.spaced (front : String) (n : Nat) (back : String) : String :=
  .ofList (front.toList ++ (List.replicate n ' ' ++ back.toList))

variable {front back : String} {n : Nat}

theorem Text.toList_spaced :
    (spaced front n back).toList = front.toList ++ (List.replicate n ' ' ++ back.toList) :=
  String.toList_ofList

theorem Text.byteLength_replicate (n : Nat) : byteLength (List.replicate n ' ') = n := by
  induction n with
  | zero => rfl
  | succ n ih =>
      rw [List.replicate_succ, byteLength_cons, ih, Nat.add_comm]
      rfl

theorem Text.byteLength_spaced :
    byteLength (spaced front n back).toList =
      byteLength front.toList + n + byteLength back.toList := by
  rw [toList_spaced, byteLength_append, byteLength_append, byteLength_replicate, Nat.add_assoc]

theorem Token.gap_replicate (n : Nat) (rest : List Char) : Gap (List.replicate n ' ') rest := by
  induction n with
  | zero => exact .nil
  | succ n ih => exact .blank rfl ih

/-- A line that is a comment is a gap. -/
theorem Token.gap_line {line : String} {body : List Char}
    (hline : line.toList = '/' :: '/' :: (body ++ ['\n']))
    (hbody : '\n' ∉ body) (rest : List Char) : Gap line.toList rest := by
  rw [hline]
  exact .comment hbody (by simp) (.blank rfl .nil)

/-- The tokens of two texts with spaces between them. -/
theorem Token.read_spaced {ts tokens : List Token}
    (hfront : Tiles 0 front.toList ts (List.replicate n ' ' ++ back.toList))
    (hback : Cursor.tokens ⟨byteLength front.toList + n, back.toList⟩ = .ok tokens) :
    read (spaced front n back) = .ok (ts ++ tokens) := by
  rw [read, Cursor.ofString, toList_spaced, Cursor.tokens_of_tiles hfront,
    Cursor.tokens_of_tiles (.gap (gap_replicate n back.toList)), Nat.zero_add, byteLength_replicate,
    hback]
  rfl

theorem Token.read_spaced_gap {tokens : List Token} (hfront : ∀ rest, Gap front.toList rest)
    (hback : Cursor.tokens ⟨byteLength front.toList + n, back.toList⟩ = .ok tokens) :
    read (spaced front n back) = .ok tokens :=
  read_spaced (.gap (hfront _)) hback

/-- Where a span leads before the spaces, it does not lead behind them. -/
theorem Span.slice?_spaced {s : Span} (h : (s.slice? front).isSome ∨ s.stop < s.start) :
    s.slice? (spaced front n back) = s.slice? front := by
  rcases h with h | h
  · obtain ⟨text, htext⟩ := Option.isSome_iff_exists.mp h
    rw [spaced, slice?_ofList_append htext, htext]
  · rw [slice?_eq_none h, slice?_eq_none h]

/-- If no span leads behind the spaces, then the text before them is all that reading by slices
sees. -/
theorem Tree.ofSlices_spaced {tokens : List Token}
    (hread : Token.read (spaced front n back) = .ok tokens)
    (hslices : ∀ t ∈ tokens, (t.span.slice? front).isSome ∨ t.span.stop < t.span.start) :
    ofSlices (spaced front n back) =
      Stop.returned? (((Access.slices front).expressions tokens).map (branch moduleKind
        (.ofOffsets 0 (byteLength front.toList + n + byteLength back.toList)))) := by
  obtain ⟨b, rfl⟩ := Token.exists_buffer hread
  have hexpressions : (Access.slices (spaced front n back)).expressions b.tokens =
      ((Access.slices front).expressions b.tokens).mapError id := by
    refine Token.Buffer.expressions_mapError (fun t ht => ?_) fun _ => rfl
    rw [except_mapError_id]
    simp only [Access.slices, Span.slice?_spaced (hslices t (List.mem_append_left _ ht))]
  rw [except_mapError_id] at hexpressions
  rw [ofSlices, hread, byteLength_spaced]
  change Stop.returned? ((Access.slices (spaced front n back)).expressions b.tokens >>= _) = _
  rw [hexpressions]
  cases (Access.slices front).expressions b.tokens with
  | ok trees => rfl
  | error e => rfl

theorem Tree.exists_ofSlices_spaced {tokens : List Token} {p : Tree → Bool}
    (hread : Token.read (spaced front n back) = .ok tokens)
    (hslices : ∀ t ∈ tokens, (t.span.slice? front).isSome ∨ t.span.stop < t.span.start)
    (hp : ((Access.slices front).expressions tokens).toOption.any fun trees => p (branch moduleKind
      (.ofOffsets 0 (byteLength front.toList + n + byteLength back.toList)) trees)) :
    ∃ tree, ofSlices (spaced front n back) = some (.ok tree) ∧ p tree := by
  obtain ⟨trees, htrees, hp⟩ := exists_eq_ok_of_any hp
  rw [ofSlices_spaced hread hslices, htrees]
  exact ⟨_, rfl, hp⟩

end Spaced

namespace Cursor

variable {source : String} {ts : List Token} {c d : Cursor} {t : Token}

theorem Takes.offset_add {c₀ : Cursor} (h : c₀.Takes ts c) :
    c.offset + byteLength c.rest = c₀.offset + byteLength c₀.rest := by
  induction h with
  | nothing => rfl
  | token next ht _ ih =>
      obtain ⟨taken, hrest, hoffset⟩ := (precedes_of_next next ht).exists_taken
      rw [ih, hoffset, hrest, byteLength_append, Nat.add_assoc]

/-- Below `2 ^ 32` bytes offsets do not wrap around. -/
theorem Precedes.position_lt (h : c.Precedes d)
    (hlen : c.offset + byteLength c.rest < UInt32.size) :
    c.position < d.position := by
  have hlt := h.offset_lt
  obtain ⟨taken, hrest, hoffset⟩ := h.exists_taken
  rw [hrest, byteLength_append] at hlen
  rw [UInt32.lt_iff_toNat_lt, position, position, UInt32.toNat_ofNat_of_lt' (by omega),
    UInt32.toNat_ofNat_of_lt' (by omega)]
  exact hlt

end Cursor

open LambdaLift.Tree

/-- Every token but the end of a text moves the cursor on, so the loop over the tokens of a text
ends, and it takes no more of them than there are characters. For all tokens up to the end of a
text: an expression that is read ends behind the place where it starts, no step goes past the end of
the text, where the buffer has no token, and the steps end with what the readers give. If these are
expressions, then all words are taken. What stands behind the end of the text changes nothing. The
readers break off only where a span leads to no slice of the text, which no span of its own tokens
does, so that the text has a tree or an error. -/
theorem slicing_advances_and_stops {source : String}
    (hlen : byteLength source.toList < UInt32.size) :
    (∀ ts c t d, (Cursor.ofString source).Takes ts c → c.next = .ok (t, d) →
      t.kind = .eof ∨ c.Precedes d ∧ c.position < d.position) ∧
    (∃ ts d, (Cursor.ofString source).Takes ts d ∧ ts.length ≤ source.length ∧
      ((∃ e, d.next = .error e ∧ Token.read source = .error e) ∨
        ∃ (b : Token.Buffer) (d' : Cursor), d.next = .ok (b.last, d') ∧ b.words = ts ∧
          Token.read source = .ok b.tokens)) ∧
    (∀ b : Token.Buffer,
      (∀ pos p, (Access.slices source).expression (b.ahead pos) = .ok p →
        ∃ next, pos < next ∧ next ≤ b.words.length ∧ p.rest = b.ahead next ∧
          ∃ i uses, (b.step (.slices source))^[i] ⟨pos, .expression, []⟩ =
            ⟨next, .halted (.ok [p.value]), uses⟩) ∧
      (∀ i, ((b.step (.slices source))^[i] .start).pos ≤ b.words.length ∧
        b.tokens[((b.step (.slices source))^[i] .start).pos]? =
          some (b.peek ((b.step (.slices source))^[i] .start).pos)) ∧
      (∃ i ≤ 4 * b.words.length + 3, ∃ next uses,
        (b.step (.slices source))^[i] .start =
          ⟨next, .halted ((Access.slices source).expressions b.tokens), uses⟩ ∧
        (∀ trees, (Access.slices source).expressions b.tokens = .ok trees → next = b.words.length) ∧
        ∀ behind, (Access.slices source).expressions (b.tokens ++ behind) =
          (Access.slices source).expressions b.tokens) ∧
      ((∀ t ∈ b.words, (t.span.slice? source).isSome) →
        ∀ span, (Access.slices source).expressions b.tokens ≠ .error (.noSlice span)) ∧
      (Token.read source = .ok b.tokens → ∀ t ∈ b.words, t.span.slice? source = some t.text)) ∧
    ((∃ tree, ofSlices source = some (.ok tree)) ∨ ∃ e, ofSlices source = some (.error e)) := by
  refine ⟨fun ts c t d htakes h => ?_, ?_, fun b => ⟨fun pos p h => ?_, fun i => ?_,
    b.exists_iterate_start _, fun hslices span => ?_, fun hread t ht => ?_⟩, ?_⟩
  · by_cases ht : t.kind = .eof
    · exact .inl ht
    · have hprecedes := Cursor.precedes_of_next h ht
      have hoffset : c.offset + byteLength c.rest = byteLength source.toList := by
        rw [htakes.offset_add, Cursor.ofString, Nat.zero_add]
      exact .inr ⟨hprecedes, hprecedes.position_lt (hoffset ▸ hlen)⟩
  · obtain ⟨ts, d, htakes, hlength, hends⟩ := (Cursor.ofString source).exists_takes
    refine ⟨ts, d, htakes, ?_, hends.imp_right ?_⟩
    · rw [← String.length_toList]
      exact Nat.le_trans (Nat.le_add_right _ _) hlength
    · rintro ⟨last, d', hnext, hlast, htokens⟩
      exact ⟨⟨ts, last, htakes.ne_eof, hlast⟩, d', hnext, rfl, htokens⟩
  · exact Token.Buffer.exists_next_of_expression h
  · have hle : ((b.step (.slices source))^[i] .start).pos ≤ b.words.length :=
      Token.Buffer.pos_iterate_le (Nat.zero_le _) i
    exact ⟨hle, b.getElem?_peek hle⟩
  · have htexts : ∀ t ∈ b.words, t.span.slice? source = some ((t.span.slice? source).getD "") := by
      intro t ht
      obtain ⟨text, htext⟩ := Option.isSome_iff_exists.mp (hslices t ht)
      rw [htext, Option.getD_some]
    rw [expressions_slices htexts]
    generalize Access.expressions _ b.tokens = result
    cases result with
    | ok trees => exact nofun
    | error e => exact nofun
  · exact Token.slice?_of_mem_read hlen hread t (List.mem_append_left _ ht)
  · rw [ofSlices_eq hlen]
    cases ofSource source with
    | ok tree => exact .inl ⟨tree, rfl⟩
    | error e => exact .inr ⟨e, rfl⟩

/-- With a comment that has a character of two bytes. -/
theorem slicing_advances_and_stops_comment :
    byteLength "(f 12) // é".toList < UInt32.size ∧
    (∀ ts c t d, (Cursor.ofString "(f 12) // é").Takes ts c → c.next = .ok (t, d) →
      t.kind = .eof ∨ c.Precedes d ∧ c.position < d.position) ∧
    ((∃ tree, ofSlices "(f 12) // é" = some (.ok tree)) ∨
      ∃ e, ofSlices "(f 12) // é" = some (.error e)) := by
  have hlen : byteLength "(f 12) // é".toList < UInt32.size := by decide
  exact ⟨hlen, (slicing_advances_and_stops hlen).1, (slicing_advances_and_stops hlen).2.2.2⟩

/-- Behind `2 ^ 32 - 1` spaces the name `a` ends where the offsets start again, so that the first
token does not move the cursor on and its span leads to no slice. -/
theorem slicing_wraps_around :
    (∃ t d, (Cursor.ofString (spaced " " (UInt32.size - 2) "a")).next = .ok (t, d) ∧
      t.kind = .ident ∧
      d.position = (Cursor.ofString (spaced " " (UInt32.size - 2) "a")).position) ∧
    ofSlices (spaced " " (UInt32.size - 2) "a") = none := by
  have hfront (rest : List Char) : Token.Gap " ".toList rest := .blank rfl .nil
  have hoffset : byteLength " ".toList + (UInt32.size - 2) = 4294967295 := rfl
  constructor
  · refine ⟨⟨.ident, ⟨4294967295, 0⟩, "a"⟩, ⟨4294967296, []⟩, ?_, rfl, rfl⟩
    rw [Cursor.ofString, toList_spaced, Cursor.next_gap (hfront _),
      Cursor.next_gap (Token.gap_replicate _ _), byteLength_replicate, Nat.zero_add, hoffset]
    exact eq_ok_of_value (by decide +kernel)
  · have hback : Cursor.tokens ⟨4294967295, "a".toList⟩ =
        .ok [⟨.ident, ⟨4294967295, 0⟩, "a"⟩, ⟨.eof, ⟨0, 0⟩, ""⟩] :=
      eq_ok_of_value (by decide +kernel)
    rw [ofSlices_spaced (Token.read_spaced_gap hfront (hoffset ▸ hback)) (by decide +kernel)]
    exact Option.isNone_iff_eq_none.mp (by decide +kernel)

end LambdaLift
