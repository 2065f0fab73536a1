import LambdaLift.Proofs.Trivia

/-!
# Passages of a text

Tokens that stand next to each other in a text take up a passage of it, from the start of the first
one to the end of the last one. A span that reaches just as far runs over the passage. Cut out of
the text and moved to another place, the passage has the same tokens there.
-/

namespace LambdaLift

open Text

namespace Token

/-- The tokens come in the order of their places, without overlapping, and none is empty. -/
structure Ascending (ts : List Token) : Prop where
  nonempty : ∀ t ∈ ts, t.span.start < t.span.stop
  ordered : ts.Pairwise fun t u => t.span.stop ≤ u.span.start

theorem Ascending.sublist {ts us : List Token} (h : Ascending ts) (hus : us.Sublist ts) :
    Ascending us where
  nonempty t ht := h.nonempty t (hus.subset ht)
  ordered := h.ordered.sublist hus

theorem Ascending.middle {before used after : List Token}
    (h : Ascending (before ++ (used ++ after))) :
    Ascending used :=
  h.sublist (List.infix_append' before used after).sublist

theorem Tiles.ascending {offset : Nat} {cs rest : List Char} {ts : List Token}
    (h : Tiles offset cs ts rest) (hlen : offset + byteLength cs < UInt32.size) : Ascending ts :=
  ⟨h.nonempty hlen, h.ordered hlen⟩

end Token

/-- The span reaches from the start of the first of the tokens to the end of the last one. -/
structure Span.Encloses (s : Span) (ts : List Token) : Prop where
  start : ∃ t ∈ ts.head?, t.span.start = s.start
  stop : ∃ t ∈ ts.getLast?, t.span.stop = s.stop

namespace Span.Encloses

open Token

variable {s s' : Span} {ts us : List Token}

theorem singleton (t : Token) : t.span.Encloses [t] := ⟨⟨t, rfl, rfl⟩, ⟨t, rfl, rfl⟩⟩

theorem start_le (h : s.Encloses ts) (hts : Ascending ts) : ∀ t ∈ ts, s.start ≤ t.span.start := by
  obtain ⟨first, hfirst, hstart⟩ := h.start
  obtain ⟨others, rfl⟩ := List.head?_eq_some_iff.mp hfirst
  intro t ht
  rcases List.mem_cons.mp ht with rfl | ht
  · rw [hstart]
    exact UInt32.le_refl _
  · have hne := hts.nonempty first List.mem_cons_self
    have hle := (List.pairwise_cons.mp hts.ordered).1 t ht
    rw [← hstart]
    exact UInt32.le_trans (UInt32.le_of_lt hne) hle

theorem le_stop (h : s.Encloses ts) (hts : Ascending ts) : ∀ t ∈ ts, t.span.stop ≤ s.stop := by
  obtain ⟨last, hlast, hstop⟩ := h.stop
  obtain ⟨others, rfl⟩ := List.getLast?_eq_some_iff.mp hlast
  intro t ht
  rcases List.mem_append.mp ht with ht | ht
  · have hne := hts.nonempty last List.mem_concat_self
    have hle := (List.pairwise_append.mp hts.ordered).2.2 t ht last List.mem_cons_self
    rw [← hstop]
    exact UInt32.le_trans hle (UInt32.le_of_lt hne)
  · obtain rfl := List.mem_singleton.mp ht
    rw [hstop]
    exact UInt32.le_refl _

theorem start_lt_stop (h : s.Encloses ts) (hts : Ascending ts) : s.start < s.stop := by
  obtain ⟨first, hfirst, hstart⟩ := h.start
  have hmem := List.mem_of_head? hfirst
  rw [← hstart]
  exact UInt32.lt_of_lt_of_le (hts.nonempty first hmem) (h.le_stop hts first hmem)

/-- Of a part of the tokens, the span lies inside that of all of them. -/
theorem inside (h : s.Encloses ts) (hts : Ascending ts) (h' : s'.Encloses us)
    (hus : us.Sublist ts) :
    s.start ≤ s'.start ∧ s'.stop ≤ s.stop := by
  obtain ⟨first, hfirst, hstart⟩ := h'.start
  obtain ⟨last, hlast, hstop⟩ := h'.stop
  rw [← hstart, ← hstop]
  exact ⟨h.start_le hts first (hus.subset (List.mem_of_head? hfirst)),
    h.le_stop hts last (hus.subset (List.mem_of_getLast? hlast))⟩

theorem stop_le_start (h : s.Encloses ts) (h' : s'.Encloses us) (hts : Ascending (ts ++ us)) :
    s.stop ≤ s'.start := by
  obtain ⟨last, hlast, hstop⟩ := h.stop
  obtain ⟨first, hfirst, hstart⟩ := h'.start
  rw [← hstop, ← hstart]
  exact (List.pairwise_append.mp hts.ordered).2.2 last (List.mem_of_getLast? hlast) first
    (List.mem_of_head? hfirst)

theorem start_eq (h : s.Encloses (ts ++ us)) (h' : s'.Encloses ts) : s.start = s'.start := by
  obtain ⟨first, hfirst, hstart⟩ := h.start
  obtain ⟨first', hfirst', hstart'⟩ := h'.start
  rw [List.head?_append, Option.mem_def.mp hfirst'] at hfirst
  obtain rfl : first' = first := Option.some.inj hfirst
  rw [← hstart, hstart']

theorem stop_eq (h : s.Encloses (ts ++ us)) (h' : s'.Encloses us) : s.stop = s'.stop := by
  obtain ⟨last, hlast, hstop⟩ := h.stop
  obtain ⟨last', hlast', hstop'⟩ := h'.stop
  rw [List.getLast?_append, Option.mem_def.mp hlast'] at hlast
  obtain rfl : last' = last := Option.some.inj hlast
  rw [← hstop, hstop']

/-- Covering the spans of the first and the last part of some tokens gives the span of all of
them. -/
theorem cover {between : List Token} (h : s.Encloses ts) (h' : s'.Encloses us)
    (hts : Ascending (ts ++ (between ++ us))) : (s.cover s').Encloses (ts ++ (between ++ us)) := by
  have hends : Ascending (ts ++ us) :=
    hts.sublist ((List.sublist_append_right between us).append_left ts)
  have hlt := h.start_lt_stop (hends.sublist (List.sublist_append_left ts us))
  have hlt' := h'.start_lt_stop (hends.sublist (List.sublist_append_right ts us))
  have hle := h.stop_le_start h' hends
  rw [UInt32.lt_iff_toNat_lt] at hlt hlt'
  rw [UInt32.le_iff_toNat_le] at hle
  constructor
  · obtain ⟨first, hfirst, hstart⟩ := h.start
    refine ⟨first, by rw [List.head?_append, Option.mem_def.mp hfirst]; rfl, UInt32.toNat_inj.mp ?_⟩
    rw [Span.cover, UInt32.toNat_min, hstart]
    omega
  · obtain ⟨last, hlast, hstop⟩ := h'.stop
    refine ⟨last, by rw [← List.append_assoc, List.getLast?_append, Option.mem_def.mp hlast]; rfl,
      UInt32.toNat_inj.mp ?_⟩
    rw [Span.cover, UInt32.toNat_max, hstop]
    omega

end Span.Encloses

namespace Token

section LineEnds

variable {rest rest' : List Char}

/-- A text has the same tokens where the line or the whole text ends behind it. -/
theorem Tiles.of_lineEnd {offset : Nat} {cs : List Char} {ts : List Token}
    (h : Tiles offset cs ts rest) (hrest' : ∀ c ∈ rest'.head?, c = '\n') :
    Tiles offset cs ts rest' := by
  induction h with
  | gap hgap => exact .gap (hgap.of_rest fun _ => hrest')
  | @token offset gap t cs ts rest hgap ht tail ih =>
      obtain ⟨c, text, htext, _⟩ := ht.spells.startsToken ht.ne_eof
      have hends : t.kind.Ends (cs ++ rest') := by
        cases cs with
        | nil =>
            apply Kind.ends_of_isBlank
            intro c hc
            rw [hrest' c hc]
            decide
        | cons d cs => exact ht.ends.of_head? rfl
      refine .token (hgap.of_head? ?_) ⟨ht.ne_eof, ht.span, ht.spells, hends⟩ ih
      rw [htext]
      rfl

end LineEnds

section Passages

variable {offset : Nat} {cs rest : List Char}

/-- The text from a token on. -/
theorem Tiles.drop {before after : List Token} {t : Token}
    (h : Tiles offset cs (before ++ t :: after) rest) :
    ∃ front back, cs = front ++ back ∧ t.span.start = .ofNat (offset + byteLength front) ∧
      Tiles (offset + byteLength front) back (t :: after) rest := by
  induction before generalizing offset cs with
  | nil =>
      cases h with
      | @token _ gap _ cs _ _ hgap ht tail =>
          refine ⟨gap, [] ++ t.text.toList ++ cs, by simp, by rw [ht.span]; rfl, ?_⟩
          exact .token .nil (by simpa using ht) tail
  | cons u before ih =>
      cases h with
      | @token _ gap _ cs _ _ hgap hu tail =>
          obtain ⟨front, back, rfl, hstart, hback⟩ := ih tail
          have hoffset : offset + byteLength gap + byteLength u.text.toList + byteLength front =
              offset + byteLength (gap ++ u.text.toList ++ front) := by
            simp only [byteLength_append]
            omega
          rw [hoffset] at hstart hback
          exact ⟨gap ++ u.text.toList ++ front, back, by simp, hstart, hback⟩

/-- The text up to the end of a token. -/
theorem Tiles.take {before after : List Token} {t : Token}
    (h : Tiles offset cs (before ++ t :: after) rest) :
    ∃ front back, cs = front ++ back ∧ t.span.stop = .ofNat (offset + byteLength front) ∧
      Tiles offset front (before ++ [t]) (back ++ rest) := by
  induction before generalizing offset cs with
  | nil =>
      cases h with
      | @token _ gap _ cs _ _ hgap ht tail =>
          have hoffset : offset + byteLength gap + byteLength t.text.toList =
              offset + byteLength (gap ++ t.text.toList ++ []) := by
            simp [Nat.add_assoc]
          refine ⟨gap ++ t.text.toList ++ [], cs, by simp, by rw [ht.span, hoffset]; rfl, ?_⟩
          exact .token (by simpa using hgap) ht (.gap .nil)
  | cons u before ih =>
      cases h with
      | @token _ gap _ cs _ _ hgap hu tail =>
          obtain ⟨front, back, rfl, hstop, hfront⟩ := ih tail
          have hoffset : offset + byteLength gap + byteLength u.text.toList + byteLength front =
              offset + byteLength (gap ++ u.text.toList ++ front) := by
            simp only [byteLength_append]
            omega
          rw [hoffset] at hstop
          refine ⟨gap ++ u.text.toList ++ front, back, by simp, hstop, ?_⟩
          exact .token (by simpa using hgap) (by simpa using hu) hfront

/-- The passage of the text that some of its tokens take up. -/
theorem Tiles.passage {before used after : List Token} {s : Span}
    (h : Tiles offset cs (before ++ (used ++ after)) rest) (hs : s.Encloses used) :
    ∃ front text back, cs = front ++ (text ++ back) ∧
      s = .ofOffsets (offset + byteLength front) (offset + byteLength front + byteLength text) ∧
      Tiles (offset + byteLength front) text used (back ++ rest) := by
  obtain ⟨first, hfirst, hstart⟩ := hs.start
  obtain ⟨last, hlast, hstop⟩ := hs.stop
  obtain ⟨more, hmore⟩ := List.head?_eq_some_iff.mp hfirst
  obtain ⟨others, hothers⟩ := List.getLast?_eq_some_iff.mp hlast
  rw [hmore, List.cons_append] at h
  obtain ⟨front, back, rfl, hfront, hback⟩ := h.drop
  rw [← List.cons_append, ← hmore, hothers, List.append_assoc] at hback
  obtain ⟨text, back, rfl, htext, htiles⟩ := hback.take
  refine ⟨front, text, back, rfl, ?_, by rwa [hothers]⟩
  rw [hstart] at hfront
  rw [hstop] at htext
  rw [Span.ofOffsets, ← hfront, ← htext]

/-- The span of some of the tokens of a text runs over the passage that they take up. -/
theorem Tiles.exists_runsOver {before used after : List Token} {s : Span}
    (h : Tiles 0 cs (before ++ (used ++ after)) rest) (hs : s.Encloses used)
    (hlen : byteLength cs < UInt32.size) :
    ∃ front text back, cs = front ++ (text ++ back) ∧ s.RunsOver front text ∧
      Tiles (byteLength front) text used (back ++ rest) := by
  obtain ⟨front, text, back, rfl, hspan, htiles⟩ := h.passage hs
  rw [Nat.zero_add] at hspan htiles
  simp only [byteLength_append] at hlen
  refine ⟨front, text, back, rfl, ?_, htiles⟩
  rw [hspan]
  exact ⟨UInt32.toNat_ofNat_of_lt' (by omega), UInt32.toNat_ofNat_of_lt' (by omega)⟩

/-- A text has the same tokens at another place, moved there. -/
theorem Tiles.relocate {f : Relocation} {offset' : Nat} {ts : List Token}
    (h : Tiles offset cs ts rest)
    (hf : ∀ i j, j ≤ byteLength cs → i ≤ j → f.move (.ofOffsets (offset + i) (offset + j)) =
      .ofOffsets (offset' + i) (offset' + j)) :
    Tiles offset' cs (ts.map (Token.relocate f)) rest := by
  induction h generalizing offset' with
  | gap hgap => exact .gap hgap
  | @token offset gap t cs ts rest hgap ht tail ih =>
      simp only [byteLength_append] at hf
      have hspan : (t.relocate f).span =
          .ofOffsets (offset' + byteLength gap)
            (offset' + byteLength gap + byteLength t.text.toList) := by
        change f.move t.span = _
        rw [ht.span, Nat.add_assoc, Nat.add_assoc]
        exact hf _ _ (by omega) (by omega)
      refine .token (t := t.relocate f) hgap ⟨ht.ne_eof, hspan, ht.spells, ht.ends⟩
        (ih fun i j hj hij => ?_)
      have hmove :=
        hf (byteLength gap + byteLength t.text.toList + i)
          (byteLength gap + byteLength t.text.toList + j)
        (by omega) (by omega)
      simp only [Nat.add_assoc] at hmove ⊢
      exact hmove

end Passages

end Token

namespace Relocation

theorem map_min_max {g : UInt32 → UInt32} (hg : ∀ a b, a ≤ b → g a ≤ g b) (a b : UInt32) :
    g (min a b) = min (g a) (g b) ∧ g (max a b) = max (g a) (g b) := by
  have hordered {c d : UInt32} (h : c ≤ d) : min c d = c ∧ max c d = d ∧ min d c = c ∧
      max d c = d := by
    rw [UInt32.le_iff_toNat_le] at h
    simp only [← UInt32.toNat_inj, UInt32.toNat_min, UInt32.toNat_max]
    omega
  rcases UInt32.le_total a b with hab | hab
  · obtain ⟨hmin, hmax, _, _⟩ := hordered hab
    obtain ⟨hmin', hmax', _, _⟩ := hordered (hg a b hab)
    rw [hmin, hmax, hmin', hmax']
    exact ⟨rfl, rfl⟩
  · obtain ⟨_, _, hmin, hmax⟩ := hordered hab
    obtain ⟨_, _, hmin', hmax'⟩ := hordered (hg b a hab)
    rw [hmin, hmax, hmin', hmax']
    exact ⟨rfl, rfl⟩

theorem map_cover {g : UInt32 → UInt32} (hg : ∀ a b, a ≤ b → g a ≤ g b) (s t : Span) :
    Span.mk (g (s.cover t).start) (g (s.cover t).stop) =
      Span.cover ⟨g s.start, g s.stop⟩ ⟨g t.start, g t.stop⟩ := by
  rw [Span.cover, Span.cover, (map_min_max hg s.start t.start).1, (map_min_max hg s.stop t.stop).2]

/-- Offsets are moved one by one, those further behind to places further behind. -/
def ofMonotone (g : UInt32 → UInt32) (hg : ∀ a b, a ≤ b → g a ≤ g b) : Relocation :=
  ⟨fun s => ⟨g s.start, g s.stop⟩, map_cover hg⟩

end Relocation

namespace Text

theorem size_utf8Encode (cs : List Char) : cs.utf8Encode.size = byteLength cs := by
  induction cs with
  | nil => simp
  | cons c cs ih =>
      rw [List.utf8Encode_cons, ByteArray.size_append, ih, List.utf8Encode_singleton,
        List.size_toByteArray, String.length_utf8EncodeChar, byteLength_cons]

theorem eq_append_ofList {source : String} {before text after : List Char}
    (h : source.toList = before ++ (text ++ after)) :
    source = .ofList before ++ .ofList text ++ .ofList after := by
  rw [← String.ofList_append, ← String.ofList_append, List.append_assoc, ← h, String.ofList_toList]

end Text

namespace Span

/-- The bytes of a text that a span takes out of it. -/
def bytes (s : Span) (source : String) : ByteArray :=
  source.toUTF8.extract s.start.toNat s.stop.toNat

/-- The bytes at the span of a part of a text are those of the part. -/
theorem RunsOver.bytes_eq {s : Span} {source : String} {before text after : List Char}
    (h : s.RunsOver before text) (hsource : source.toList = before ++ (text ++ after)) :
    s.bytes source = (String.ofList text).toUTF8 := by
  have hbytes : source.toUTF8 = before.utf8Encode ++ (text.utf8Encode ++ after.utf8Encode) := by
    rw [String.toUTF8_eq_toByteArray, ← String.utf8Encode_toList, hsource, List.utf8Encode_append,
      List.utf8Encode_append]
  calc s.bytes source
      = (before.utf8Encode ++ (text.utf8Encode ++ after.utf8Encode)).extract
        (before.utf8Encode.size + 0)
          (before.utf8Encode.size + text.utf8Encode.size) := by
        rw [bytes, hbytes, h.1, h.2, size_utf8Encode, size_utf8Encode, Nat.add_zero]
    _ = (text.utf8Encode ++ after.utf8Encode).extract 0 text.utf8Encode.size :=
      ByteArray.extract_append_size_add
    _ = text.utf8Encode := ByteArray.extract_append_eq_left rfl
    _ = (String.ofList text).toUTF8 := by rw [String.toUTF8_eq_toByteArray,
      String.toByteArray_ofList]

end Span

end LambdaLift
