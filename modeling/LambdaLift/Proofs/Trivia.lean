import LambdaLift.Proofs.CompileErrors
import LambdaLift.Proofs.ReaderFailures

/-!
# Blank characters and comments between tokens

Blank characters and comments can be inserted before or behind any token. The tokens stay the same,
and those behind the inserted text stand as many bytes later as it is long. So a text with it is
compiled as the text without it, and if one of them has a syntax error, then the other one has the
same, at another place.
-/

namespace LambdaLift

open Text

/-- The span `n` bytes later. -/
def Span.shift (n : Nat) (s : Span) : Span := .ofOffsets (s.start.toNat + n) (s.stop.toNat + n)

namespace Token

/-- The token `n` bytes later. -/
def shift (n : Nat) (t : Token) : Token := { t with span := t.span.shift n }

/-- Blank characters and comments, each comment with the newline that ends it. -/
inductive Trivia : List Char → Prop
  | nil : Trivia []
  | blank {c cs} (hc : isBlank c) (tail : Trivia cs) : Trivia (c :: cs)
  | comment {body cs} (hbody : '\n' ∉ body) (tail : Trivia cs) :
    Trivia ('/' :: '/' :: (body ++ '\n' :: cs))

section Gaps

variable {gap rest inserted : List Char}

theorem Trivia.isGap (h : Trivia inserted) (rest : List Char) : Gap inserted rest := by
  induction h with
  | nil => exact .nil
  | blank hc _ ih => exact .blank hc ih
  | comment hbody _ ih => exact .comment hbody (by simp) (.blank (by decide) ih)

/-- What stands behind the first newline does not belong to a comment before it. -/
theorem Trivia.behind_newline {front back : List Char} (h : Trivia (front ++ '\n' :: back))
    (hfront : '\n' ∉ front) :
    Trivia back := by
  generalize htext : front ++ '\n' :: back = text at h
  induction h generalizing front with
  | nil => simp at htext
  | blank _ tail ih =>
      cases front with
      | nil =>
          obtain ⟨_, rfl⟩ := List.cons.inj htext
          exact tail
      | cons d front =>
          exact ih (fun hmem => hfront (List.mem_cons_of_mem d hmem)) (List.cons.inj htext).2
  | @comment body cs hbody tail _ =>
      have hsplit : front ++ '\n' :: back = ('/' :: '/' :: body) ++ '\n' :: cs := htext
      have hclass {text : List Char} (htext : '\n' ∉ text) : ∀ c ∈ text, c ≠ '\n' := by
        rintro c hc rfl
        exact htext hc
      obtain ⟨_, hback⟩ :=
        append_inj_of_class (p := fun c => c ≠ '\n') (by simpa using hclass hfront)
        (by simpa using hclass hbody) (by simp) (by simp) hsplit
      obtain ⟨_, rfl⟩ := List.cons.inj hback
      exact tail

/-- A gap at the end of the text or before a token can be made longer. -/
theorem Gap.append_trivia (h : Gap gap rest) (hrest : rest.head? ≠ some '\n')
    (hinserted : Trivia inserted) :
    Gap (gap ++ inserted) rest := by
  induction h with
  | nil => exact hinserted.isGap _
  | blank hc _ ih => exact .blank hc (ih hrest)
  | @comment body cs rest hbody hend tail ih =>
      rw [List.cons_append, List.cons_append, List.append_assoc]
      cases cs with
      | cons c cs => exact .comment hbody (by simpa using hend) (ih hrest)
      | nil =>
          -- A comment without a newline reaches the end of the text, and takes the first line of
          -- what is inserted.
          obtain rfl : rest = [] := by
            cases rest with
            | nil => rfl
            | cons c rest => exact absurd (congrArg some (hend c rfl)) hrest
          obtain ⟨line, others, rfl, hline, hothers⟩ := exists_run (fun c => c ≠ '\n') inserted
          have hbody' : '\n' ∉ body ++ line := by
            intro hmem
            rcases List.mem_append.mp hmem with hmem | hmem
            · exact hbody hmem
            · simpa using hline _ hmem
          have hgap : Gap others [] := by
            cases others with
            | nil => exact .nil
            | cons c others =>
                obtain rfl : c = '\n' := by simpa using hothers c rfl
                refine .blank (by decide) ((hinserted.behind_newline ?_).isGap _)
                exact fun hmem => hbody' (List.mem_append_right body hmem)
          rw [List.nil_append, ← List.append_assoc]
          exact .comment hbody' (by simpa using hothers) hgap

/-- Of what follows a gap it matters only whether it can end a comment. -/
theorem Gap.of_rest {rest' : List Char} (h : Gap gap rest)
    (hrest : (∀ c ∈ rest.head?, c = '\n') → ∀ c ∈ rest'.head?, c = '\n') : Gap gap rest' := by
  induction h with
  | nil => exact .nil
  | blank hc _ ih => exact .blank hc (ih hrest)
  | @comment body cs rest hbody hend _ ih =>
      refine .comment hbody ?_ (ih hrest)
      cases cs with
      | nil => exact hrest hend
      | cons c cs => exact hend

theorem Gap.of_head? {rest' : List Char} (h : Gap gap rest) (hhead : rest'.head? = rest.head?) :
    Gap gap rest' :=
  h.of_rest fun hend => by rwa [hhead]

/-- Blank characters and comments end every token. -/
theorem Kind.Ends.trivia {kind : Kind} (h : kind.Ends rest) (hinserted : Trivia inserted) :
    kind.Ends (inserted ++ rest) := by
  cases hinserted with
  | nil => exact h
  | blank hc _ =>
      apply Kind.ends_of_isBlank
      rintro d ⟨⟩
      exact hc
  | comment _ _ =>
      cases kind with
      | ident => rintro d ⟨⟩; decide
      | int => rintro d ⟨⟩; decide
      | equals => rintro ⟨⟩
      | _ => trivial

theorem Kind.Ends.of_head? {kind : Kind} {rest' : List Char} (h : kind.Ends rest)
    (hhead : rest'.head? = rest.head?) : kind.Ends rest' := by
  unfold Kind.Ends at h ⊢
  rwa [hhead]

/-- A token ends also where blank characters and comments are inserted, directly behind it or
later. -/
theorem Kind.Ends.insert {kind : Kind} {front back : List Char} (h : kind.Ends (front ++ back))
    (hinserted : Trivia inserted) : kind.Ends (front ++ (inserted ++ back)) := by
  cases front with
  | nil => exact h.trivia hinserted
  | cons c front => exact h.of_head? rfl

end Gaps

section Tiling

variable {offset : Nat} {gap cs inserted : List Char} {t : Token} {ts : List Token}

theorem StandsAt.shift {rest : List Char} (h : t.StandsAt offset rest)
    (hlen : offset + byteLength t.text.toList < UInt32.size) (n : Nat) :
    (t.shift n).StandsAt (offset + n) rest where
  ne_eof := h.ne_eof
  span := by
    obtain ⟨hstart, hstop⟩ := h.toNat_span hlen
    change Span.ofOffsets (t.span.start.toNat + n) (t.span.stop.toNat + n) = _
    rw [hstart, hstop, Nat.add_right_comm]
    rfl
  spells := h.spells
  ends := h.ends

/-- A text `n` bytes later has its tokens `n` bytes later. -/
theorem Tiles.shift {rest : List Char} (h : Tiles offset cs ts rest)
    (hlen : offset + byteLength cs < UInt32.size) (n : Nat) :
    Tiles (offset + n) cs (ts.map (Token.shift n)) rest := by
  induction h with
  | gap hgap => exact .gap hgap
  | @token offset gap t cs ts rest hgap ht tail ih =>
      simp only [byteLength_append] at hlen
      have hoffset : offset + byteLength gap + n = offset + n + byteLength gap := by omega
      have hoffset' : offset + byteLength gap + byteLength t.text.toList + n =
          offset + n + byteLength gap + byteLength t.text.toList := by omega
      have ht' := ht.shift (by omega) n
      have htail := ih (by omega)
      rw [hoffset] at ht'
      rw [hoffset'] at htail
      exact .token (t := t.shift n) hgap ht' htail

theorem eq_nil_of_byteLength_eq_zero {cs : List Char} (h : byteLength cs = 0) : cs = [] := by
  cases cs with
  | nil => rfl
  | cons c cs =>
      have hpos := c.utf8Size_pos
      rw [byteLength_cons] at h
      omega

/-- Of two parts with which a text starts, the shorter one is the start of the longer one. -/
theorem exists_eq_append_of_byteLength_le {front back more : List Char}
    (h : gap ++ more = front ++ back) (hle : byteLength gap ≤ byteLength front) :
    ∃ front', front = gap ++ front' ∧ more = front' ++ back := by
  rcases List.append_eq_append_iff.mp h with ⟨front', hfront, hmore⟩ | ⟨others, rfl, rfl⟩
  · exact ⟨front', hfront, hmore⟩
  · rw [byteLength_append] at hle
    obtain rfl : others = [] := eq_nil_of_byteLength_eq_zero (by omega)
    exact ⟨[], by simp, rfl⟩

/-- Inserted before a text, blank characters and comments move its tokens. -/
theorem Tiles.prepend (h : Tiles offset cs ts []) (hlen : offset + byteLength cs < UInt32.size)
    (hinserted : Trivia inserted) :
    Tiles offset (inserted ++ cs) (ts.map (Token.shift (byteLength inserted))) [] :=
  .append (.gap (hinserted.isGap _)) (h.shift hlen _)

/-- Before a token, blank characters and comments make the gap longer. -/
theorem Tiles.insert_before (hgap : Gap gap (t.text.toList ++ cs))
    (ht : t.StandsAt (offset + byteLength gap) cs)
    (tail : Tiles (offset + byteLength gap + byteLength t.text.toList) cs ts [])
    (hlen : offset + byteLength gap + byteLength (t.text.toList ++ cs) < UInt32.size)
    (hinserted : Trivia inserted) :
    Tiles offset (gap ++ inserted ++ (t.text.toList ++ cs))
      ((t :: ts).map (Token.shift (byteLength inserted))) [] := by
  obtain ⟨c, text, htext, hc⟩ := ht.spells.startsToken ht.ne_eof
  have hhead : (t.text.toList ++ cs ++ []).head? ≠ some '\n' := by
    rw [htext]
    rintro ⟨⟩
    exact absurd hc (by decide)
  have hrest : Tiles (offset + byteLength gap) ([] ++ t.text.toList ++ cs) (t :: ts) [] :=
    .token .nil (by simpa using ht) tail
  have hshift := hrest.shift hlen (byteLength inserted)
  rw [Nat.add_assoc offset, ← byteLength_append] at hshift
  exact .append (.gap (.append_trivia (by simpa using hgap) hhead hinserted)) hshift

/-- What follows a token can be replaced if the token still ends before it. -/
theorem Tiles.cons_of_ends {cs' : List Char} {us : List Token}
    (hgap : Gap gap (t.text.toList ++ cs)) (ht : t.StandsAt (offset + byteLength gap) cs)
    (hends : t.kind.Ends cs')
    (tail : Tiles (offset + byteLength gap + byteLength t.text.toList) cs' us []) :
    Tiles offset (gap ++ t.text.toList ++ cs') (t :: us) [] := by
  obtain ⟨c, text, htext, _⟩ := ht.spells.startsToken ht.ne_eof
  have hhead : (t.text.toList ++ cs' ++ []).head? = (t.text.toList ++ cs).head? := by
    rw [htext]
    rfl
  exact .token (hgap.of_head? hhead) ⟨ht.ne_eof, ht.span, ht.spells, by rwa [List.append_nil]⟩ tail

/-- One of the tokens starts or ends at the byte offset. -/
def Borders (ts : List Token) (place : Nat) : Prop :=
  ∃ t ∈ ts, t.span.start.toNat = place ∨ t.span.stop.toNat = place

/-- A place at a token or at the end of the text is that before the first token, or it is behind
that and then directly behind it, at another token or at the end of the text. -/
theorem Tiles.place_cases {front back : List Char} (ht : t.StandsAt (offset + byteLength gap) cs)
    (tail : Tiles (offset + byteLength gap + byteLength t.text.toList) cs ts [])
    (hlen : offset + byteLength (gap ++ t.text.toList ++ cs) < UInt32.size)
    (hcs : gap ++ t.text.toList ++ cs = front ++ back)
    (hplace : Borders (t :: ts) (offset + byteLength front) ∨ back = []) :
    (front = gap ∧ back = t.text.toList ++ cs) ∨
      ∃ front', front = gap ++ t.text.toList ++ front' ∧ cs = front' ++ back ∧ (front' = [] ∨
        Borders ts (offset + byteLength gap + byteLength t.text.toList + byteLength front') ∨
          back = []) := by
  simp only [byteLength_append] at hlen
  obtain ⟨hstart, hstop⟩ := ht.toNat_span (by omega)
  by_cases hfirst : byteLength front = byteLength gap
  · obtain ⟨front', rfl, hmore⟩ :=
      exists_eq_append_of_byteLength_le ((List.append_assoc _ _ _).symm.trans hcs)
        (Nat.le_of_eq hfirst.symm)
    obtain rfl : front' = [] := eq_nil_of_byteLength_eq_zero (by simpa using hfirst)
    exact .inl ⟨List.append_nil gap, hmore.symm⟩
  · have hle : byteLength (gap ++ t.text.toList) ≤ byteLength front := by
      rw [byteLength_append]
      rcases hplace with ⟨u, hu, hplace⟩ | rfl
      · rcases List.mem_cons.mp hu with rfl | hu
        · omega
        · obtain ⟨_, _, _, hustart, hustop⟩ := tail.toNat_span (by omega) u hu
          omega
      · have hall := congrArg byteLength hcs
        simp only [byteLength_append, byteLength_nil] at hall
        omega
    obtain ⟨front', rfl, hback⟩ := exists_eq_append_of_byteLength_le hcs hle
    simp only [byteLength_append] at hfirst hplace
    refine .inr ⟨front', rfl, hback, ?_⟩
    rcases hplace with ⟨u, hu, hplace⟩ | hnil
    · rcases List.mem_cons.mp hu with rfl | hu
      · exact .inl (eq_nil_of_byteLength_eq_zero (by omega))
      · exact .inr (.inl ⟨u, hu, by omega⟩)
    · exact .inr (.inr hnil)

/-- The tokens of a text into which blank characters and comments are inserted before or behind a
token, or at its end: those before the place stay where they are, those behind it are moved. -/
theorem Tiles.insert (h : Tiles offset cs ts []) (hlen : offset + byteLength cs < UInt32.size)
    (hinserted : Trivia inserted) {front back : List Char} (hcs : cs = front ++ back)
    (hplace : Borders ts (offset + byteLength front) ∨ back = []) :
    ∃ before after, ts = before ++ after ∧
      (∀ t ∈ before, t.span.stop.toNat ≤ offset + byteLength front) ∧
      (∀ t ∈ after, offset + byteLength front ≤ t.span.start.toNat) ∧
      Tiles offset (front ++ (inserted ++ back))
        (before ++ after.map (Token.shift (byteLength inserted))) [] := by
  generalize hrest : ([] : List Char) = rest at h
  induction h generalizing front back with
  | gap hgap =>
      subst hrest hcs
      obtain rfl : back = [] := by simpa [Borders] using hplace
      rw [List.append_nil] at hgap ⊢
      exact ⟨[], [], rfl, by simp, by simp, .gap (hgap.append_trivia (by simp) hinserted)⟩
  | @token offset gap t cs ts rest hgap ht tail ih =>
      subst hrest
      rw [List.append_nil] at hgap ht
      have hcases := Tiles.place_cases ht tail hlen hcs hplace
      simp only [byteLength_append] at hlen
      obtain ⟨hstart, hstop⟩ := ht.toNat_span (by omega)
      have hbehind : ∀ u ∈ ts, offset + byteLength gap + byteLength t.text.toList ≤
          u.span.start.toNat := by
        intro u hu
        obtain ⟨_, _, _, hustart, _⟩ := tail.toNat_span (by omega) u hu
        omega
      rcases hcases with ⟨rfl, rfl⟩ | ⟨front', rfl, rfl, rfl | hplace'⟩
      · refine ⟨[], t :: ts, rfl, by simp, List.forall_mem_cons.mpr ⟨by omega, fun u hu => ?_⟩, ?_⟩
        · have hu := hbehind u hu
          omega
        · rw [← List.append_assoc]
          exact .insert_before hgap ht tail (by rw [byteLength_append]; omega) hinserted
      · rw [List.append_nil]
        refine ⟨[t], ts, rfl, ?_, fun u hu => ?_, ?_⟩
        · simpa [Nat.add_assoc] using Nat.le_of_eq hstop
        · rw [byteLength_append, ← Nat.add_assoc]
          exact hbehind u hu
        · exact .cons_of_ends hgap ht (ht.ends.trivia hinserted) (tail.prepend (by omega) hinserted)
      · obtain ⟨before, after, rfl, hbefore, hafter, htiles⟩ := ih (by omega) rfl hplace' rfl
        simp only [byteLength_append]
        refine ⟨t :: before, after, rfl, List.forall_mem_cons.mpr ⟨by omega, fun u hu => ?_⟩,
          fun u hu => ?_, ?_⟩
        · have hu := hbefore u hu
          omega
        · have hu := hafter u hu
          omega
        · rw [List.append_assoc]
          exact .cons_of_ends hgap ht (ht.ends.insert hinserted) htiles

theorem shift_endAt {length : Nat} (h : length < UInt32.size) (n : Nat) :
    (endAt length).shift n = endAt (length + n) := by
  have hlength : (UInt32.ofNat length).toNat = length := UInt32.toNat_ofNat_of_lt' h
  change Token.mk .eof
    (.ofOffsets ((UInt32.ofNat length).toNat + n) ((UInt32.ofNat length).toNat + n)) "" = _
  rw [hlength]
  rfl

/-- The tokens of a text with blank characters and comments inserted before or behind one of its
tokens. -/
theorem read_insert {front inserted back : String} {tokens : List Token}
    (hinserted : Trivia inserted.toList) (hlen : byteLength (front ++ back).toList < UInt32.size)
    (htokens : read (front ++ back) = .ok tokens)
    (hplace : Borders tokens (byteLength front.toList)) :
    ∃ before after, tokens = before ++ after ∧
      (∀ t ∈ before, t.span.stop.toNat ≤ byteLength front.toList) ∧
      (∀ t ∈ after, byteLength front.toList ≤ t.span.start.toNat) ∧
      read (front ++ inserted ++ back) =
        .ok (before ++ after.map (Token.shift (byteLength inserted.toList))) := by
  obtain ⟨ts, rfl, hts⟩ := read_eq_ok_iff.mp htokens
  have hend := runsOver_endAt hlen
  have htext : (front ++ back).toList = front.toList ++ back.toList := String.toList_append
  have hlength :
      byteLength (front ++ back).toList = byteLength front.toList + byteLength back.toList := by
    rw [htext, byteLength_append]
  have hplace' : Borders ts (0 + byteLength front.toList) ∨ back.toList = [] := by
    rw [Nat.zero_add]
    obtain ⟨t, ht, hplace⟩ := hplace
    rcases List.mem_append.mp ht with ht | ht
    · exact .inl ⟨t, ht, hplace⟩
    · obtain rfl := List.mem_singleton.mp ht
      obtain ⟨hstart, hstop⟩ := hend
      exact .inr (eq_nil_of_byteLength_eq_zero (by simp only [byteLength_nil] at hstop; omega))
  obtain ⟨before, after, rfl, hbefore, hafter, htiles⟩ :=
    hts.insert (by omega) hinserted htext hplace'
  rw [Nat.zero_add] at hbefore hafter
  refine ⟨before, after ++ [endAt _], List.append_assoc _ _ _, hbefore, ?_, ?_⟩
  · intro t ht
    rcases List.mem_append.mp ht with ht | ht
    · exact hafter t ht
    · obtain rfl := List.mem_singleton.mp ht
      have hstart := hend.1
      omega
  · have hsource : (front ++ inserted ++ back).toList = front.toList ++
        (inserted.toList ++ back.toList) := by
      simp
    rw [← hsource] at htiles
    rw [read_of_tiles htiles, List.map_append, List.map_singleton, shift_endAt hlen,
      List.append_assoc]
    have hlength' : byteLength (front ++ inserted ++ back).toList =
        byteLength (front ++ back).toList + byteLength inserted.toList := by
      rw [hsource, htext]
      simp only [byteLength_append]
      omega
    rw [hlength']

end Tiling

end Token

theorem compile_of_ofSource {format : SourceFormat} {name source : String} {m : Module}
    {s s' : List Event} (h : Module.ofSource format name source s = .ok m s')
    (options : CompileOptions) :
    compile format name source options s = m.compile options s' := by
  change EStateM.bind (Module.ofSource format name source) (fun m => m.compile options) s = _
  unfold EStateM.bind
  rw [h]

theorem compile_of_syntaxError {source : String} {e : SyntaxError}
    (h : Tree.ofSource source = .error e) (name : String) (options : CompileOptions)
    (events : List Event) :
    compile .text name source options events = .error (.badSource name e) events :=
  bind_eq_error_iff.mpr (.inl
    (bind_eq_error_iff.mpr (.inl (Logged.ofExcept_eq_error_iff.mpr ⟨e, h, rfl, rfl⟩))))

/-- Blank characters and comments do not matter. They can be inserted at the start or at the end of
every token of a text. Then the text has the same tokens, those behind the place as many bytes later
as the inserted text is long. Both texts are compiled to the same unit or fail in the same way, or
both have the same syntax error, but for its place. -/
theorem compile_insert_trivia {front inserted back : String} {tokens : List Token}
    (hinserted : Token.Trivia inserted.toList)
    (hlen : byteLength (front ++ inserted ++ back).toList < UInt32.size)
    (htokens : Token.read (front ++ back) = .ok tokens)
    (hplace : Token.Borders tokens (byteLength front.toList)) :
    (∃ before after, tokens = before ++ after ∧
      (∀ t ∈ before, t.span.stop.toNat ≤ byteLength front.toList) ∧
      (∀ t ∈ after, byteLength front.toList ≤ t.span.start.toNat) ∧
      Token.read (front ++ inserted ++ back) =
        .ok (before ++ after.map (Token.shift (byteLength inserted.toList)))) ∧
    ∀ name options events,
      (compile .text name (front ++ inserted ++ back) options events =
          compile .text name (front ++ back) options events ∧
        ∀ e s, compile .text name (front ++ back) options events = .error e s →
          (∃ error, e = .resolve error) ∨ ∃ error, e = .lower error) ∨
      ∃ e e', compile .text name (front ++ back) options events =
        .error (.badSource name e) events ∧
        compile .text name (front ++ inserted ++ back) options events =
          .error (.badSource name e') events ∧
        e'.relocate .forget = e.relocate .forget := by
  have hlen' : byteLength (front ++ back).toList < UInt32.size := by
    simp only [String.toList_append, byteLength_append] at hlen ⊢
    omega
  obtain ⟨before, after, rfl, hbefore, hafter, hread⟩ :=
    Token.read_insert hinserted hlen' htokens hplace
  refine ⟨⟨before, after, rfl, hbefore, hafter, hread⟩, fun name options events => ?_⟩
  have hwords : (before ++ after.map (Token.shift (byteLength inserted.toList))).map
    (Token.relocate .forget) =
      (before ++ after).map (Token.relocate .forget) := by
    rw [List.map_append, List.map_append, List.map_map]
    rfl
  rcases Tree.ofSource_of_same_words htokens hread hwords with ⟨tree, tree', htree, htree', hsame⟩ |
    ⟨e, e', he, he', hsame⟩
  · left
    obtain ⟨us, hus, _⟩ := Module.exists_terms_of_ofSource htree
    have hload {source : String} {tree : Tree} (htree : Tree.ofSource source = .ok tree)
        (hus : tree.unspanned = .branch Tree.moduleKind default (Term.toTrees us)) :
        Module.ofSource .text name source events =
          .ok ⟨name, us⟩ (events ++ [.instantiated name us.length]) := by
      rw [Module.ofSource_text htree, Module.load_of_ofTree (Module.ofTree_of_unspanned hus name)]
    rw [compile_of_ofSource (hload htree hus), compile_of_ofSource (hload htree' (hsame.trans hus))]
    refine ⟨rfl, fun e s he => ?_⟩
    rcases Module.compile_eq_error he with ⟨error, _, _, _, rfl⟩ | ⟨error, _, _, _, rfl⟩
    · exact .inl ⟨error, rfl⟩
    · exact .inr ⟨error, rfl⟩
  · right
    exact ⟨e, e', compile_of_syntaxError he name options events,
      compile_of_syntaxError he' name options events, hsame⟩

/-- The text `(x)=> x` with a comment between the parenthesis and the arrow. -/
theorem compile_insert_trivia_comment :
    Token.Trivia " // é\n".toList ∧
      (∃ before after, Token.read ("(x)" ++ "=> x") = .ok (before ++ after) ∧
      (∃ t ∈ before ++ after, t.span.start.toNat = 3) ∧
      Token.read ("(x)" ++ " // é\n" ++ "=> x") = .ok (before ++ after.map (Token.shift 7))) ∧
    ∃ emitted events, compile .text "m" ("(x)" ++ "=> x") {} [] = .ok emitted events ∧
      compile .text "m" ("(x)" ++ " // é\n" ++ "=> x") {} [] = .ok emitted events := by
  have htrivia : Token.Trivia " // é\n".toList :=
    .blank (by decide) (.comment (show '\n' ∉ [' ', 'é'] by decide) .nil)
  obtain ⟨tokens, htokens⟩ :=
    exists_eq_ok_of_isOk (x := Token.read ("(x)" ++ "=> x")) (by decide +kernel)
  have hplace : ∃ t ∈ tokens, t.span.start.toNat = 3 := by
    have hstart : (match Token.read ("(x)" ++ "=> x") with
        | .ok tokens => tokens.any fun t => t.span.start.toNat == 3
        | .error _ => false) = true := by
      decide +kernel
    rw [htokens] at hstart
    simpa using hstart
  obtain ⟨t, ht, hstart⟩ := hplace
  obtain ⟨⟨before, after, rfl, _, _, hread⟩, hcompile⟩ :=
    compile_insert_trivia htrivia (by decide) htokens ⟨t, ht, .inl hstart⟩
  refine ⟨htrivia, ⟨before, after, htokens, ⟨t, ht, hstart⟩, hread⟩, ?_⟩
  obtain ⟨events, hok⟩ : ∃ events, compile .text "m" ("(x)" ++ "=> x") {} [] =
      .ok (Target.CompilationUnit.emit {} ⟨"m",
        [Target.Function.text {} ⟨"kv_abs0_f", ["x"], .name "x"⟩]⟩) events := by
    apply exists_eq_ok_of_value
    decide +kernel
  refine ⟨_, events, hok, ?_⟩
  rcases hcompile "m" {} [] with ⟨hsame, _⟩ | ⟨e, _, herror, _⟩
  · rw [hsame, hok]
  · cases hok.symm.trans herror

end LambdaLift
