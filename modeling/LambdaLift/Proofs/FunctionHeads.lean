import LambdaLift.Proofs.FrontEnd
import LambdaLift.Proofs.LiftedFunctions
import Mathlib.Data.List.Chain

/-!
# Where functions stand in the emitted texts

A header declares and a source defines a function by its head: its name, before a parenthesis, with
the type of the result before the name. The texts are searched for all such heads, line by line. The
line of a signature has one parenthesis, behind the name of the function. Calls have parentheses
too, but no word and space before the callee could be taken for the type. So every head is found
once, in the order of the functions, and no other one is found.
-/

namespace LambdaLift

namespace Target

/-- The characters `word` stand in `text` behind the first `position` characters. -/
def OccursAt (word text : List Char) (position : Nat) : Prop := word <+: text.drop position

/-- The head of the function with a given number, with `front` for what stands before the number. -/
def headWord (front : String) (index : Nat) : String := front ++ index.repr ++ "_f("

/-- The heads of functions from the number `first` on stand in a text at the given positions, each
at one position and all in the order of the text. No other head stands in it. -/
structure Enumerates (front : String) (first : Nat) (text : List Char) (positions : List Nat) :
    Prop where
  ordered : positions.Pairwise (· < ·)
  inside : ∀ p ∈ positions, p < text.length
  occursAt_iff : ∀ i p, OccursAt (headWord front i).toList text p ↔ ∃ k, i = first + k ∧
    positions[k]? = some p

/-- What stands before the number of a function in its head: characters of one line, without a
parenthesis, the last one no digit. -/
structure IsFront (front : String) : Prop where
  notMem_newline : '\n' ∉ front.toList
  notMem_paren : '(' ∉ front.toList
  not_digit : ∃ c, front.toList.getLast? = some c ∧ c.isDigit = false

section Words

variable {word text before : List Char} {p : Nat}

theorem occursAt_iff_exists (hne : word ≠ []) :
    OccursAt word text p ↔ ∃ before after, text = before ++ word ++ after ∧ before.length = p := by
  constructor
  · rintro ⟨after, hafter⟩
    have hp : p ≤ text.length := by
      by_contra hlt
      rw [List.drop_eq_nil_of_le (by omega)] at hafter
      exact hne (List.append_eq_nil_iff.mp hafter).1
    refine ⟨text.take p, after, ?_, List.length_take_of_le hp⟩
    rw [List.append_assoc, hafter, List.take_append_drop]
  · rintro ⟨before, after, rfl, rfl⟩
    rw [OccursAt, List.append_assoc, List.drop_left]
    exact List.prefix_append word after

theorem prefix_append_cons_iff {c : Char} (hc : c ∉ word) {after : List Char} :
    word <+: text ++ c :: after ↔ word <+: text := by
  constructor
  · intro h
    rcases List.prefix_or_prefix_of_prefix h (List.prefix_append text _) with hprefix | ⟨more, rfl⟩
    · exact hprefix
    · -- A word that goes on behind `text` has the character `c`.
      cases more with
      | nil => simp
      | cons d more =>
          rw [List.prefix_append_right_inj, List.cons_prefix_cons] at h
          exact absurd (by simp [h.1]) hc
  · intro h
    exact h.trans (List.prefix_append text _)

/-- A word of one line that stands in a text stands in one of its lines. -/
theorem occursAt_append_newline_iff {after : List Char} (hne : word ≠ []) (hword : '\n' ∉ word) :
    OccursAt word (text ++ '\n' :: after) p ↔
      OccursAt word text p ∨ ∃ q, p = text.length + 1 + q ∧ OccursAt word after q := by
  by_cases hp : p ≤ text.length
  · rw [OccursAt, List.drop_append_of_le_length hp, prefix_append_cons_iff hword]
    constructor
    · exact .inl
    · rintro (h | ⟨q, hq, _⟩)
      · exact h
      · omega
  · obtain ⟨q, rfl⟩ : ∃ q, p = text.length + 1 + q := ⟨p - (text.length + 1), by omega⟩
    have hdrop : (text ++ '\n' :: after).drop (text.length + 1 + q) = after.drop q := by
      rw [List.drop_append, List.drop_eq_nil_of_le (by omega), List.nil_append]
      have hlength : text.length + 1 + q - text.length = q + 1 := by omega
      rw [hlength, List.drop_succ_cons]
    rw [OccursAt, hdrop]
    constructor
    · intro h
      exact .inr ⟨q, rfl, h⟩
    · rintro (h | ⟨q', hq, h⟩)
      · rw [OccursAt, List.drop_eq_nil_of_le (by omega), List.prefix_nil] at h
        exact absurd h hne
      · obtain rfl : q = q' := by omega
        exact h

/-- A text with one parenthesis is cut at it in one way only. -/
theorem append_paren_inj {after before' after' : List Char} (hbefore : '(' ∉ before)
    (hafter : '(' ∉ after) (h : before ++ '(' :: after = before' ++ '(' :: after') :
    before = before' := by
  rcases List.append_eq_append_iff.mp h with ⟨more, rfl, hmore⟩ | ⟨more, rfl, hmore⟩
  · cases more with
    | nil => rw [List.append_nil]
    | cons c more =>
        obtain ⟨_, rfl⟩ := List.cons.inj hmore
        exact absurd (by simp) hafter
  · cases more with
    | nil => rw [List.append_nil]
    | cons c more =>
        obtain ⟨rfl, _⟩ := List.cons.inj hmore
        exact absurd (by simp) hbefore

/-- The digits at the end of a text are those behind the last other character. -/
theorem append_digits_inj {front before' digits digits' : List Char}
    (hfront : ∃ c, front.getLast? = some c ∧ c.isDigit = false) (hdigits : ∀ c ∈ digits, c.isDigit)
    (hdigits' : ∀ c ∈ digits', c.isDigit)
    (h : before ++ front ++ digits = before' ++ front ++ digits') :
    digits = digits' ∧ before = before' := by
  obtain ⟨c, hlast, hc⟩ := hfront
  have hstop (text : List Char) : ∀ a ∈ (text ++ front).reverse.head?, a.isDigit = false := by
    intro a ha
    rw [List.head?_reverse, List.getLast?_append, hlast] at ha
    cases ha
    exact hc
  have hreverse : digits.reverse ++ (before ++ front).reverse = digits'.reverse ++
      (before' ++ front).reverse := by
    rw [← List.reverse_append, ← List.reverse_append, h]
  obtain ⟨heq, hrest⟩ :=
    append_inj_of_class (p := Char.isDigit) (fun a ha => hdigits a (List.mem_reverse.mp ha))
    (fun a ha => hdigits' a (List.mem_reverse.mp ha)) (hstop before) (hstop before') hreverse
  exact ⟨List.reverse_injective heq, List.append_cancel_right (List.reverse_injective hrest)⟩

end Words

section HeadWords

variable {front : String} (hfront : IsFront front)

theorem toList_headWord (front : String) (i : Nat) :
    (headWord front i).toList = front.toList ++ i.repr.toList ++ ['_', 'f'] ++ ['('] := by
  simp [headWord]

theorem headWord_ne_nil (front : String) (i : Nat) : (headWord front i).toList ≠ [] := by
  simp [toList_headWord]

theorem notMem_repr {i : Nat} {c : Char} (hc : c.isDigit = false) : c ∉ i.repr.toList := by
  intro hmem
  cases hc.symm.trans (isDigit_of_mem_repr hmem)

include hfront

theorem notMem_newline_headWord (i : Nat) : '\n' ∉ (headWord front i).toList := by
  have hrepr : '\n' ∉ i.repr.toList := notMem_repr rfl
  simp only [toList_headWord, List.mem_append, hfront.notMem_newline, hrepr, false_or]
  decide

theorem notMem_paren_stem (i : Nat) : '(' ∉ front.toList ++ i.repr.toList ++ ['_', 'f'] := by
  have hrepr : '(' ∉ i.repr.toList := notMem_repr rfl
  simp only [List.mem_append, hfront.notMem_paren, hrepr, false_or]
  decide

/-- In a text with a head and with no other parenthesis, this head is the only one. -/
theorem occursAt_headWord_iff {before after : List Char} (hbefore : '(' ∉ before)
    (hafter : '(' ∉ after) (i k p : Nat) :
    OccursAt (headWord front i).toList (before ++ (headWord front k).toList ++ after) p ↔
      i = k ∧ p = before.length := by
  rw [occursAt_iff_exists (headWord_ne_nil front i)]
  constructor
  · rintro ⟨before', after', htext, rfl⟩
    have hstems : before ++ (front.toList ++ k.repr.toList ++ ['_', 'f']) =
        before' ++ (front.toList ++ i.repr.toList ++ ['_', 'f']) := by
      refine append_paren_inj ?_ hafter (?_ : _ ++ '(' :: after = _ ++ '(' :: after')
      · intro hmem
        exact (List.mem_append.mp hmem).elim hbefore (notMem_paren_stem hfront k)
      · simpa only [toList_headWord, List.append_assoc, List.singleton_append] using htext
    have hnumbers : before ++ front.toList ++ k.repr.toList = before' ++ front.toList ++
        i.repr.toList := by
      apply (List.append_left_inj ['_', 'f']).mp
      simpa only [List.append_assoc] using hstems
    obtain ⟨hdigits, rfl⟩ := append_digits_inj hfront.not_digit (fun _ => isDigit_of_mem_repr)
      (fun _ => isDigit_of_mem_repr) hnumbers
    exact ⟨(repr_injective (String.toList_inj.mp hdigits)).symm, rfl⟩
  · rintro ⟨rfl, rfl⟩
    exact ⟨before, after, rfl, rfl⟩

namespace Enumerates

omit hfront in
theorem none_of_forall {text : List Char} (h : ∀ i, ¬(headWord front i).toList <:+: text)
    (first : Nat) :
    Enumerates front first text [] where
  ordered := .nil
  inside := by simp
  occursAt_iff i p := by
    refine iff_of_false (fun hoccurs => h i ?_) (by simp)
    exact hoccurs.isInfix.trans (List.drop_suffix p text).isInfix

omit hfront in
/-- A text without parentheses has no heads. -/
theorem none_of_notMem_paren {text : List Char} (h : '(' ∉ text) (first : Nat) :
    Enumerates front first text [] := by
  refine none_of_forall (fun i hpart => h (hpart.subset ?_)) first
  simp [toList_headWord]

theorem head {before after : List Char} (hbefore : '(' ∉ before) (hafter : '(' ∉ after) (k : Nat) :
    Enumerates front k (before ++ (headWord front k).toList ++ after) [before.length] where
  ordered := List.pairwise_singleton _ _
  inside := by
    have hpos := List.length_pos_iff.mpr (headWord_ne_nil front k)
    simp only [List.mem_singleton, List.length_append]
    omega
  occursAt_iff i p := by
    rw [occursAt_headWord_iff hfront hbefore hafter]
    constructor
    · rintro ⟨rfl, rfl⟩
      exact ⟨0, rfl, rfl⟩
    · rintro ⟨j, rfl, hj⟩
      obtain ⟨hlt, rfl⟩ := List.getElem?_eq_some_iff.mp hj
      obtain rfl : j = 0 := Nat.lt_one_iff.mp hlt
      exact ⟨rfl, rfl⟩

/-- The heads in two lines are those of the first line and then those of the second. -/
theorem append {first : Nat} {text after : List Char} {ps qs : List Nat}
    (h : Enumerates front first text ps) (h' : Enumerates front (first + ps.length) after qs) :
    Enumerates front first (text ++ '\n' :: after) (ps ++ qs.map (text.length + 1 + ·)) where
  ordered := by
    refine List.pairwise_append.mpr ⟨h.ordered, ?_, ?_⟩
    · exact List.pairwise_map.mpr (h'.ordered.imp fun hlt => by omega)
    · intro p hp q hq
      obtain ⟨q, _, rfl⟩ := List.mem_map.mp hq
      have hlt := h.inside p hp
      omega
  inside := by
    intro p hp
    rw [List.length_append, List.length_cons]
    rcases List.mem_append.mp hp with hp | hp
    · have hlt := h.inside p hp
      omega
    · obtain ⟨q, hq, rfl⟩ := List.mem_map.mp hp
      have hlt := h'.inside q hq
      omega
  occursAt_iff i p := by
    rw [occursAt_append_newline_iff (headWord_ne_nil front i) (notMem_newline_headWord hfront i),
      h.occursAt_iff]
    constructor
    · rintro (⟨k, hi, hk⟩ | ⟨q, rfl, hq⟩)
      · obtain ⟨hlt, _⟩ := List.getElem?_eq_some_iff.mp hk
        exact ⟨k, hi, by rw [List.getElem?_append_left hlt, hk]⟩
      · obtain ⟨k, hi, hk⟩ := (h'.occursAt_iff i q).mp hq
        refine ⟨ps.length + k, by omega, ?_⟩
        rw [List.getElem?_append_right (Nat.le_add_right _ _), Nat.add_sub_cancel_left,
          List.getElem?_map, hk]
        rfl
    · rintro ⟨k, hi, hk⟩
      by_cases hlt : k < ps.length
      · rw [List.getElem?_append_left hlt] at hk
        exact .inl ⟨k, hi, hk⟩
      · rw [List.getElem?_append_right (Nat.le_of_not_lt hlt), List.getElem?_map] at hk
        obtain ⟨q, hq, rfl⟩ := Option.map_eq_some_iff.mp hk
        exact .inr ⟨q, rfl, (h'.occursAt_iff i q).mpr ⟨k - ps.length, by omega, hq⟩⟩

omit hfront in
theorem occursAt_iff_getElem? {text : List Char} {ps : List Nat} (h : Enumerates front 0 text ps)
    (i p : Nat) :
    OccursAt (headWord front i).toList text p ↔ ps[i]? = some p := by
  rw [h.occursAt_iff]
  constructor
  · rintro ⟨k, rfl, hk⟩
    rwa [Nat.zero_add]
  · intro hi
    exact ⟨i, (Nat.zero_add i).symm, hi⟩

/-- Lines with one head each, of functions that follow one another, have the heads of all these
functions. -/
theorem lines {texts : List (List Char)} {first : Nat}
    (h : ∀ k text, texts[k]? = some text → ∃ p, Enumerates front (first + k) text [p]) :
    ∃ ps, ps.length = texts.length ∧ Enumerates front first (['\n'].intercalate texts) ps := by
  induction texts generalizing first with
  | nil => exact ⟨[], rfl, none_of_notMem_paren (by simp) first⟩
  | cons text texts ih =>
      obtain ⟨p, hp⟩ := h 0 text rfl
      cases texts with
      | nil => exact ⟨[p], rfl, by simpa using hp⟩
      | cons next texts =>
          have hrest : ∀ k text, (next :: texts)[k]? = some text →
              ∃ p, Enumerates front (first + 1 + k) text [p] := by
            intro k text htext
            rw [Nat.add_assoc, Nat.add_comm 1]
            exact h (k + 1) text htext
          obtain ⟨ps, hlength, hps⟩ := ih hrest
          refine ⟨_, ?_, by simpa [List.intercalate_cons_cons] using hp.append hfront hps⟩
          simp [hlength]

end Enumerates

end HeadWords

/-- No space stands at the start of the text or directly behind a letter `t`, with which the name of
the value type ends. -/
structure Spaced (cs : List Char) : Prop where
  head : cs.head? ≠ some ' '
  isChain : cs.IsChain fun a b => b = ' ' → a ≠ 't'

namespace Spaced

theorem append {cs ds : List Char} (h : Spaced cs) (h' : Spaced ds) : Spaced (cs ++ ds) where
  head := by
    rw [List.head?_append]
    cases hcs : cs.head? with
    | none => exact h'.head
    | some c =>
        rw [Option.some_or, ← hcs]
        exact h.head
  isChain := by
    refine List.isChain_append.mpr ⟨h.isChain, h'.isChain, fun a _ b hb hspace => ?_⟩
    subst hspace
    exact absurd hb h'.head

theorem of_notMem {cs : List Char} (h : ' ' ∉ cs) : Spaced cs where
  head := fun hhead => h (List.mem_of_head? hhead)
  isChain := by
    refine List.Pairwise.isChain (List.pairwise_iff_forall_sublist.mpr fun hsub hspace => ?_)
    subst hspace
    exact absurd (hsub.subset (by simp)) h

theorem of_word {e : Expr} {cs : List Char} (h : Word e cs) : Spaced cs :=
  of_notMem fun hmem => absurd (h.isIdentContinue hmem) (by decide)

/-- Where an expression has a space, it stands behind a comma. -/
theorem of_spells {phrase : Phrase} {cs : List Char} (h : Spells phrase cs) : Spaced cs := by
  have hmark (c : Char) (hc : c ≠ ' ') : Spaced [c] := of_notMem (by simpa using hc.symm)
  have hcomma : Spaced [',', ' '] := ⟨by decide, by decide⟩
  induction h with
  | expr head _ ih => exact (of_word head).append ih
  | done => exact of_notMem (by simp)
  | call _ _ ihinside ihtail =>
      exact (hmark '(' (by decide)).append (ihinside.append ((hmark ')' (by decide)).append ihtail))
  | noArgs => exact of_notMem (by simp)
  | lastArg _ ih => exact ih
  | moreArgs _ _ ihinside ihtail => exact ihinside.append (hcomma.append ihtail)

end Spaced

/-- A list of parameters has no parentheses. -/
theorem SpellsParams.notMem_paren {ps : List String} {cs : List Char} (h : SpellsParams ps cs) :
    '(' ∉ cs := by
  have hparam {p : String} {ds : List Char} (hp : SpellsParam p ds) : '(' ∉ ds := by
    obtain ⟨ht, hp⟩ := hp
    have hident {x : String} (hx : Token.isIdentifier x) : '(' ∉ x.toList := fun hmem =>
      absurd (Token.isIdentContinue_of_mem_identifier hx hmem) (by decide)
    simp [hident ht, hident hp]
  induction h with
  | noParams => simp
  | lastParam inside => exact hparam inside
  | moreParams inside _ ih => simp [hparam inside, ih]

theorem guardChar_ne_paren (c : Char) : guardChar c ≠ '(' := by
  intro h
  unfold guardChar at h
  split at h
  · rename_i hc
    delta Char.toUpper at h
    split at h
    · -- Small letters become capital ones, which are not parentheses.
      rename_i hlower
      have hnat := congrArg UInt32.toNat (congrArg Char.val h)
      rw [UInt32.toNat_add] at hnat
      have hle := UInt32.le_iff_toNat_le.mp hlower.1
      have hge := UInt32.le_iff_toNat_le.mp hlower.2
      have hshift : ('A'.val - 'a'.val).toNat = 4294967264 := by decide
      have hparen : '('.val.toNat = 40 := by decide
      have ha : 'a'.val.toNat = 97 := by decide
      have hz : 'z'.val.toNat = 122 := by decide
      omega
    · subst h
      exact absurd hc (by decide)
  · exact absurd h (by decide)

theorem notMem_paren_headerGuard (name : String) : '(' ∉ (headerGuard name).toList := by
  have hname : '(' ∉ name.toList.map guardChar := by
    intro hmem
    obtain ⟨c, _, hc⟩ := List.mem_map.mp hmem
    exact guardChar_ne_paren c hc
  simp [headerGuard, hname]

/-- What stands before the number in the name of a function. -/
def nameFront : String := "kv_abs"

/-- What stands before the number in a signature: the type of the result and the start of the
name. -/
def signatureFront : String := "kv_any_t kv_abs"

theorem isFront_nameFront : IsFront nameFront := ⟨by decide, by decide, 's', by decide, by decide⟩

theorem isFront_signatureFront : IsFront signatureFront :=
  ⟨by decide, by decide, 's', by decide, by decide⟩

namespace Function

variable {k : Nat} {f : Function}

/-- The signature of a function is its head, its parameters and the closing parenthesis. -/
theorem toList_signature (hname : f.name = ({} : Style).functionName k) (hf : f.Nameable) :
    ∃ after, '(' ∉ after ∧ (f.signature {}).toList = (headWord signatureFront k).toList ++
      after := by
  have hparams :=
    (spellsParams_intercalate Style.wellFormed_default.anyType f.params hf.params).notMem_paren
  refine ⟨(", ".intercalate (f.params.map fun p => ({} : Style).anyType ++ " " ++ p)).toList ++
    [')'], by simpa using hparams, ?_⟩
  simp [signature, hname, Style.functionName, headWord, signatureFront]

theorem toList_headWord_signatureFront (k : Nat) :
    (headWord signatureFront k).toList = "kv_any_t ".toList ++ (headWord nameFront k).toList := by
  simp [headWord, signatureFront, nameFront]

/-- A declaration has the name of its function before a parenthesis once, and no other name of a
function. -/
theorem enumerates_declaration (hname : f.name = ({} : Style).functionName k) (hf : f.Nameable) :
    ∃ p, Enumerates nameFront k (f.declaration {}).toList [p] := by
  obtain ⟨after, hafter, hsignature⟩ := toList_signature hname hf
  have htext : (f.declaration {}).toList = "kv_any_t ".toList ++ (headWord nameFront k).toList ++
      (after ++ [';']) := by
    rw [declaration, String.toList_append, hsignature, toList_headWord_signatureFront]
    simp
  rw [htext]
  exact ⟨_, .head isFront_nameFront (by decide) (by simpa using hafter) k⟩

/-- The line with the body of a function is no signature. -/
theorem not_infix_body (hf : f.Nameable) (i : Nat) :
    ¬(headWord signatureFront i).toList <:+: ("\treturn " ++ f.body.text ++ ";").toList := by
  intro h
  have hbody : Spells (.expr f.body) f.body.text.toList := by
    simpa using Expr.spells_text f.body hf.body .done
  have hline : Spaced ("\treturn " ++ f.body.text ++ ";").toList := by
    rw [String.toList_append, String.toList_append]
    exact (Spaced.append ⟨by decide, by decide⟩ (.of_spells hbody)).append ⟨by decide, by decide⟩
  -- The space of the signature stands behind a letter `t`.
  have hspace : ['t', ' '] <:+: (headWord signatureFront i).toList :=
    ⟨"kv_any_".toList, (headWord nameFront i).toList, by simp [toList_headWord_signatureFront]⟩
  have hpair := hline.isChain.infix (hspace.trans h)
  exact absurd hpair (by decide)

/-- A definition has the signature of its function once, and no other signature. -/
theorem enumerates_definition (hname : f.name = ({} : Style).functionName k) (hf : f.Nameable) :
    ∃ p, Enumerates signatureFront k (f.definition {}).toList [p] := by
  obtain ⟨after, hafter, hsignature⟩ := toList_signature hname hf
  have htext : (f.definition {}).toList = [] ++ (headWord signatureFront k).toList ++
    (after ++ [' ', '{']) ++
      '\n' :: (("\treturn " ++ f.body.text ++ ";").toList ++ '\n' :: ['}']) := by
    rw [definition, String.toList_append, String.toList_append, String.toList_append,
      String.toList_append, String.toList_append, hsignature]
    simp
  have hhead : Enumerates signatureFront k
      ([] ++ (headWord signatureFront k).toList ++ (after ++ [' ', '{'])) [0] :=
    .head isFront_signatureFront (by simp) (by simpa using hafter) k
  have hbody : Enumerates signatureFront (k + 1) ("\treturn " ++ f.body.text ++ ";").toList [] :=
    .none_of_forall (not_infix_body hf) _
  have hend : Enumerates signatureFront (k + 1) ['}'] [] := .none_of_notMem_paren (by decide) _
  rw [htext]
  exact ⟨0, hhead.append isFront_signatureFront (hbody.append isFront_signatureFront hend)⟩

end Function

namespace CompilationUnit

variable {fs : List Function}

/-- Texts of functions, one below the other, have the heads that the texts have. -/
theorem enumerates_intercalate {front : String} (hfront : IsFront front) (text : Function → String)
    (h : ∀ (k : Nat) (f : Function), fs[k]? = some f →
      ∃ p, Enumerates front k (text f).toList [p]) :
    ∃ ps, ps.length = fs.length ∧
      Enumerates front 0 ("\n".intercalate (fs.map text)).toList ps := by
  have hlines : ∀ k chars, (fs.map fun f => (text f).toList)[k]? = some chars →
      ∃ p, Enumerates front (0 + k) chars [p] := by
    intro k chars hchars
    rw [List.getElem?_map] at hchars
    obtain ⟨f, hf, rfl⟩ := Option.map_eq_some_iff.mp hchars
    rw [Nat.zero_add]
    exact h k f hf
  obtain ⟨ps, hlength, hps⟩ := Enumerates.lines hfront hlines
  refine ⟨ps, by simpa using hlength, ?_⟩
  rw [String.toList_intercalate, List.map_map]
  exact hps

/-- Lines with heads keep them inside the guard of a header. -/
theorem enumerates_guarded {guard lines : String} {ps : List Nat} (hguard : '(' ∉ guard.toList)
    (h : Enumerates nameFront 0 lines.toList ps) :
    ∃ qs, qs.length = ps.length ∧
      Enumerates nameFront 0 ("// auto generated\n#ifndef " ++ guard ++ "\n#define " ++
      guard ++ "\n\ntypedef void *" ++ "kv_any_t" ++ ";\n\n" ++ lines ++ "\n\n#endif // " ++
        guard ++
      "\n").toList qs := by
  let before :=
    "// auto generated\n#ifndef " ++ guard ++ "\n#define " ++ guard ++ "\n\ntypedef void *" ++
    "kv_any_t" ++ ";\n"
  let after := "\n#endif // " ++ guard ++ "\n"
  have hbefore : Enumerates nameFront 0 before.toList [] :=
    .none_of_notMem_paren (by simp [before, hguard]) 0
  have hafter : Enumerates nameFront (0 + ps.length) after.toList [] :=
    .none_of_notMem_paren (by simp [after, hguard]) _
  have htext : ("// auto generated\n#ifndef " ++ guard ++ "\n#define " ++ guard ++
        "\n\ntypedef void *" ++ "kv_any_t" ++ ";\n\n" ++ lines ++ "\n\n#endif // " ++ guard ++
        "\n").toList =
      before.toList ++ '\n' :: (lines.toList ++ '\n' :: after.toList) := by
    simp [before, after]
  rw [htext]
  exact ⟨_, by simp, hbefore.append isFront_nameFront (h.append isFront_nameFront hafter)⟩

variable (hfs : ∀ (k : Nat) (f : Function), fs[k]? = some f → f.name = ({} : Style).functionName k ∧
  f.Nameable)
include hfs

/-- A header declares each of its functions once. -/
theorem enumerates_header (name : String) :
    ∃ ps, ps.length = fs.length ∧
      Enumerates nameFront 0 (header {} ⟨name, fs.map (Function.text {})⟩).toList ps := by
  obtain ⟨ps, hlength, hps⟩ := enumerates_intercalate isFront_nameFront (Function.declaration {})
    fun k f hf => Function.enumerates_declaration (hfs k f hf).1 (hfs k f hf).2
  have hdeclarations : declarations ⟨name, fs.map (Function.text {})⟩ =
      fs.map (Function.declaration {}) := by
    simp [declarations, Function.text, Function.comp_def]
  rw [← hdeclarations] at hps
  obtain ⟨qs, hqs, henum⟩ := enumerates_guarded (notMem_paren_headerGuard name) hps
  exact ⟨qs, hqs.trans hlength, henum⟩

/-- A source defines each of its functions once. -/
theorem enumerates_source {name : String} (hname : '(' ∉ name.toList) :
    ∃ ps, ps.length = fs.length ∧
      Enumerates signatureFront 0 (source ⟨name, fs.map (Function.text {})⟩).toList ps := by
  obtain ⟨ps, hlength, hps⟩ :=
    enumerates_intercalate isFront_signatureFront (Function.definition {})
    fun k f hf => Function.enumerates_definition (hfs k f hf).1 (hfs k f hf).2
  have htext : (source ⟨name, fs.map (Function.text {})⟩).toList =
      ("#include \"" ++ name ++ ".h\"\n").toList ++
        '\n' :: ("\n".intercalate (fs.map (Function.definition {}))).toList := by
    simp [source, definitions, Function.text, Function.comp_def]
  have hbefore : Enumerates signatureFront 0 ("#include \"" ++ name ++ ".h\"\n").toList [] :=
    .none_of_notMem_paren (by simp [hname]) 0
  rw [htext]
  exact ⟨_, by simpa using hlength, hbefore.append isFront_signatureFront hps⟩

end CompilationUnit

end Target

open Target

theorem compile_enumerates_functions {name source : String} {core : List String}
    {events events' : List Event} {emitted : Emitted}
    (hname : ∀ c ∈ name.toList, Token.isIdentContinue c)
    (h : compile .text name source ⟨{}, core⟩ events = .ok emitted events') :
    ∃ m, (∃ s, Module.ofSource .text name source events = .ok m s) ∧
      (∃ ps : List Nat, ps.length = m.lambdas.length ∧ ps.Pairwise (· < ·) ∧
        ∀ i p, OccursAt (headWord "kv_abs" i).toList emitted.header.toList p ↔ ps[i]? = some p) ∧
      (∃ ps : List Nat, ps.length = m.lambdas.length ∧ ps.Pairwise (· < ·) ∧
        ∀ i p, OccursAt (headWord "kv_any_t kv_abs" i).toList emitted.source.toList p ↔
          ps[i]? = some p) := by
  obtain ⟨m, s, hm, hcompile⟩ := compile_eq_ok h
  obtain ⟨unit, s₁, s₂, hunit, rfl⟩ := Module.compile_eq_ok hcompile
  obtain ⟨es, fs, hlifts, rfl⟩ := Module.lower_eq_ok_iff.mp ⟨s₂, hunit⟩
  have hfrom : List.Forall₂ (LiftedFrom {} fs) fs m.lambdas :=
    hlifts.liftedFrom fun k f hf => by rwa [Nat.zero_add]
  have hfs : ∀ (k : Nat) (f : Function), fs[k]? = some f → f.name = ({} : Style).functionName k ∧
      f.Nameable := by
    intro k f hf
    refine ⟨by simpa using (hlifts.selfContained hf).name, ?_⟩
    exact hlifts.nameable Style.wellFormed_default
      (fun x hx => Module.isIdentifier_of_ofSource hm hx)
      (List.mem_of_getElem? hf)
  have hparen : '(' ∉ m.name.toList := by
    rw [Module.name_of_ofSource hm]
    exact fun hmem => absurd (hname _ hmem) (by decide)
  obtain ⟨ps, hps, hheader⟩ := CompilationUnit.enumerates_header hfs m.name
  obtain ⟨qs, hqs, hsource⟩ := CompilationUnit.enumerates_source hfs hparen
  exact ⟨m, ⟨s, hm⟩, ⟨ps, hps.trans hfrom.length_eq, hheader.ordered,
    hheader.occursAt_iff_getElem?⟩,
    ⟨qs, hqs.trans hfrom.length_eq, hsource.ordered, hsource.occursAt_iff_getElem?⟩⟩

/-- The two texts of a program that compiles in the default style have the functions of its lambdas
in order. In the header the name of a function before a parenthesis stands once, and in the source
the value type before this. Neither text has such a word with a number that is not below that of
lambdas. -/
theorem compileSlices_enumerates_functions {name source : String} {core : List String}
    {events events' : List Event} {emitted : Emitted}
    (hname : ∀ c ∈ name.toList, Token.isIdentContinue c)
    (hlen : Text.byteLength source.toList < UInt32.size)
    (h : compileSlices name source ⟨{}, core⟩ events = some (.ok emitted events')) :
    ∃ tree m, Tree.ofSlices source = some (.ok tree) ∧ Module.ofTree name tree = .ok m ∧
      (∃ ps : List Nat, ps.length = m.lambdas.length ∧ ps.Pairwise (· < ·) ∧
        ∀ i p, OccursAt (headWord "kv_abs" i).toList emitted.header.toList p ↔ ps[i]? = some p) ∧
      (∃ ps : List Nat, ps.length = m.lambdas.length ∧ ps.Pairwise (· < ·) ∧
        ∀ i p, OccursAt (headWord "kv_any_t kv_abs" i).toList emitted.source.toList p ↔
          ps[i]? = some p) := by
  rw [compileSlices_eq hlen] at h
  obtain ⟨m, ⟨s, hm⟩, hheads⟩ := compile_enumerates_functions hname (Option.some.inj h)
  obtain ⟨tree, htree, hm⟩ := Module.ofSource_text_eq_ok hm
  exact ⟨tree, m, by rw [Tree.ofSlices_eq hlen, htree], hm, hheads⟩

/-- In the source of `(f) => ((y) => y f)` the call `kv_abs0_f(f)` is no definition. -/
theorem compileSlices_enumerates_functions_call :
    (∀ c ∈ "m".toList, Token.isIdentContinue c) ∧
    Text.byteLength "(f) => ((y) => y f)".toList < UInt32.size ∧
    ∃ (emitted : Emitted) (events : List Event) (p q : Nat),
      compileSlices "m" "(f) => ((y) => y f)" {} [] = some (.ok emitted events) ∧ p < q ∧
      ∀ i r, OccursAt (headWord "kv_any_t kv_abs" i).toList emitted.source.toList r ↔
        [p, q][i]? = some r := by
  have hname : ∀ c ∈ "m".toList, Token.isIdentContinue c := List.all_eq_true.mp (by decide)
  have hlen : Text.byteLength "(f) => ((y) => y f)".toList < UInt32.size := by decide
  obtain ⟨events, hcompile⟩ : ∃ events, compile .text "m" "(f) => ((y) => y f)" {} [] =
      .ok (CompilationUnit.emit {} ⟨"m", [Function.text {} ⟨"kv_abs0_f", ["y"], .name "y"⟩,
        Function.text {} ⟨"kv_abs1_f", ["f"], .call (.name "kv_abs0_f") [.name "f"]⟩]⟩) events := by
    apply exists_eq_ok_of_value
    decide +kernel
  have hslices := (compileSlices_eq hlen "m" {} []).trans (congrArg some hcompile)
  obtain ⟨tree, m, htree, hm, _, ps, hlength, hordered, hps⟩ :=
    compileSlices_enumerates_functions hname hlen hslices
  have hsource := Option.some.inj ((Tree.ofSlices_eq hlen).symm.trans htree)
  have hlambdas : (Tree.ofSource "(f) => ((y) => y f)").toOption.any fun tree =>
      (Module.ofTree "m" tree).toOption.any fun m => m.lambdas.length = 2 := by
    decide +kernel
  rw [hsource] at hlambdas
  change (Module.ofTree "m" tree).toOption.any _ = true at hlambdas
  rw [hm] at hlambdas
  obtain ⟨p, q, rfl⟩ := List.length_eq_two.mp (hlength.trans (of_decide_eq_true hlambdas))
  exact ⟨hname, hlen, _, events, p, q, hslices, List.rel_of_pairwise_cons hordered (by simp), hps⟩

/-- The parameter of `(pppppppppp) => 1` at the offset `2 ^ 32 + 2` has the span of `kv_abs0_f(` in
the comment before it and takes this for its name, so that the header has the head of the one
function twice. -/
theorem compileSlices_repeats_head :
    ∃ emitted events,
      compileSlices "m"
          (Text.spaced "//kv_abs0_f(     1\n" (UInt32.size - 18) "(pppppppppp) => 1") {} [] =
        some (.ok emitted events) ∧
      OccursAt (headWord "kv_abs" 0).toList emitted.header.toList 83 ∧
      OccursAt (headWord "kv_abs" 0).toList emitted.header.toList 102 := by
  have hback : Cursor.tokens ⟨4294967297, "(pppppppppp) => 1".toList⟩ =
      .ok [⟨.lparen, ⟨1, 2⟩, "("⟩, ⟨.ident, ⟨2, 12⟩, "pppppppppp"⟩, ⟨.rparen, ⟨12, 13⟩, ")"⟩,
        ⟨.arrow, ⟨14, 16⟩, "=>"⟩, ⟨.int, ⟨17, 18⟩, "1"⟩, ⟨.eof, ⟨18, 18⟩, ""⟩] :=
    eq_ok_of_value (by decide +kernel)
  have hread :
      Token.read (Text.spaced "//kv_abs0_f(     1\n" (UInt32.size - 18) "(pppppppppp) => 1") =
        _ :=
    Token.read_spaced_gap (Token.gap_line
      (show _ = '/' :: '/' :: ("kv_abs0_f(     1".toList ++ ['\n']) by decide) (by decide)) hback
  obtain ⟨tree, htree, hcompile⟩ := Tree.exists_ofSlices_spaced hread (by decide +kernel)
    (p := fun tree => match (Module.load "m" tree >>= fun m => m.compile {}) [] with
      | .ok emitted _ => (headWord "kv_abs" 0).toList.isPrefixOf (emitted.header.toList.drop 83) &&
          (headWord "kv_abs" 0).toList.isPrefixOf (emitted.header.toList.drop 102)
      | .error _ _ => false) (by decide +kernel)
  rw [compileSlices, htree, Option.map_some]
  change ∃ emitted events, some ((Module.load "m" tree >>= fun m => m.compile {}) []) = _ ∧ _
  cases hresult : (Module.load "m" tree >>= fun m => m.compile {}) [] with
  | error e events =>
      rw [hresult] at hcompile
      cases hcompile
  | ok emitted events =>
      rw [hresult] at hcompile
      obtain ⟨hfirst, hsecond⟩ := Bool.and_eq_true_iff.mp hcompile
      exact ⟨emitted, events, rfl, List.isPrefixOf_iff_prefix.mp hfirst,
        List.isPrefixOf_iff_prefix.mp hsecond⟩

end LambdaLift
