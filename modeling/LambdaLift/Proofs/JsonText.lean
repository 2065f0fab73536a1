import LambdaLift.Json.Shape
import LambdaLift.Proofs.Lexemes

/-!
# JSON texts that are read back

Strings and numbers are read back from what is written for them, and the readers of keys, colons and
commas get past the blanks that the writer puts between the parts of a value.
-/

namespace LambdaLift.Json

section

variable {α : Type} {cs ds : List Char}

/-- What was read and what is left of the text. -/
def outcome (x : Except Fault (Parsed α cs)) : Except Fault (α × List Char) :=
  x.map fun p => (p.value, p.rest)

theorem outcome_eq_ok_iff {x : Except Fault (Parsed α cs)} {v : α} {rest : List Char} :
    outcome x = .ok (v, rest) ↔ ∃ h, x = .ok ⟨v, rest, h⟩ := by
  cases x with
  | error e => simp [outcome, Except.map]
  | ok p =>
      obtain ⟨v', rest', h⟩ := p
      simp only [outcome, Except.map, Except.ok.injEq, Prod.mk.injEq, Parsed.mk.injEq]
      constructor
      · rintro ⟨rfl, rfl⟩
        exact ⟨h, rfl, rfl⟩
      · rintro ⟨_, rfl, rfl⟩
        exact ⟨rfl, rfl⟩

theorem outcome_eq_error_iff {x : Except Fault (Parsed α cs)} {e : Fault} :
    outcome x = .error e ↔ x = .error e := by
  cases x with
  | error e' => simp [outcome, Except.map]
  | ok p => simp [outcome, Except.map]

@[simp] theorem outcome_ofShorter (x : Except Fault (Parsed α ds)) (h : ds.length < cs.length) :
    outcome (x >>= fun p => pure (p.ofShorter h)) = outcome x := by
  cases x with
  | error e => rfl
  | ok p => rfl

end

theorem hexValue?_hexDigit : ∀ {n : Nat}, n < 16 → hexValue? (hexDigit n) = some n := by
  decide

theorem text_backslash {c : Char} {r cs : List Char} (h : outcome (unescape r) = .ok (c, cs)) :
    outcome (text ('\\' :: r)) = (outcome (text cs)).map fun p => (c :: p.1, p.2) := by
  obtain ⟨_, hr⟩ := outcome_eq_ok_iff.mp h
  rw [text, hr]
  change outcome (text cs >>= _) = _
  cases text cs with
  | error e => rfl
  | ok p => rfl

theorem text_plain {c : Char} {cs : List Char} (hquote : c ≠ '"') (hbackslash : c ≠ '\\')
    (hcontrol : ¬ c < ' ') :
    outcome (text (c :: cs)) = (outcome (text cs)).map fun p => (c :: p.1, p.2) := by
  rw [text.eq_4 _ _ hquote hbackslash, if_neg hcontrol]
  cases text cs with
  | error e => rfl
  | ok p => rfl

theorem hexQuad_of_lt {n : Nat} (hn : n < 256) (cs : List Char) :
    outcome (hexQuad ('0' :: '0' :: hexDigit (n / 16) :: hexDigit (n % 16) :: cs)) =
      .ok (n, cs) := by
  have hzero : hexValue? '0' = some 0 := rfl
  have hhigh := hexValue?_hexDigit (n := n / 16) (by omega)
  have hlow := hexValue?_hexDigit (n := n % 16) (by omega)
  have hvalue : ((0 * 16 + 0) * 16 + n / 16) * 16 + n % 16 = n := by omega
  simp only [hexQuad, hzero, hhigh, hlow, hvalue]
  rfl

theorem unicodeEscape_of_lt {n : Nat} {r cs : List Char} (h : outcome (hexQuad r) = .ok (n, cs))
    (hn : n < 0xD800) : outcome (unicodeEscape r) = .ok (Char.ofNat n, cs) := by
  obtain ⟨_, hr⟩ := outcome_eq_ok_iff.mp h
  have htrailing : isTrailingSurrogate n = false := by simp [isTrailingSurrogate]; omega
  have hleading : isLeadingSurrogate n = false := by simp [isLeadingSurrogate]; omega
  rw [unicodeEscape, hr]
  simp only [bind, Except.bind, htrailing, hleading, Bool.false_eq_true, if_false]
  rfl

theorem unescape_control {c : Char} {cs : List Char} (hc : c < ' ') :
    outcome (unescape ('u' :: '0' :: '0' ::
        hexDigit (c.toNat / 16) :: hexDigit (c.toNat % 16) :: cs)) =
      .ok (c, cs) := by
  have hlt : c.toNat < 32 := hc
  have hread := unicodeEscape_of_lt (hexQuad_of_lt (n := c.toNat) (by omega) cs) (by omega)
  obtain ⟨_, hr⟩ := outcome_eq_ok_iff.mp hread
  rw [unescape, hr, Char.ofNat_toNat]
  rfl

/-- A character is written as an escape that is read as that character, or it stands for itself. -/
theorem escape_cases (c : Char) :
    (∃ e, escape c = '\\' :: e ∧ ∀ cs, outcome (unescape (e ++ cs)) = .ok (c, cs)) ∨
      (escape c = [c] ∧ c ≠ '"' ∧ c ≠ '\\' ∧ ¬ c < ' ') := by
  fun_cases escape c with
  | case8 _ _ _ _ _ _ _ hcontrol => exact .inl ⟨_, rfl, fun _ => unescape_control hcontrol⟩
  | case9 hquote hbackslash _ _ _ _ _ hcontrol => exact .inr ⟨rfl, hquote, hbackslash, hcontrol⟩
  | _ =>
      subst_vars
      exact .inl ⟨_, rfl, fun _ => rfl⟩

/-- An escaped character is read as that character. -/
theorem text_escape (c : Char) (cs : List Char) :
    outcome (text (escape c ++ cs)) = (outcome (text cs)).map fun p => (c :: p.1, p.2) := by
  rcases escape_cases c with ⟨e, he, hread⟩ | ⟨hself, hquote, hbackslash, hcontrol⟩
  · rw [he, List.cons_append, text_backslash (hread cs)]
  · rw [hself, List.singleton_append, text_plain hquote hbackslash hcontrol]

theorem text_flatMap_escape (s rest : List Char) :
    outcome (text (s.flatMap escape ++ '"' :: rest)) = .ok (s, rest) := by
  induction s with
  | nil =>
      rw [List.flatMap_nil, List.nil_append, text]
      rfl
  | cons c s ih =>
      rw [List.flatMap_cons, List.append_assoc, text_escape, ih]
      rfl

/-- The digits of a number are read as that number. -/
theorem digitsValue_repr (n : Nat) : digitsValue n.repr.toList = n := by
  have hfold : ∀ ds, digitsValue ds = Nat.ofDigitChars 10 ds 0 := by
    intro ds
    simp [digitsValue, Nat.ofDigitChars, Nat.mul_comm]
  rw [hfold, Nat.toList_repr, Nat.ofDigitChars_ten_toDigits]

theorem le_foldl_digits (ds : List Char) (n : Nat) :
    n ≤ ds.foldl (fun n d => n * 10 + (d.toNat - 48)) n := by
  induction ds generalizing n with
  | nil => exact Nat.le_refl n
  | cons d ds ih =>
      calc
        n ≤ n * 10 + (d.toNat - 48) := by omega
        _ ≤ _ := ih _

/-- No digit is left over from a number that fits the significand. -/
theorem accumulate_of_lt {n : Nat} {ds : List Char}
    (h : ds.foldl (fun n d => n * 10 + (d.toNat - 48)) n < Nat.pow 2 64) :
    accumulate n ds = (ds.foldl (fun n d => n * 10 + (d.toNat - 48)) n, 0) := by
  induction ds generalizing n with
  | nil => rfl
  | cons d ds ih =>
      have hfits : n * 10 + (d.toNat - 48) < Nat.pow 2 64 :=
        Nat.lt_of_le_of_lt (le_foldl_digits ds _) h
      rw [accumulate, if_pos hfits, ih h]
      rfl

/-- A number is written without leading zeros. -/
theorem head?_repr_ne_zero {n : Nat} (hn : n ≠ 0) : n.repr.toList.head? ≠ some '0' := by
  rw [Nat.toList_repr]
  induction n using Nat.strongRecOn with
  | _ n ih =>
      rw [Nat.toDigits_eq_if (by decide)]
      split
      · next hlt =>
          have hdigit : ∀ d < 10, d ≠ 0 → some d.digitChar ≠ some '0' := by decide
          exact hdigit n hlt hn
      · next hle =>
          have hfirst := ih (n / 10) (by omega) (by omega)
          obtain ⟨c, cs, hcs⟩ :=
            List.exists_cons_of_ne_nil (Nat.toDigits_ne_nil (b := 10) (n := n / 10))
          rw [hcs] at hfirst ⊢
          exact hfirst

/-- The text can follow a number that is written with digits alone. -/
def EndsNumber (rest : List Char) : Prop :=
  ∀ c ∈ rest.head?, c.isDigit = false ∧ c ≠ '.' ∧ c ≠ 'e' ∧ c ≠ 'E'

theorem wholePart_repr (used : Bool) (n : Nat) {rest : List Char} (hrest : EndsNumber rest) :
    outcome (wholePart used (n.repr.toList ++ rest)) = .ok (n.repr.toList, rest) := by
  by_cases hn : n = 0
  · subst hn
    have hdigit : rest.head?.any Char.isDigit = false := by
      cases rest with
      | nil => rfl
      | cons c rest => exact (hrest c rfl).1
    change outcome (wholePart used ('0' :: rest)) = .ok (['0'], rest)
    rw [wholePart, if_neg (by simp [hdigit])]
    rfl
  · obtain ⟨c, cs, hcs⟩ := List.exists_cons_of_ne_nil (repr_toList_ne_nil n)
    have hzero := head?_repr_ne_zero hn
    have hdigits : ∀ d ∈ c :: cs, d.isDigit := fun d hd => isDigit_of_mem_repr (hcs ▸ hd)
    obtain ⟨hc, htail⟩ := List.forall_mem_cons.mp hdigits
    obtain ⟨htake, hdrop⟩ := takeWhile_dropWhile_of_run htail fun d hd => (hrest d hd).1
    rw [hcs] at hzero ⊢
    rw [List.cons_append, wholePart.eq_2 _ _ (fun r h => hzero (by cases h; rfl)), digits,
      if_pos hc]
    simp only [htake, hdrop]
    rfl

theorem fractionPart_of_endsNumber (used : Bool) {rest : List Char} (hrest : EndsNumber rest) :
    fractionPart used rest = .ok (.nothing []) := by
  cases rest with
  | nil => rfl
  | cons c rest =>
      refine fractionPart.eq_2 _ _ ?_
      rintro r h
      cases h
      exact (hrest '.' rfl).2.1 rfl

theorem exponentPart_of_endsNumber (used : Bool) {rest : List Char} (hrest : EndsNumber rest) :
    exponentPart used rest = .ok (.nothing none) := by
  cases rest with
  | nil => rfl
  | cons c rest =>
      obtain ⟨_, _, he, hE⟩ := hrest c rfl
      exact if_neg (not_or.mpr ⟨he, hE⟩)

/-- The digits of a number are read up to where they end. -/
theorem number_repr (n : Nat) {rest : List Char} (hrest : EndsNumber rest) :
    outcome (number true (n.repr.toList ++ rest)) = .ok (⟨false, n.repr.toList, [], none⟩,
      rest) := by
  obtain ⟨_, hwhole⟩ := outcome_eq_ok_iff.mp (wholePart_repr true n hrest)
  have hsign : ∀ r, n.repr.toList ++ rest ≠ '-' :: r := by
    intro r h
    obtain ⟨c, cs, hcs⟩ := List.exists_cons_of_ne_nil (repr_toList_ne_nil n)
    have hdigit : c.isDigit := isDigit_of_mem_repr (n := n) (by simp [hcs])
    rw [hcs, List.cons_append] at h
    cases h
    cases hdigit
  rw [number.eq_2 _ _ hsign, unsigned, hwhole]
  simp only [bind, Except.bind, fractionPart_of_endsNumber true hrest, MaybeParsed.nothing,
    exponentPart_of_endsNumber true hrest]
  rfl

/-- A number below `2 ^ 32` is a significand without a power of ten. -/
theorem scaled_repr {n : Nat} (hn : n < Nat.pow 2 32) :
    Number.scaled ⟨false, n.repr.toList, [], none⟩ = (n, 0) := by
  have hvalue := digitsValue_repr n
  have hfits : digitsValue n.repr.toList < Nat.pow 2 64 := by
    rw [hvalue]
    exact Nat.lt_trans hn (by decide)
  have hwhole : accumulate 0 n.repr.toList = (n, 0) := by
    rw [accumulate_of_lt hfits, ← digitsValue, hvalue]
  simp only [Number.scaled, hwhole, accumulate]
  rfl

theorem inRange_repr {n : Nat} (hn : n < Nat.pow 2 32) :
    Number.inRange ⟨false, n.repr.toList, [], none⟩ := by
  have hround : roundToDouble n = n := if_pos (Nat.lt_trans hn (by decide))
  have hone : roundToDouble (Nat.pow 10 (Int.toNat 0)) = 1 := by decide
  have hlimit : n * 1 < doubleLimit := by
    rw [Nat.mul_one]
    exact Nat.lt_of_lt_of_le hn (by decide +kernel)
  simp only [Number.inRange, scaled_repr hn, hround, hone, hlimit]
  simp

theorem natural?_repr (n : Nat) :
    Number.natural? ⟨false, n.repr.toList, [], none⟩ = some n :=
  congrArg some (digitsValue_repr n)

theorem skipSpace_append {blanks : List Char} (h : ∀ c ∈ blanks, isSpace c) (rest : List Char) :
    skipSpace (blanks ++ rest) = skipSpace rest :=
  List.dropWhile_append_of_pos h

theorem skipSpace_cons {c : Char} (h : isSpace c = false) (rest : List Char) :
    skipSpace (c :: rest) = c :: rest :=
  List.dropWhile_cons_of_neg (by simp [h])

theorem toList_quote_append (s : String) (rest : List Char) :
    (quote s).toList ++ rest = '"' :: (s.toList.flatMap escape ++ '"' :: rest) := by
  simp [quote]

section

variable {cs r rest : List Char}

/-- A string is read back from its quoted form. -/
theorem string_quote {s : String} (h : skipSpace cs = (quote s).toList ++ rest) :
    outcome (string cs) = .ok (s, rest) := by
  rw [toList_quote_append] at h
  obtain ⟨_, htext⟩ := outcome_eq_ok_iff.mp (text_flatMap_escape s.toList rest)
  unfold string
  split
  · next hnil => cases h.symm.trans hnil
  · next c r hcons =>
      obtain ⟨rfl, rfl⟩ := List.cons.inj (h.symm.trans hcons)
      rw [if_pos rfl, htext]
      change Except.ok (String.ofList s.toList, rest) = _
      rw [String.ofList_toList]

/-- An offset is read back from its digits. -/
theorem offset_repr {n : UInt32} (h : skipSpace cs = n.toNat.repr.toList ++ rest)
    (hrest : EndsNumber rest) : outcome (offset cs) = .ok (n, rest) := by
  have hlt : n.toNat < Nat.pow 2 32 := n.toNat_lt
  have hnumber := number_repr n.toNat hrest
  unfold offset
  split
  · next hnil =>
      have hne := repr_toList_ne_nil n.toNat
      exact absurd (List.append_eq_nil_iff.mp (h.symm.trans hnil)).1 hne
  · next c r hcons =>
      have hinput : n.toNat.repr.toList ++ rest = c :: r := h.symm.trans hcons
      have hc : c.isDigit := by
        obtain ⟨d, ds, hdigits⟩ := List.exists_cons_of_ne_nil (repr_toList_ne_nil n.toNat)
        rw [hdigits] at hinput
        cases hinput
        exact isDigit_of_mem_repr (n := n.toNat) (by simp [hdigits])
      rw [hinput, outcome_eq_ok_iff] at hnumber
      obtain ⟨_, hnumber⟩ := hnumber
      rw [if_pos (.inr hc), hnumber]
      simp only [bind, Except.bind, inRange_repr hlt, natural?_repr, hlt, if_true]
      change Except.ok (UInt32.ofNat n.toNat, rest) = _
      rw [UInt32.ofNat_toNat]

theorem colon_of_skipSpace (h : skipSpace cs = ':' :: rest) :
    outcome (colon cs) = .ok ((), rest) := by
  unfold colon
  split
  · next hnil => cases h.symm.trans hnil
  · next c r hcons =>
      obtain ⟨rfl, rfl⟩ := List.cons.inj (h.symm.trans hcons)
      rfl

theorem key_close (first : Bool) (h : skipSpace cs = '}' :: rest) :
    outcome (key first cs) = .ok (none, rest) := by
  unfold key
  split
  · next hnil => cases h.symm.trans hnil
  · next c r hcons =>
      obtain ⟨rfl, rfl⟩ := List.cons.inj (h.symm.trans hcons)
      rfl

theorem key_first {name : String} (h : skipSpace cs = (quote name).toList ++ rest) :
    outcome (key true cs) = .ok (some name, rest) := by
  rw [toList_quote_append] at h
  obtain ⟨_, htext⟩ := outcome_eq_ok_iff.mp (text_flatMap_escape name.toList rest)
  unfold key
  split
  · next hnil => cases h.symm.trans hnil
  · next c r hcons =>
      obtain ⟨rfl, rfl⟩ := List.cons.inj (h.symm.trans hcons)
      rw [if_neg (by decide), if_pos rfl, if_pos rfl, htext]
      change Except.ok (some (String.ofList name.toList), rest) = _
      rw [String.ofList_toList]

theorem key_next {name : String} (h : skipSpace cs = ',' :: r)
    (h' : skipSpace r = (quote name).toList ++ rest) :
    outcome (key false cs) = .ok (some name, rest) := by
  rw [toList_quote_append] at h'
  obtain ⟨_, htext⟩ := outcome_eq_ok_iff.mp (text_flatMap_escape name.toList rest)
  unfold key
  split
  · next hnil => cases h.symm.trans hnil
  · next c r hcons =>
      obtain ⟨rfl, rfl⟩ := List.cons.inj (h.symm.trans hcons)
      rw [if_neg (by decide), if_neg (by decide), if_pos rfl]
      split
      · next hnil => cases h'.symm.trans hnil
      · next c r hcons =>
          obtain ⟨rfl, rfl⟩ := List.cons.inj (h'.symm.trans hcons)
          rw [if_pos rfl, htext]
          change Except.ok (some (String.ofList name.toList), rest) = _
          rw [String.ofList_toList]

theorem slot_close (first : Bool) (h : skipSpace cs = ']' :: rest) :
    ∃ hlt, slot first cs = .ok (.closed rest hlt) := by
  unfold slot
  split
  · next hnil => cases h.symm.trans hnil
  · next c r hcons =>
      obtain ⟨rfl, rfl⟩ := List.cons.inj (h.symm.trans hcons)
      rw [if_pos rfl]
      exact ⟨length_lt_of_skipSpace_eq_cons hcons, rfl⟩

theorem slot_first {c : Char} (h : skipSpace cs = c :: r) (hc : c ≠ ']') :
    ∃ hle, slot true cs = .ok (.item (c :: r) hle) := by
  unfold slot
  split
  · next hnil => cases h.symm.trans hnil
  · next c r hcons =>
      obtain ⟨rfl, rfl⟩ := List.cons.inj (h.symm.trans hcons)
      rw [if_neg hc, if_pos rfl]
      exact ⟨length_lt_of_skipSpace_eq_cons hcons, rfl⟩

theorem slot_next {c : Char} (h : skipSpace cs = ',' :: r) (h' : skipSpace r = c :: rest)
    (hc : c ≠ ']') :
    ∃ hle, slot false cs = .ok (.item (c :: rest) hle) := by
  have hle : (c :: rest).length ≤ cs.length := by
    have hcomma := length_lt_of_skipSpace_eq_cons h
    have hitem := length_lt_of_skipSpace_eq_cons h'
    rw [List.length_cons]
    omega
  unfold slot
  split
  · next hnil => cases h.symm.trans hnil
  · next c r hcons =>
      obtain ⟨rfl, rfl⟩ := List.cons.inj (h.symm.trans hcons)
      rw [if_neg (by decide), if_neg (by decide), if_pos rfl]
      split
      · next hnil => cases h'.symm.trans hnil
      · next c r hcons =>
          obtain ⟨rfl, rfl⟩ := List.cons.inj (h'.symm.trans hcons)
          rw [if_neg hc]
          exact ⟨hle, rfl⟩

end

end LambdaLift.Json
