import LambdaLift.Proofs.Identifier
import LambdaLift.Token.Lexer

/-!
# Gaps and lexemes

What stands between tokens, which texts a kind of token has, where a token ends and where none can
be read, all said without the reader. At every place of a text one of three things holds after a
gap: the text ends, a token stands there, or what stands there is refused. The reader finds out
which.
-/

namespace LambdaLift

open Text

/-- Every text starts with a run of characters of a class, which ends where the class does. -/
theorem exists_run {α : Type} (p : α → Bool) (l : List α) :
    ∃ run rest, l = run ++ rest ∧ (∀ x ∈ run, p x) ∧ ∀ a ∈ rest.head?, p a = false := by
  refine ⟨l.takeWhile p, l.dropWhile p, List.takeWhile_append_dropWhile.symm,
    List.all_eq_true.mp List.all_takeWhile, fun a ha => ?_⟩
  have hstop := List.head?_dropWhile_not p l
  rwa [Option.mem_def.mp ha] at hstop

/-- The run that a text starts with is what is taken from it. -/
theorem takeWhile_dropWhile_of_run {α : Type} {p : α → Bool} {run rest : List α}
    (hrun : ∀ x ∈ run, p x) (hrest : ∀ a ∈ rest.head?, p a = false) :
    (run ++ rest).takeWhile p = run ∧ (run ++ rest).dropWhile p = rest := by
  have hstop : rest.takeWhile p = [] ∧ rest.dropWhile p = rest := by
    cases rest with
    | nil => exact ⟨rfl, rfl⟩
    | cons a rest => simp [hrest a rfl]
  rw [List.takeWhile_append_of_pos hrun, List.dropWhile_append_of_pos hrun, hstop.1, hstop.2]
  exact ⟨List.append_nil run, rfl⟩

namespace Token

/-- `Gap gap rest`: the text `gap`, with `rest` behind it, holds no token. It consists of blank
characters and of comments, which run from two slashes up to a newline or to the end of the text. -/
inductive Gap : List Char → List Char → Prop
  | nil {rest} : Gap [] rest
  | blank {c cs rest} (hc : isBlank c) (tail : Gap cs rest) : Gap (c :: cs) rest
  | comment {body cs rest} (hbody : '\n' ∉ body) (hend : ∀ c ∈ (cs ++ rest).head?, c = '\n')
      (tail : Gap cs rest) : Gap ('/' :: '/' :: (body ++ cs)) rest

/-- The characters that are tokens or start the arrow. -/
def isMark (c : Char) : Bool := ['(', ')', '{', '}', ';', '='].contains c

/-- Whether a token can start with a character. -/
def startsToken (c : Char) : Bool := isMark c || c.isDigit || isIdentStart c

/-- The texts of a kind of token. -/
def Kind.Spells (kind : Kind) (text : String) : Prop :=
  match kind with
  | .lparen => text = "("
  | .rparen => text = ")"
  | .lbrace => text = r"{"
  | .rbrace => text = r"}"
  | .arrow => text = "=>"
  | .equals => text = "="
  | .semicolon => text = ";"
  | .ident => isIdentifier text
  | .int => text.toList ≠ [] ∧ ∀ c ∈ text.toList, c.isDigit
  | .eof => text = ""

/-- The texts that can directly follow a token of a kind: none that makes it longer, and after an
integer none that makes it an identifier. -/
def Kind.Ends (kind : Kind) (rest : List Char) : Prop :=
  match kind with
  | .ident | .int => ∀ c ∈ rest.head?, isIdentContinue c = false
  | .equals => rest.head? ≠ some '>'
  | _ => True

/-- The token stands at a byte offset directly before `rest`. -/
structure StandsAt (t : Token) (offset : Nat) (rest : List Char) : Prop where
  ne_eof : t.kind ≠ .eof
  span : t.span = .ofOffsets offset (offset + byteLength t.text.toList)
  spells : t.kind.Spells t.text
  ends : t.kind.Ends rest

/-- `Refused offset bad rest e`: the text `bad` stands at a byte offset directly before `rest`, no
token can be read there, and `e` says why. -/
inductive Refused (offset : Nat) : List Char → List Char → SyntaxError → Prop
  /-- A character that starts neither a token nor a comment. -/
  | character {c rest} (hblank : isBlank c = false) (hstart : startsToken c = false)
      (hcomment : c = '/' → rest.head? ≠ some '/') :
      Refused offset [c] rest
        (.unexpectedCharacter c (.ofOffsets offset (offset + byteLength [c])))
  /-- A run of digits that an identifier character directly follows, with all that follow it. -/
  | integer {digits c more rest} (hne : digits ≠ []) (hdigits : ∀ d ∈ digits, d.isDigit)
      (hdigit : c.isDigit = false) (hmore : ∀ d ∈ c :: more, isIdentContinue d)
      (hrest : ∀ d ∈ rest.head?, isIdentContinue d = false) :
      Refused offset (digits ++ c :: more) rest
        (.invalid .integerLiteral
          (.ofOffsets offset (offset + byteLength (digits ++ c :: more))))

/-- No gap starts with the text. -/
structure Settled (cs : List Char) : Prop where
  not_blank : ∀ c ∈ cs.head?, isBlank c = false
  not_comment : ∀ ds, cs ≠ '/' :: '/' :: ds

theorem settled_nil : Settled [] where
  not_blank := by simp
  not_comment := by simp

/-- The characters that start tokens are visible ones of ASCII. -/
theorem toNat_of_startsToken {c : Char} (h : startsToken c) : 33 ≤ c.toNat ∧ c.toNat < 127 := by
  have hval : c.toNat = c.val.toNat := rfl
  simp only [startsToken, Bool.or_eq_true, isMark, List.contains_iff_mem] at h
  rcases h with (h | h) | h
  · simp only [List.mem_cons, List.not_mem_nil, or_false] at h
    rcases h with rfl | rfl | rfl | rfl | rfl | rfl <;> decide
  · simp only [Char.isDigit, Bool.and_eq_true, decide_eq_true_eq, ge_iff_le,
      UInt32.le_iff_toNat_le] at h
    change 48 ≤ c.val.toNat ∧ c.val.toNat ≤ 57 at h
    omega
  · change (decide ('A'.val ≤ c.val ∧ c.val ≤ 'Z'.val) || ('a'.val ≤ c.val && c.val ≤ 'z'.val) ||
      c == '_') = true at h
    simp only [Bool.or_eq_true, Bool.and_eq_true, decide_eq_true_eq, beq_iff_eq,
      UInt32.le_iff_toNat_le] at h
    rcases h with (h | h) | rfl
    · change 65 ≤ c.val.toNat ∧ c.val.toNat ≤ 90 at h
      omega
    · change 97 ≤ c.val.toNat ∧ c.val.toNat ≤ 122 at h
      omega
    · decide

theorem isBlank_of_startsToken {c : Char} (h : startsToken c) : isBlank c = false := by
  have hc := toNat_of_startsToken h
  have hranges : ∀ r ∈ blankRanges, r.2 < 33 ∨ 127 ≤ r.1 := by decide
  refine List.any_eq_false.mpr fun r hr => ?_
  have hr := hranges r hr
  simp only [Bool.and_eq_true, decide_eq_true_eq]
  omega

theorem isIdentContinue_of_isBlank {c : Char} (h : isBlank c) : isIdentContinue c = false := by
  refine Bool.eq_false_iff.mpr fun hc => ?_
  have hstart : startsToken c := by
    simp only [isIdentContinue, Char.isAlphanum, Bool.or_eq_true] at hc
    simp only [startsToken, isIdentStart, Bool.or_eq_true]
    rcases hc with (halpha | hdigit) | hunderscore
    · exact .inr (.inl halpha)
    · exact .inl (.inr hdigit)
    · exact .inr (.inr hunderscore)
  cases h.symm.trans (isBlank_of_startsToken hstart)

/-- Before a blank character and at the end of the text every token ends. -/
theorem Kind.ends_of_isBlank (kind : Kind) {rest : List Char} (h : ∀ c ∈ rest.head?, isBlank c) :
    kind.Ends rest := by
  have hcontinue : ∀ c ∈ rest.head?, isIdentContinue c = false :=
    fun c hc => isIdentContinue_of_isBlank (h c hc)
  cases kind with
  | ident => exact hcontinue
  | int => exact hcontinue
  | equals =>
      intro hhead
      exact absurd (h '>' hhead) (by decide)
  | _ => trivial

theorem settled_of_startsToken {c : Char} {cs : List Char} (h : startsToken c) :
    Settled (c :: cs) where
  not_blank := by
    intro a ha
    cases ha
    exact isBlank_of_startsToken h
  not_comment := by
    rintro ds ⟨⟩
    exact absurd h (by decide)

/-- The first character of a token starts tokens. -/
theorem Kind.Spells.startsToken {kind : Kind} {text : String} (h : kind.Spells text)
    (hkind : kind ≠ .eof) : ∃ c cs, text.toList = c :: cs ∧ Token.startsToken c := by
  cases kind with
  | eof => exact absurd rfl hkind
  | ident =>
      obtain ⟨c, cs, htext, hc, _⟩ := isIdentifier_iff.mp h
      exact ⟨c, cs, htext, by simp [Token.startsToken, hc]⟩
  | int =>
      obtain ⟨hne, hdigits⟩ := h
      cases htext : text.toList with
      | nil => exact absurd htext hne
      | cons c cs => exact ⟨c, cs, rfl, by simp [Token.startsToken, hdigits c (by simp [htext])]⟩
  | _ =>
      cases h
      exact ⟨_, _, rfl, rfl⟩

theorem StandsAt.settled {t : Token} {offset : Nat} {rest : List Char}
    (h : t.StandsAt offset rest) :
    Settled (t.text.toList ++ rest) := by
  obtain ⟨c, cs, htext, hc⟩ := h.spells.startsToken h.ne_eof
  rw [htext]
  exact settled_of_startsToken hc

theorem Refused.settled {offset : Nat} {bad rest : List Char} {e : SyntaxError}
    (h : Refused offset bad rest e) : Settled (bad ++ rest) := by
  cases h with
  | @character c _ hblank _ hcomment =>
      constructor
      · intro a ha
        cases ha
        exact hblank
      · rintro ds ⟨⟩
        exact hcomment rfl rfl
  | @integer digits c more _ hne hdigits _ _ _ =>
      cases digits with
      | nil => exact absurd rfl hne
      | cons d digits => exact settled_of_startsToken (by simp [startsToken, hdigits d])

/-- Every text starts with a gap, behind which no other gap starts. -/
theorem exists_gap (cs : List Char) :
    ∃ gap rest, cs = gap ++ rest ∧ Gap gap rest ∧ Settled rest := by
  generalize hn : cs.length = n
  induction n using Nat.strongRecOn generalizing cs with
  | _ n ih =>
      subst hn
      cases cs with
      | nil => exact ⟨[], [], rfl, .nil, settled_nil⟩
      | cons c cs =>
          by_cases hc : isBlank c
          · obtain ⟨gap, rest, rfl, hgap, hrest⟩ := ih cs.length (by simp) cs rfl
            exact ⟨c :: gap, rest, rfl, .blank hc hgap, hrest⟩
          by_cases hcomment : ∃ ds, c :: cs = '/' :: '/' :: ds
          · obtain ⟨ds, hds⟩ := hcomment
            obtain ⟨body, others, rfl, hbody, hothers⟩ := exists_run (· != '\n') ds
            obtain ⟨gap, rest, rfl, hgap, hrest⟩ :=
              ih others.length (by simp only [hds, List.length_cons, List.length_append]; omega) _
                rfl
            refine ⟨'/' :: '/' :: (body ++ gap), rest, by simp [hds], ?_, hrest⟩
            refine .comment (fun hmem => by simpa using hbody _ hmem) (fun a ha => ?_) hgap
            simpa using hothers a ha
          · exact ⟨[], c :: cs, rfl, .nil, by simpa using hc, fun ds hds => hcomment ⟨ds, hds⟩⟩

/-- A token stands at the front of the text, or what stands there is refused. -/
def Decided (offset : Nat) (cs : List Char) : Prop :=
  (∃ (t : Token) (rest : List Char), cs = t.text.toList ++ rest ∧ t.StandsAt offset rest) ∨
    ∃ bad rest e, cs = bad ++ rest ∧ Refused offset bad rest e

namespace Decided

variable {offset : Nat}

theorem token (kind : Kind) (text rest : List Char) (hkind : kind ≠ .eof)
    (hspells : kind.Spells (.ofList text)) (hends : kind.Ends rest) :
    Decided offset (text ++ rest) :=
  .inl ⟨⟨kind, .ofOffsets offset (offset + byteLength text), .ofList text⟩, rest, by simp,
    hkind, by simp, hspells, hends⟩

theorem mark {c : Char} (h : isMark c) (cs : List Char) : Decided offset (c :: cs) := by
  simp only [isMark, List.contains_iff_mem, List.mem_cons, List.not_mem_nil, or_false] at h
  rcases h with rfl | rfl | rfl | rfl | rfl | rfl
  · exact token .lparen ['('] cs (by decide) rfl trivial
  · exact token .rparen [')'] cs (by decide) rfl trivial
  · exact token .lbrace ['{'] cs (by decide) rfl trivial
  · exact token .rbrace ['}'] cs (by decide) rfl trivial
  · exact token .semicolon [';'] cs (by decide) rfl trivial
  · by_cases harrow : cs.head? = some '>'
    · obtain ⟨ds, rfl⟩ := List.head?_eq_some_iff.mp harrow
      exact token .arrow ['=', '>'] ds (by decide) rfl trivial
    · exact token .equals ['='] cs (by decide) rfl harrow

theorem digit {c : Char} (h : c.isDigit) (cs : List Char) : Decided offset (c :: cs) := by
  obtain ⟨digits, rest, rfl, hdigits, hrest⟩ := exists_run Char.isDigit cs
  have hall : ∀ d ∈ c :: digits, d.isDigit := List.forall_mem_cons.mpr ⟨h, hdigits⟩
  by_cases hends : Kind.int.Ends rest
  · exact token .int (c :: digits) rest (by decide) ⟨by simp, by simpa using hall⟩ hends
  cases rest with
  | nil => exact absurd (by simp [Kind.Ends]) hends
  | cons a rest =>
      have ha : isIdentContinue a := by simpa [Kind.Ends] using hends
      obtain ⟨more, rest, rfl, hmore, hrest'⟩ := exists_run isIdentContinue rest
      refine .inr ⟨(c :: digits) ++ a :: more, rest, _, by simp,
        .integer (by simp) hall (hrest a rfl) ?_
        hrest'⟩
      exact List.forall_mem_cons.mpr ⟨ha, hmore⟩

theorem ident {c : Char} (h : isIdentStart c) (cs : List Char) : Decided offset (c :: cs) := by
  obtain ⟨more, rest, rfl, hmore, hrest⟩ := exists_run isIdentContinue cs
  exact token .ident (c :: more) rest (by decide)
    (isIdentifier_iff.mpr ⟨c, more, by simp, h, hmore⟩) hrest

end Decided

/-- Where no gap starts, the text ends, a token stands or the text is refused. -/
theorem Settled.decided {cs : List Char} (h : Settled cs) (hne : cs ≠ []) (offset : Nat) :
    Decided offset cs := by
  cases cs with
  | nil => exact absurd rfl hne
  | cons c cs =>
      by_cases hmark : isMark c
      · exact .mark hmark cs
      by_cases hdigit : c.isDigit
      · exact .digit hdigit cs
      by_cases hident : isIdentStart c
      · exact .ident hident cs
      have hstart : startsToken c = false := by simp [startsToken, hmark, hdigit, hident]
      refine .inr ⟨[c], cs, _, rfl, .character (h.not_blank c rfl) hstart ?_⟩
      rintro rfl hnext
      obtain ⟨ds, rfl⟩ := List.head?_eq_some_iff.mp hnext
      exact h.not_comment ds rfl

end Token

namespace Cursor

open Token

theorem skipWhile_of_run {p : Char → Bool} (offset : Nat) (run : List Char) {rest : List Char}
    (hrun : ∀ c ∈ run, p c) (hrest : ∀ c ∈ rest.head?, p c = false) :
    skipWhile p ⟨offset, run ++ rest⟩ = ⟨offset + byteLength run, rest⟩ := by
  obtain ⟨htake, hdrop⟩ := takeWhile_dropWhile_of_run hrun hrest
  rw [skipWhile, htake, hdrop]

theorem skipWhile_cons {p : Char → Bool} {offset : Nat} {c : Char} {cs : List Char} (hc : p c) :
    skipWhile p ⟨offset, c :: cs⟩ = skipWhile p ⟨offset + c.utf8Size, cs⟩ := by
  simp [skipWhile, hc, Nat.add_assoc]

theorem skipTrivia_eq (c : Cursor) : c.skipTrivia =
    match c.skipWhile isBlank with
    | ⟨offset, '/' :: '/' :: cs⟩ => (skipWhile (· != '\n') ⟨offset + 2, cs⟩).skipTrivia
    | d => d := by
  rw [skipTrivia]
  split <;> rename_i h <;> simp [h]

theorem skipTrivia_of_settled {cs : List Char} (h : Settled cs) (offset : Nat) :
    skipTrivia ⟨offset, cs⟩ = ⟨offset, cs⟩ := by
  have hskip : skipWhile isBlank ⟨offset, cs⟩ = ⟨offset, cs⟩ :=
    skipWhile_of_run offset [] (by simp) h.not_blank
  rw [skipTrivia_eq, hskip]
  split
  · rename_i ds hds
    exact absurd (congrArg Cursor.rest hds) (h.not_comment ds)
  · rfl

/-- The reader passes over a gap. -/
theorem skipTrivia_gap {gap rest : List Char} (h : Gap gap rest) (offset : Nat) :
    skipTrivia ⟨offset, gap ++ rest⟩ = skipTrivia ⟨offset + byteLength gap, rest⟩ := by
  induction h generalizing offset with
  | nil => rfl
  | @blank c cs rest hc tail ih =>
      rw [byteLength_cons, ← Nat.add_assoc, ← ih, List.cons_append, skipTrivia_eq,
        skipWhile_cons hc, ← skipTrivia_eq]
  | @comment body cs rest hbody hend tail ih =>
      have hslashes : skipWhile isBlank ⟨offset, '/' :: '/' :: (body ++ (cs ++ rest))⟩ = _ :=
        skipWhile_of_run offset [] (by simp) (by simp; decide)
      have hbody' : skipWhile (· != '\n') ⟨offset + 2, body ++ (cs ++ rest)⟩ =
          ⟨offset + 2 + byteLength body, cs ++ rest⟩ :=
        skipWhile_of_run _ body (fun c hc => bne_iff_ne.mpr fun h => hbody (h ▸ hc))
          (fun c hc => by simpa using hend c hc)
      rw [List.cons_append, List.cons_append, List.append_assoc, skipTrivia_eq, hslashes]
      change (skipWhile (· != '\n') ⟨offset + 2, body ++ (cs ++ rest)⟩).skipTrivia = _
      rw [hbody', ih, byteLength_cons, byteLength_cons, byteLength_append]
      congr 2
      change offset + 2 + byteLength body + byteLength cs =
        offset + (1 + (1 + (byteLength body + byteLength cs)))
      omega

theorem lexeme_cons {offset : Nat} {c : Char} {cs : List Char} (hc : isMark c = false) :
    lexeme ⟨offset, c :: cs⟩ =
      if c.isDigit then
        if (cs.dropWhile Char.isDigit).head?.any isIdentContinue then
          .error (.invalid .integerLiteral
            (spanOf ⟨offset, c :: cs⟩ (c :: cs.takeWhile isIdentContinue)))
        else .ok (token ⟨offset, c :: cs⟩ .int (c :: cs.takeWhile Char.isDigit)
          (cs.dropWhile Char.isDigit))
      else if isIdentStart c then
        .ok (token ⟨offset, c :: cs⟩ .ident (c :: cs.takeWhile isIdentContinue)
          (cs.dropWhile isIdentContinue))
      else .error (.unexpectedCharacter c (spanOf ⟨offset, c :: cs⟩ [c])) := by
  rw [lexeme]
  split
  case h_1 heq => cases heq
  case h_9 heq =>
    cases heq
    rfl
  all_goals
    rename_i heq
    cases heq
    cases hc

/-- A character of a class that holds no mark is none. -/
theorem isMark_eq_false {p : Char → Bool} (hp : ['(', ')', '{', '}', ';', '='].any p = false)
    {c : Char} (h : p c) : isMark c = false := by
  refine Bool.eq_false_iff.mpr fun hmark => ?_
  exact List.any_eq_false.mp hp c (List.contains_iff_mem.mp hmark) h

theorem lexeme_eq_token (offset : Nat) {kind : Kind} {text rest : List Char} (hkind : kind ≠ .eof)
    (hspells : kind.Spells (.ofList text)) (hends : kind.Ends rest) :
    lexeme ⟨offset, text ++ rest⟩ = .ok (token ⟨offset, text ++ rest⟩ kind text rest) := by
  cases kind with
  | eof => exact absurd rfl hkind
  | equals =>
      obtain rfl : text = ['='] := String.ofList_injective hspells
      rw [List.singleton_append, lexeme]
      split
      case h_7 heq =>
        cases heq
        exact absurd rfl hends
      case h_8 heq =>
        cases heq
        rfl
      all_goals
        rename_i heq
        cases heq
      rename_i hne _
      exact absurd rfl hne
  | ident =>
      obtain ⟨c, cs, htext, hc, hcs⟩ := isIdentifier_iff.mp hspells
      obtain rfl : text = c :: cs := by simpa using htext
      obtain ⟨htake, hdrop⟩ := takeWhile_dropWhile_of_run hcs hends
      rw [List.cons_append, lexeme_cons (isMark_eq_false (by rfl) hc), htake, hdrop, if_pos hc,
        if_neg (by simp [isDigit_eq_false_of_isIdentStart hc])]
  | int =>
      obtain ⟨hne, hdigits⟩ := hspells
      rw [String.toList_ofList] at hne hdigits
      obtain ⟨c, cs, rfl⟩ := List.exists_cons_of_ne_nil hne
      obtain ⟨hc, hcs⟩ := List.forall_mem_cons.mp hdigits
      have hstop : ∀ a ∈ rest.head?, a.isDigit = false := by
        intro a ha
        refine Bool.eq_false_iff.mpr fun hdigit => ?_
        simpa [isIdentContinue_of_isDigit hdigit] using hends a ha
      obtain ⟨htake, hdrop⟩ := takeWhile_dropWhile_of_run hcs hstop
      have hnone : rest.head?.any isIdentContinue = false := by
        cases rest with
        | nil => rfl
        | cons a rest => exact hends a rfl
      rw [List.cons_append, lexeme_cons (isMark_eq_false (by rfl) hc), htake, hdrop, if_pos hc,
        hnone]
      rfl
  | _ =>
      obtain rfl := String.ofList_injective hspells
      rfl

/-- The reader reads the token that stands at its place. -/
theorem lexeme_of_standsAt {t : Token} {offset : Nat} {rest : List Char}
    (h : t.StandsAt offset rest) :
    lexeme ⟨offset, t.text.toList ++ rest⟩ =
      .ok (t, ⟨offset + byteLength t.text.toList, rest⟩) := by
  rw [lexeme_eq_token offset h.ne_eof (by simpa using h.spells) h.ends, token, String.ofList_toList]
  change Except.ok (Token.mk t.kind (.ofOffsets offset (offset + byteLength t.text.toList)) t.text,
    _) = _
  rw [← h.span]

/-- The reader refuses what is refused at its place. -/
theorem lexeme_of_refused {offset : Nat} {bad rest : List Char} {e : SyntaxError}
    (h : Refused offset bad rest e) : lexeme ⟨offset, bad ++ rest⟩ = .error e := by
  cases h with
  | @character c _ _ hstart _ =>
      simp only [startsToken, Bool.or_eq_false_iff] at hstart
      obtain ⟨⟨hmark, hdigit⟩, hident⟩ := hstart
      rw [List.singleton_append, lexeme_cons hmark, if_neg (by simp [hdigit]),
        if_neg (by simp [hident])]
      rfl
  | @integer digits c more _ hne hdigits hdigit hmore hrest =>
      obtain ⟨d, digits, rfl⟩ := List.exists_cons_of_ne_nil hne
      obtain ⟨hd, hdigits⟩ := List.forall_mem_cons.mp hdigits
      have hsplit : digits ++ c :: more ++ rest = digits ++ (c :: (more ++ rest)) := by simp
      have hdrop : (digits ++ c :: more ++ rest).dropWhile Char.isDigit = c :: (more ++ rest) := by
        rw [hsplit]
        exact (takeWhile_dropWhile_of_run hdigits (by simpa using hdigit)).2
      have htake : (digits ++ c :: more ++ rest).takeWhile isIdentContinue = digits ++ c :: more :=
        (takeWhile_dropWhile_of_run (List.forall_mem_append.mpr
          ⟨fun a ha => isIdentContinue_of_isDigit (hdigits a ha), hmore⟩) hrest).1
      rw [List.cons_append, List.cons_append, lexeme_cons (isMark_eq_false (by rfl) hd),
        if_pos hd, hdrop, htake]
      exact if_pos (hmore c List.mem_cons_self)

end Cursor

end LambdaLift
