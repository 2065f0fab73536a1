import LambdaLift.Proofs.Grammar

/-!
# Matched brackets

Parentheses and braces among tokens match if each opening one has a closing one of its own kind
behind it, with matched brackets between the two. Whatever derives from the grammar has matched
brackets.
-/

namespace LambdaLift

/-- The kind of the token that opens a bracketed part. -/
def Delimiter.openingKind : Delimiter → Token.Kind
  | paren => .lparen
  | brace => .lbrace

/-- The kind of the token that closes a bracketed part. -/
def Delimiter.closingKind : Delimiter → Token.Kind
  | paren => .rparen
  | brace => .rbrace

namespace Token

/-- Whether the tokens of a kind open or close bracketed parts. -/
def Kind.isBracket : Kind → Bool
  | .lparen | .rparen | .lbrace | .rbrace => true
  | .arrow | .equals | .semicolon | .ident | .int | .eof => false

/-- All brackets among the tokens are matched. -/
inductive Balanced : List Token → Prop
  | nil : Balanced []
  | word {t} (ht : t.kind.isBracket = false) : Balanced [t]
  | append {ts us} (left : Balanced ts) (right : Balanced us) : Balanced (ts ++ us)
  | enclosed {d : Delimiter} {t u ts} (ht : t.kind = d.openingKind) (hu : u.kind = d.closingKind)
      (inside : Balanced ts) : Balanced (t :: (ts ++ [u]))

theorem Balanced.cons {t : Token} {ts : List Token} (ht : t.kind.isBracket = false)
    (h : Balanced ts) :
    Balanced (t :: ts) :=
  .append (.word ht) h

theorem balanced_idents {ts : List Token} (h : ∀ t ∈ ts, t.kind = .ident) : Balanced ts := by
  induction ts with
  | nil => exact .nil
  | cons t ts ih =>
      obtain ⟨ht, hts⟩ := List.forall_mem_cons.mp h
      exact .cons (by rw [ht]; rfl) (ih hts)

/-- By how much a token of a kind changes the number of open brackets. -/
def Kind.step : Kind → Int
  | .lparen | .lbrace => 1
  | .rparen | .rbrace => -1
  | .arrow | .equals | .semicolon | .ident | .int | .eof => 0

/-- How many brackets more the tokens open than they close. -/
def depth : List Token → Int
  | [] => 0
  | t :: ts => t.kind.step + depth ts

theorem depth_append (ts us : List Token) : depth (ts ++ us) = depth ts + depth us := by
  induction ts with
  | nil => exact (Int.zero_add _).symm
  | cons t ts ih => rw [List.cons_append, depth, depth, ih, Int.add_assoc]

theorem depth_singleton (t : Token) : depth [t] = t.kind.step := Int.add_zero _

namespace Balanced

variable {ts front back : List Token}

theorem step_word {kind : Kind} (h : kind.isBracket = false) : kind.step = 0 := by
  cases kind with
  | lparen | rparen | lbrace | rbrace => cases h
  | arrow | equals | semicolon | ident | int | eof => rfl

theorem step_opening (d : Delimiter) : d.openingKind.step = 1 := by
  cases d with
  | paren => rfl
  | brace => rfl

theorem step_closing (d : Delimiter) : d.closingKind.step = -1 := by
  cases d with
  | paren => rfl
  | brace => rfl

theorem depth_eq (h : Balanced ts) : depth ts = 0 := by
  induction h with
  | nil => rfl
  | word ht => rw [depth_singleton, step_word ht]
  | append _ _ ihleft ihright => rw [depth_append, ihleft, ihright]; rfl
  | enclosed ht hu _ ih =>
      rw [depth, depth_append, depth_singleton, ih, ht, hu, step_opening, step_closing]; rfl

/-- Matched brackets are opened before they are closed. -/
theorem depth_nonneg (h : Balanced ts) (hts : ts = front ++ back) : 0 ≤ depth front := by
  induction h generalizing front back with
  | nil =>
      obtain ⟨rfl, _⟩ := List.append_eq_nil_iff.mp hts.symm
      exact Int.le_refl 0
  | @word t ht =>
      rcases List.singleton_eq_append_iff.mp hts with ⟨rfl, _⟩ | ⟨rfl, _⟩
      · exact Int.le_refl 0
      · exact Int.le_of_eq ((depth_singleton t).trans (step_word ht)).symm
  | @append ts us left _ ihleft ihright =>
      rcases List.append_eq_append_iff.mp hts with ⟨middle, rfl, hus⟩ | ⟨middle, hts, _⟩
      · rw [depth_append, left.depth_eq, Int.zero_add]
        exact ihright hus
      · exact ihleft hts
  | @enclosed d t u ts ht hu inside ih =>
      rcases List.cons_eq_append_iff.mp hts with ⟨rfl, _⟩ | ⟨front, rfl, hinside⟩
      · exact Int.le_refl 0
      rw [depth, ht, step_opening]
      rcases List.append_eq_append_iff.mp hinside with ⟨middle, rfl, hlast⟩ | ⟨middle, hmiddle, _⟩
      · rw [depth_append, inside.depth_eq]
        rcases List.singleton_eq_append_iff.mp hlast with ⟨rfl, _⟩ | ⟨rfl, _⟩
        · exact Int.zero_le_ofNat 1
        · have hlast : depth [u] = -1 := by rw [depth_singleton, hu, step_closing]
          omega
      · have hle := ih hmiddle
        omega

/-- Matched brackets close nothing that is opened before them. -/
theorem ne_closing {inner outer : List Token} {u : Token} (h : Balanced (inner ++ u :: outer))
    (hinner : Balanced inner) (d : Delimiter) : u.kind ≠ d.closingKind := by
  intro hu
  have hle : 0 ≤ depth (inner ++ [u]) := h.depth_nonneg (List.append_cons inner u outer)
  have hlast : depth [u] = -1 := by rw [depth_singleton, hu, step_closing]
  rw [depth_append, hinner.depth_eq] at hle
  omega

end Balanced

/-- The bracket at the span is the innermost one that is left open: all brackets behind it are
matched among each other, and none of them closes it. -/
def Innermost (d : Delimiter) (opening : Span) (ts : List Token) : Prop :=
  ∃ before t after, ts = before ++ t :: after ∧ t.kind = d.openingKind ∧ t.span = opening ∧
    Balanced after ∧
    ∀ inner u outer, after = inner ++ u :: outer → Balanced inner → u.kind ≠ d.closingKind

theorem Balanced.innermost {d : Delimiter} {t : Token} {ts : List Token} (h : Balanced ts)
    (ht : t.kind = d.openingKind) : Innermost d t.span (t :: ts) :=
  ⟨[], t, ts, rfl, ht, rfl, h, fun _ _ _ hts hinner => (hts ▸ h).ne_closing hinner d⟩

theorem Innermost.append {d : Delimiter} {opening : Span} {ts : List Token}
    (h : Innermost d opening ts) (us : List Token) : Innermost d opening (us ++ ts) := by
  obtain ⟨before, t, after, rfl, hopened⟩ := h
  exact ⟨us ++ before, t, after, (List.append_assoc us before _).symm, hopened⟩

end Token

open Token

/-- What derives from the grammar has matched brackets. -/
theorem Tree.Derives.balanced {p : Phrase} {ts : List Token} {trees : List Tree}
    (h : Derives p ts trees) :
    Balanced ts := by
  induction h with
  | integer ht => exact .word (by rw [ht]; rfl)
  | symbol ht => exact .word (by rw [ht]; rfl)
  | assign ht hu _ ih => exact .cons (by rw [ht]; rfl) (.cons (by rw [hu]; rfl) ih)
  | apply ht hu _ ih => exact .enclosed (d := .paren) ht hu ih
  | @lambda t params u a ts tree ht hparams hu ha _ ih =>
      have hlist : Balanced (t :: (params ++ [u])) :=
        .enclosed (d := .paren) ht hu (balanced_idents hparams)
      have hall := hlist.append (ih.cons (t := a) (by rw [ha]; rfl))
      rwa [List.cons_append, List.append_assoc] at hall
  | block ht hu _ ih => exact .enclosed (d := .brace) ht hu ih
  | noElement => exact .nil
  | element _ _ ihhead ihrest => exact .append ihhead ihrest
  | noStatement => exact .nil
  | semicolon ht _ ih => exact .cons (by rw [ht]; rfl) ih
  | statement _ _ ihhead ihrest => exact .append ihhead ihrest
  | module _ ih => exact ih

end LambdaLift
