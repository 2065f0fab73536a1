import LambdaLift.Proofs.FrontEnd
import LambdaLift.Proofs.JsonText
import LambdaLift.Tree.JsonWriter

/-!
# Trees that are read back

A tree is read back from the JSON text that is written for it as long as the text does not nest too
deeply: every level of nodes opens a brace, and inside it a brace for the span and a bracket for the
nodes of the next level.
-/

namespace LambdaLift

namespace Json

variable {α β : Type} {cs ds : List Char}

/-- The object goes on with a key `name`, whose value stands at the front of `rest`. -/
def KeyAt (first : Bool) (cs : List Char) (name : String) (rest : List Char) : Prop :=
  ∃ r hr hrest, key first cs = .ok ⟨some name, r, hr⟩ ∧ colon r = .ok ⟨(), rest, hrest⟩

/-- A member of an object as text; the value is followed by the rest of the text. -/
def member (name : String) (value : List Char) : List Char :=
  (quote name).toList ++ ':' :: ' ' :: value

theorem skipSpace_blank (cs : List Char) : skipSpace (' ' :: cs) = skipSpace cs := rfl

theorem skipSpace_blank_repr (n : Nat) (rest : List Char) :
    skipSpace (' ' :: (n.repr.toList ++ rest)) = n.repr.toList ++ rest := by
  obtain ⟨c, ds, hdigits⟩ := List.exists_cons_of_ne_nil (repr_toList_ne_nil n)
  have hc : c.isDigit := isDigit_of_mem_repr (n := n) (by simp [hdigits])
  have hspace : isSpace c = false := by
    refine Bool.eq_false_iff.mpr fun hblank => ?_
    simp only [isSpace, Bool.or_eq_true, beq_iff_eq] at hblank
    rcases hblank with ((rfl | rfl) | rfl) | rfl <;> cases hc
  rw [skipSpace_blank, hdigits, List.cons_append, skipSpace_cons hspace]

theorem skipSpace_member (name : String) (value : List Char) :
    skipSpace (member name value) = member name value := by
  rw [member, toList_quote_append]
  exact skipSpace_cons (by decide) _

theorem keyAt_member {first : Bool} {name : String} {value : List Char}
    (h : outcome (key first cs) = .ok (some name, ':' :: ' ' :: value)) :
    KeyAt first cs name (' ' :: value) := by
  have hcolon : outcome (colon (':' :: ' ' :: value)) = .ok ((), ' ' :: value) :=
    colon_of_skipSpace (skipSpace_cons (by decide) _)
  obtain ⟨hr, hkey⟩ := outcome_eq_ok_iff.mp h
  obtain ⟨hrest, hcolon⟩ := outcome_eq_ok_iff.mp hcolon
  exact ⟨_, hr, hrest, hkey, hcolon⟩

/-- What is read behind a value depends on the value and on the text that it left. -/
theorem outcome_bind (x : Except Fault (Parsed β ds))
    (next : β → (rest : List Char) → Except Fault (Parsed α rest))
    (hlt : ∀ p : Parsed β ds, p.rest.length < cs.length) :
    outcome (x >>= fun p => next p.value p.rest >>= fun q => pure (q.ofShorter (hlt p))) =
      outcome x >>= fun p => outcome (next p.1 p.2) := by
  cases x with
  | error e => rfl
  | ok p => exact outcome_ofShorter _ _

end Json

namespace Tree

open Json

mutual

/-- The number of nodes on the longest way from the root of a tree down to a leaf, both counted. -/
def levels : Tree → Nat
  | ⟨_, _, _, children⟩ => 1 + levelsAll children

/-- The levels of the highest one of some trees. -/
def levelsAll : List Tree → Nat
  | [] => 0
  | t :: ts => max (levels t) (levelsAll ts)

end

theorem toList_newline (level : Nat) :
    (newline level).toList = '\n' :: List.replicate (2 * level) ' ' := by
  simp [newline]

theorem skipSpace_newline (level : Nat) (rest : List Char) :
    skipSpace ((newline level).toList ++ rest) = skipSpace rest := by
  refine skipSpace_append ?_ rest
  intro c hc
  rw [toList_newline, List.mem_cons] at hc
  rcases hc with rfl | hc
  · rfl
  · rw [List.eq_of_mem_replicate hc]
    rfl

theorem keyAt_first (level : Nat) (name : String) (value : List Char) :
    KeyAt true ((newline level).toList ++ member name value) name (' ' :: value) :=
  keyAt_member (key_first (by rw [skipSpace_newline, skipSpace_member, member]))

theorem keyAt_next (level : Nat) (name : String) (value : List Char) :
    KeyAt false (',' :: ((newline level).toList ++ member name value)) name (' ' :: value) :=
  keyAt_member (key_next (skipSpace_cons (by decide) _)
    (by rw [skipSpace_newline, skipSpace_member, member]))

section Span

variable {first : Bool} {cs r rest : List Char}

theorem spanMembers_start {stop : Option UInt32} (hkey : KeyAt first cs "start" r) :
    outcome (spanMembers none stop first cs) =
      outcome (offset r) >>= fun p => outcome (spanMembers (some p.1) stop false p.2) := by
  obtain ⟨_, _, _, hkey, hcolon⟩ := hkey
  rw [spanMembers, hkey]
  dsimp only [bind, Except.bind]
  rw [if_pos rfl, if_neg (by simp), hcolon]
  exact outcome_bind (offset r) (fun v rest => spanMembers (some v) stop false rest) _

theorem spanMembers_end {start : Option UInt32} (hkey : KeyAt first cs "end" r) :
    outcome (spanMembers start none first cs) =
      outcome (offset r) >>= fun p => outcome (spanMembers start (some p.1) false p.2) := by
  obtain ⟨_, _, _, hkey, hcolon⟩ := hkey
  rw [spanMembers, hkey]
  dsimp only [bind, Except.bind]
  rw [if_neg (by decide), if_pos rfl, if_neg (by simp), hcolon]
  exact outcome_bind (offset r) (fun v rest => spanMembers start (some v) false rest) _

theorem spanMembers_close {start stop : UInt32} (hkey : outcome (key first cs) = .ok (none, rest)) :
    outcome (spanMembers (some start) (some stop) first cs) = .ok (⟨start, stop⟩, rest) := by
  obtain ⟨_, hkey⟩ := outcome_eq_ok_iff.mp hkey
  rw [spanMembers, hkey]
  rfl

theorem readSpan_object {depth : Nat} (h : skipSpace cs = '{' :: r) :
    outcome (readSpan depth cs) = descend depth >>= fun _ =>
      outcome (spanMembers none none true r) := by
  unfold readSpan
  split
  · next hnil => cases h.symm.trans hnil
  · next c r hcons =>
      obtain ⟨rfl, rfl⟩ := List.cons.inj (h.symm.trans hcons)
      rw [if_neg (by decide), if_pos rfl]
      cases descend depth with
      | error e => rfl
      | ok inner => exact outcome_ofShorter _ _

theorem toList_spanToJson (level : Nat) (s : Span) (rest : List Char) :
    (spanToJson level s).toList ++ rest =
      '{' :: ((newline (level + 1)).toList ++ member "start" (s.start.toNat.repr.toList ++
        ',' :: ((newline (level + 1)).toList ++ member "end" (s.stop.toNat.repr.toList ++
          ((newline level).toList ++ '}' :: rest))))) := by
  have hstart : "\"start\": ".toList = (quote "start").toList ++ [':', ' '] := by decide +kernel
  have hend : "\"end\": ".toList = (quote "end").toList ++ [':', ' '] := by decide +kernel
  have hopen : r"{".toList = ['{'] := rfl
  have hclose : r"}".toList = ['}'] := rfl
  have hcomma : ",".toList = [','] := rfl
  have hdigits : ∀ n : Nat, toString n = n.repr := fun _ => rfl
  simp only [spanToJson, String.toList_append, hstart, hend, hopen, hclose, hcomma, hdigits, member,
    List.append_assoc, List.cons_append, List.nil_append]

/-- A span is read back, unless its brace is one too many. -/
theorem readSpan_spanToJson {level depth : Nat} {s : Span}
    (h : skipSpace cs = (spanToJson level s).toList ++ rest) :
    outcome (readSpan depth cs) = descend depth >>= fun _ => .ok (s, rest) := by
  have hcomma : ∀ r, EndsNumber (',' :: r) := fun r c hc => by cases hc; decide
  have hnewline : ∀ r, EndsNumber ((newline level).toList ++ r) := by
    intro r c hc
    rw [toList_newline] at hc
    cases hc
    decide
  have hclose : skipSpace ((newline level).toList ++ '}' :: rest) = '}' :: rest := by
    rw [skipSpace_newline, skipSpace_cons (by decide)]
  rw [toList_spanToJson] at h
  rw [readSpan_object h, spanMembers_start (keyAt_first _ _ _),
    offset_repr (skipSpace_blank_repr _ _) (hcomma _)]
  change (descend depth >>= fun _ => outcome (spanMembers (some s.start) none false _)) = _
  rw [spanMembers_end (keyAt_next _ _ _), offset_repr (skipSpace_blank_repr _ _) (hnewline _)]
  change (descend depth >>= fun _ => outcome (spanMembers (some s.start) (some s.stop) false _)) = _
  rw [spanMembers_close (key_close false hclose)]

end Span

section Node

variable {depth : Nat} {m : Members} {first : Bool} {cs r rest : List Char}

theorem nodeMembers_kind (hkey : KeyAt first cs "kind" r) (hnew : m.kind = none) :
    outcome (nodeMembers depth m first cs) =
      outcome (string r) >>= fun p =>
        outcome (nodeMembers depth { m with kind := p.1 } false p.2) := by
  obtain ⟨_, _, _, hkey, hcolon⟩ := hkey
  rw [nodeMembers, hkey]
  dsimp only [bind, Except.bind]
  rw [if_pos rfl, if_neg (by simp [hnew]), hcolon]
  exact outcome_bind (string r) (fun v rest => nodeMembers depth { m with kind := v } false rest) _

theorem nodeMembers_text (hkey : KeyAt first cs "text" r) (hnew : m.text = none) :
    outcome (nodeMembers depth m first cs) =
      outcome (string r) >>= fun p =>
        outcome (nodeMembers depth { m with text := p.1 } false p.2) := by
  obtain ⟨_, _, _, hkey, hcolon⟩ := hkey
  rw [nodeMembers, hkey]
  dsimp only [bind, Except.bind]
  rw [if_neg (by decide), if_pos rfl, if_neg (by simp [hnew]), hcolon]
  exact outcome_bind (string r) (fun v rest => nodeMembers depth { m with text := v } false rest) _

theorem nodeMembers_span (hkey : KeyAt first cs "span" r) (hnew : m.span = none) :
    outcome (nodeMembers depth m first cs) =
      outcome (readSpan depth r) >>= fun p =>
        outcome (nodeMembers depth { m with span := p.1 } false p.2) := by
  obtain ⟨_, _, _, hkey, hcolon⟩ := hkey
  rw [nodeMembers, hkey]
  dsimp only [bind, Except.bind]
  rw [if_neg (by decide), if_neg (by decide), if_pos rfl, if_neg (by simp [hnew]), hcolon]
  exact outcome_bind (readSpan depth r)
    (fun v rest => nodeMembers depth { m with span := v } false rest) _

theorem nodeMembers_children (hkey : KeyAt first cs "children" r) (hnew : m.children = none) :
    outcome (nodeMembers depth m first cs) =
      outcome (readChildren depth r) >>= fun p =>
        outcome (nodeMembers depth { m with children := p.1 } false p.2) := by
  obtain ⟨_, _, _, hkey, hcolon⟩ := hkey
  rw [nodeMembers, hkey]
  dsimp only [bind, Except.bind]
  rw [if_neg (by decide), if_neg (by decide), if_neg (by decide),
    if_pos rfl, if_neg (by simp [hnew]), hcolon]
  exact outcome_bind (readChildren depth r)
    (fun v rest => nodeMembers depth { m with children := v } false rest) _

theorem nodeMembers_close (hkey : outcome (key first cs) = .ok (none, rest)) :
    outcome (nodeMembers depth m first cs) = m.toTree >>= fun tree => .ok (tree, rest) := by
  obtain ⟨_, hkey⟩ := outcome_eq_ok_iff.mp hkey
  rw [nodeMembers, hkey]
  cases m.toTree with
  | error e => rfl
  | ok tree => rfl

theorem readNode_object (h : skipSpace cs = '{' :: r) :
    outcome (readNode depth cs) = descend depth >>= fun inner =>
      outcome (nodeMembers inner {} true r) := by
  unfold readNode
  split
  · next hnil => cases h.symm.trans hnil
  · next c r hcons =>
      obtain ⟨rfl, rfl⟩ := List.cons.inj (h.symm.trans hcons)
      rw [if_neg (by decide), if_pos rfl]
      cases descend depth with
      | error e => rfl
      | ok inner => exact outcome_ofShorter _ _

theorem readChildren_array (h : skipSpace cs = '[' :: r) :
    outcome (readChildren depth cs) = descend depth >>= fun inner =>
      outcome (childItems inner true r) := by
  unfold readChildren
  split
  · next hnil => cases h.symm.trans hnil
  · next c r hcons =>
      obtain ⟨rfl, rfl⟩ := List.cons.inj (h.symm.trans hcons)
      rw [if_pos rfl]
      cases descend depth with
      | error e => rfl
      | ok inner => exact outcome_ofShorter _ _

theorem childItems_close (h : skipSpace cs = ']' :: rest) :
    outcome (childItems depth first cs) = .ok ([], rest) := by
  obtain ⟨_, hslot⟩ := slot_close first h
  rw [childItems, hslot]
  rfl

theorem childItems_item (h : ∃ hle, slot first cs = .ok (.item r hle)) :
    outcome (childItems depth first cs) =
      outcome (readNode depth r) >>= fun p =>
        (outcome (childItems depth false p.2)).map fun q => (p.1 :: q.1, q.2) := by
  obtain ⟨_, hslot⟩ := h
  rw [childItems, hslot]
  dsimp only [bind, Except.bind]
  cases readNode depth r with
  | error e => rfl
  | ok p =>
      dsimp only [outcome, Except.map]
      cases childItems depth false p.rest with
      | error e => rfl
      | ok q => rfl

theorem toJsonAt_mk (level : Nat) (kind text : String) (span : Span) (children : List Tree) :
    toJsonAt level ⟨kind, text, span, children⟩ =
      r"{" ++ newline (level + 1) ++ "\"kind\": " ++ quote kind ++ "," ++
        newline (level + 1) ++ "\"text\": " ++ quote text ++ "," ++
        newline (level + 1) ++ "\"span\": " ++ spanToJson (level + 1) span ++ "," ++
        newline (level + 1) ++ "\"children\": " ++ childrenToJson (level + 1) children ++
        newline level ++ r"}" := rfl

theorem toList_toJsonAt (level : Nat) (kind text : String) (span : Span) (children : List Tree)
    (rest : List Char) :
    (toJsonAt level ⟨kind, text, span, children⟩).toList ++ rest =
      '{' :: ((newline (level + 1)).toList ++ member "kind" ((quote kind).toList ++
        ',' :: ((newline (level + 1)).toList ++ member "text" ((quote text).toList ++
        ',' :: ((newline (level + 1)).toList ++
          member "span" ((spanToJson (level + 1) span).toList ++
        ',' :: ((newline (level + 1)).toList ++ member "children"
          ((childrenToJson (level + 1) children).toList ++
            ((newline level).toList ++ '}' :: rest))))))))) := by
  have hkind : "\"kind\": ".toList = (quote "kind").toList ++ [':', ' '] := by decide +kernel
  have htext : "\"text\": ".toList = (quote "text").toList ++ [':', ' '] := by decide +kernel
  have hspan : "\"span\": ".toList = (quote "span").toList ++ [':', ' '] := by decide +kernel
  have hchildren : "\"children\": ".toList = (quote "children").toList ++ [':', ' '] := by
    decide +kernel
  have hopen : r"{".toList = ['{'] := rfl
  have hclose : r"}".toList = ['}'] := rfl
  have hcomma : ",".toList = [','] := rfl
  simp only [toJsonAt_mk, String.toList_append, hkind, htext, hspan, hchildren, hopen, hclose,
    hcomma, member, List.append_assoc, List.cons_append, List.nil_append]

theorem skipSpace_blank_quote (text : String) (rest : List Char) :
    skipSpace (' ' :: ((quote text).toList ++ rest)) = (quote text).toList ++ rest := by
  rw [toList_quote_append]
  rfl

theorem exists_toList_toJsonAt (level : Nat) (t : Tree) (rest : List Char) :
    ∃ r, (toJsonAt level t).toList ++ rest = '{' :: r := by
  obtain ⟨kind, text, span, children⟩ := t
  exact ⟨_, toList_toJsonAt level kind text span children rest⟩

theorem skipSpace_toJsonAt (level : Nat) (t : Tree) (rest : List Char) :
    skipSpace ((toJsonAt level t).toList ++ rest) = (toJsonAt level t).toList ++ rest := by
  obtain ⟨r, hr⟩ := exists_toList_toJsonAt level t rest
  rw [hr]
  exact skipSpace_cons (by decide) r

theorem slot_first_toJsonAt {level : Nat} {t : Tree}
    (h : skipSpace cs = (toJsonAt level t).toList ++ rest) :
    ∃ hle, slot true cs = .ok (.item ((toJsonAt level t).toList ++ rest) hle) := by
  obtain ⟨r, hr⟩ := exists_toList_toJsonAt level t rest
  rw [hr] at h ⊢
  exact slot_first h (by decide)

theorem slot_next_toJsonAt {level : Nat} {t : Tree} (h : skipSpace cs = ',' :: r)
    (h' : skipSpace r = (toJsonAt level t).toList ++ rest) :
    ∃ hle, slot false cs = .ok (.item ((toJsonAt level t).toList ++ rest) hle) := by
  obtain ⟨r', hr⟩ := exists_toList_toJsonAt level t rest
  rw [hr] at h' ⊢
  exact slot_next h h' (by decide)

theorem skipSpace_blank_span (level : Nat) (span : Span) (rest : List Char) :
    skipSpace (' ' :: ((spanToJson level span).toList ++ rest)) = (spanToJson level span).toList ++
      rest := by
  rw [toList_spanToJson]
  rfl

theorem childItems_cons {t : Tree} {ts : List Tree} {r' : List Char}
    (hslot : ∃ hle, slot first cs = .ok (.item r hle))
    (hnode : outcome (readNode depth r) = if 2 * t.levels ≤ depth then .ok (t, r')
      else .error .malformed)
    (hothers : outcome (childItems depth false r') =
      if 2 * levelsAll ts ≤ depth then .ok (ts, rest) else .error .malformed) :
    outcome (childItems depth first cs) =
      if 2 * levelsAll (t :: ts) ≤ depth then .ok (t :: ts, rest) else .error .malformed := by
  rw [childItems_item hslot, hnode, levelsAll]
  by_cases ht : 2 * t.levels ≤ depth
  · rw [if_pos ht]
    change (outcome (childItems depth false r')).map _ = _
    rw [hothers]
    by_cases hts : 2 * levelsAll ts ≤ depth
    · rw [if_pos hts, if_pos (by omega)]
      rfl
    · rw [if_neg hts, if_neg (by omega)]
      rfl
  · rw [if_neg ht, if_neg (by omega)]
    rfl

theorem toList_childrenToJson_nil (level : Nat) (rest : List Char) :
    (childrenToJson level []).toList ++ rest = '[' :: ']' :: rest := by
  have hempty : "[]".toList = ['[', ']'] := rfl
  rw [childrenToJson, hempty, List.cons_append, List.singleton_append]

theorem toList_childrenToJson_cons (level : Nat) (t : Tree) (ts : List Tree) (rest : List Char) :
    (childrenToJson level (t :: ts)).toList ++ rest =
      '[' :: ((newline (level + 1)).toList ++
        ((toJsonAt (level + 1) t).toList ++ ((othersToJson level ts).toList ++ rest))) := by
  have hopen : "[".toList = ['['] := rfl
  simp only [childrenToJson, String.toList_append, hopen, List.append_assoc, List.cons_append,
    List.nil_append]

theorem toList_othersToJson_nil (level : Nat) (rest : List Char) :
    (othersToJson level []).toList ++ rest = (newline level).toList ++ ']' :: rest := by
  have hclose : "]".toList = [']'] := rfl
  simp only [othersToJson, String.toList_append, hclose, List.append_assoc, List.cons_append,
    List.nil_append]

theorem toList_othersToJson_cons (level : Nat) (t : Tree) (ts : List Tree) (rest : List Char) :
    (othersToJson level (t :: ts)).toList ++ rest =
      ',' :: ((newline (level + 1)).toList ++
        ((toJsonAt (level + 1) t).toList ++ ((othersToJson level ts).toList ++ rest))) := by
  have hcomma : ",".toList = [','] := rfl
  simp only [othersToJson, String.toList_append, hcomma, List.append_assoc, List.cons_append,
    List.nil_append]

theorem exists_toList_childrenToJson (level : Nat) (ts : List Tree) (rest : List Char) :
    ∃ r, (childrenToJson level ts).toList ++ rest = '[' :: r := by
  cases ts with
  | nil => exact ⟨_, toList_childrenToJson_nil level rest⟩
  | cons t ts => exact ⟨_, toList_childrenToJson_cons level t ts rest⟩

theorem skipSpace_blank_children (level : Nat) (ts : List Tree) (rest : List Char) :
    skipSpace (' ' :: ((childrenToJson level ts).toList ++ rest)) =
      (childrenToJson level ts).toList ++ rest := by
  obtain ⟨r, hr⟩ := exists_toList_childrenToJson level ts rest
  rw [hr]
  rfl

mutual

/-- A node is read back if two brackets may be opened for each of its levels, and otherwise
refused. -/
theorem readNode_toJsonAt (level : Nat) {depth : Nat} {cs rest : List Char} :
    ∀ t : Tree, skipSpace cs = (toJsonAt level t).toList ++ rest →
      outcome (readNode depth cs) =
        if 2 * t.levels ≤ depth then .ok (t, rest) else .error .malformed
  | ⟨kind, text, span, children⟩ => by
    intro h
    rw [toList_toJsonAt] at h
    rw [readNode_object h, levels]
    -- The node's own brace or the span's may be one too many. The bracket around the nodes of the
    -- next level
    -- stands as deep as the span's brace, so what is refused behind the span is one of those nodes.
    cases depth with
    | zero => exact (if_neg (by omega)).symm
    | succ inner =>
        change outcome (nodeMembers inner {} true _) = _
        rw [nodeMembers_kind (keyAt_first _ _ _) rfl, string_quote (skipSpace_blank_quote _ _)]
        change outcome (nodeMembers inner { kind := kind } false _) = _
        rw [nodeMembers_text (keyAt_next _ _ _) rfl, string_quote (skipSpace_blank_quote _ _)]
        change outcome (nodeMembers inner { kind := kind, text := text } false _) = _
        rw [nodeMembers_span (keyAt_next _ _ _) rfl,
          readSpan_spanToJson (skipSpace_blank_span _ _ _)]
        cases inner with
        | zero => exact (if_neg (by omega)).symm
        | succ inner =>
            change outcome
              (nodeMembers (inner + 1) { kind := kind, text := text, span := span } false _) = _
            rw [nodeMembers_children (keyAt_next _ _ _) rfl,
              readChildren_childrenToJson (level + 1) children (skipSpace_blank_children _ _ _)]
            by_cases hfits : 2 * levelsAll children ≤ inner
            · rw [if_pos hfits, if_pos (by omega)]
              change outcome (nodeMembers (inner + 1) ⟨kind, text, span, children⟩ false _) = _
              rw [nodeMembers_close (key_close false
                (by rw [skipSpace_newline, skipSpace_cons (by decide)]))]
              rfl
            · rw [if_neg hfits, if_neg (by omega)]
              rfl

theorem readChildren_childrenToJson (level : Nat) {depth : Nat} {cs rest : List Char} :
    ∀ ts : List Tree, skipSpace cs = (childrenToJson level ts).toList ++ rest →
      outcome (readChildren (depth + 1) cs) =
        if 2 * levelsAll ts ≤ depth then .ok (ts, rest) else .error .malformed
  | [] => by
    intro h
    have hclose : skipSpace (']' :: rest) = ']' :: rest := skipSpace_cons (by decide) rest
    rw [toList_childrenToJson_nil] at h
    rw [readChildren_array h]
    change outcome (childItems depth true (']' :: rest)) = _
    rw [childItems_close hclose, levelsAll, if_pos (Nat.zero_le _)]
  | t :: ts => by
    intro h
    rw [toList_childrenToJson_cons] at h
    rw [readChildren_array h]
    change outcome (childItems depth true _) = _
    exact childItems_cons (slot_first_toJsonAt (by rw [skipSpace_newline, skipSpace_toJsonAt]))
      (readNode_toJsonAt (level + 1) t (skipSpace_toJsonAt _ _ _))
      (childItems_othersToJson level ts)

theorem childItems_othersToJson (level : Nat) {depth : Nat} {rest : List Char} :
    ∀ ts : List Tree, outcome (childItems depth false ((othersToJson level ts).toList ++ rest)) =
      if 2 * levelsAll ts ≤ depth then .ok (ts, rest) else .error .malformed
  | [] => by
    rw [toList_othersToJson_nil, levelsAll, if_pos (Nat.zero_le _)]
    exact childItems_close (by rw [skipSpace_newline, skipSpace_cons (by decide)])
  | t :: ts => by
    rw [toList_othersToJson_cons]
    refine childItems_cons (slot_next_toJsonAt (skipSpace_cons (by decide) _) ?_)
      (readNode_toJsonAt (level + 1) t (skipSpace_toJsonAt _ _ _))
      (childItems_othersToJson level ts)
    rw [skipSpace_newline, skipSpace_toJsonAt]

end

end Node

/-- A tree's JSON text is read as the tree, unless its brackets nest too deeply. -/
theorem ofJson_toJson (t : Tree) :
    ofJson t.toJson = if 2 * t.levels ≤ maxNesting then .ok t else .error .malformed := by
  have hread : outcome (readNode maxNesting t.toJson.toList) =
      if 2 * t.levels ≤ maxNesting then .ok (t, []) else .error .malformed :=
    readNode_toJsonAt 0 t (by simpa [toJson] using skipSpace_toJsonAt 0 t [])
  rw [ofJson]
  split at hread
  · next hfits =>
      obtain ⟨_, hread⟩ := outcome_eq_ok_iff.mp hread
      rw [hread, if_pos hfits]
      rfl
  · next hdeep =>
      rw [outcome_eq_error_iff.mp hread, if_neg hdeep]
      rfl

/-- JSON texts of trees hold what the trees hold as long as there are at most 63 levels, and are
refused beyond that; so a text can be compiled from its tree as well. -/
theorem toJson_round_trip (t : Tree) :
    (t.levels ≤ 63 → ofJson t.toJson = .ok t) ∧
      (63 < t.levels → ofJson t.toJson = .error .malformed) ∧
      ∀ source, Tree.ofSource source = .ok t → t.levels ≤ 63 → ∀ name options,
        compile .jsonTree name t.toJson options = compile .text name source options := by
  have hlimit : 2 * t.levels ≤ maxNesting ↔ t.levels ≤ 63 := by rw [maxNesting]; omega
  have hread := ofJson_toJson t
  refine ⟨fun hfits => ?_, fun hdeep => ?_, fun source hsource hfits name options => ?_⟩
  · rw [hread, if_pos (hlimit.mpr hfits)]
  · rw [hread, if_neg (mt hlimit.mp (by omega))]
  · rw [if_pos (hlimit.mpr hfits)] at hread
    rw [compile, compile, Module.ofSource_jsonTree hread, Module.ofSource_text hsource]

/-- A tree of `n + 1` levels, one node on each, with texts and spans that are hard to write. -/
def tower : Nat → Tree
  | 0 => leaf "a\"\\\n\x01é" "𝔸" ⟨0, 4294967295⟩
  | n + 1 => ⟨"", "\x1f/", ⟨10, 7⟩, [tower n]⟩

theorem levels_tower (n : Nat) : (tower n).levels = n + 1 := by
  induction n with
  | zero => rfl
  | succ n ih => rw [tower, levels, levelsAll, levelsAll, ih]; omega

theorem toJson_round_trip_tower :
    ofJson (tower 62).toJson = .ok (tower 62) ∧ ofJson (tower 63).toJson = .error .malformed ∧
      ∃ t, Tree.ofSource "f = (x) => {(f x) 7}" = .ok t ∧ ∀ name options,
        compile .jsonTree name t.toJson options =
          compile .text name "f = (x) => {(f x) 7}" options := by
  obtain ⟨t, ht⟩ :=
    exists_eq_ok_of_isOk (x := Tree.ofSource "f = (x) => {(f x) 7}") (by decide +kernel)
  have hlevels : (Tree.ofSource "f = (x) => {(f x) 7}").toOption.map levels = some 6 := by
    decide +kernel
  rw [ht] at hlevels
  have hsix : t.levels = 6 := Option.some.inj hlevels
  have hhigh : (tower 62).levels = 63 := levels_tower 62
  have htooHigh : (tower 63).levels = 64 := levels_tower 63
  exact ⟨(toJson_round_trip _).1 (by omega), (toJson_round_trip _).2.1 (by omega), t, ht,
    (toJson_round_trip t).2.2 _ ht (by omega)⟩

end Tree

end LambdaLift
