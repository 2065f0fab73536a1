import LambdaLift.EditDistance

/-!
# Edit scripts

The edit distance is the least number of single-character edits that turn one text into another.
`least` is the distance by recursion on both texts. No sequence of edits is shorter, since one edit
changes it by one at most, and some sequence is as long. The rows of the computation hold its values
for the initial parts of the target.

Two rows that are written in turn, cell by cell, are enough to compute the distance. No cell is read
or written that a row does not have, and none is read before it is written for the character at
hand.
-/

namespace LambdaLift.EditDistance

/-- One character is inserted, deleted or replaced by another. -/
inductive Edit : List Char → List Char → Prop
  | insertion (front : List Char) (c : Char) (back : List Char) :
    Edit (front ++ back) (front ++ c :: back)
  | deletion (front : List Char) (c : Char) (back : List Char) :
    Edit (front ++ c :: back) (front ++ back)
  | substitution (front : List Char) (c d : Char) (back : List Char) :
    Edit (front ++ c :: back) (front ++ d :: back)

/-- `EditedIn n a b`: edits, `n` in number and one after another, turn `a` into `b`. -/
inductive EditedIn : Nat → List Char → List Char → Prop
  | unchanged (a : List Char) : EditedIn 0 a a
  | edit {n : Nat} {a b c : List Char} (head : Edit a b) (tail : EditedIn n b c) :
    EditedIn (n + 1) a c

/-- The edit distance between two texts, by what becomes of their first characters. -/
def least : List Char → List Char → Nat
  | [], b => b.length
  | c :: a, [] => (c :: a).length
  | c :: a, d :: b =>
    min (min (least a (d :: b) + 1) (least (c :: a) b + 1)) (least a b + if c = d then 0 else 1)
termination_by a b => a.length + b.length

section Least

theorem least_nil_left (b : List Char) : least [] b = b.length := by
  rw [least]

theorem least_nil_right (a : List Char) : least a [] = a.length := by
  cases a with
  | nil => exact least_nil_left []
  | cons c a => rw [least]

theorem least_cons_cons (c d : Char) (a b : List Char) :
    least (c :: a) (d :: b) =
      min (min (least a (d :: b) + 1) (least (c :: a) b + 1))
        (least a b + if c = d then 0 else 1) := by
  rw [least]

theorem least_self (a : List Char) : least a a = 0 := by
  induction a with
  | nil => exact least_nil_left []
  | cons c a ih =>
      rw [least_cons_cons, ih, if_pos rfl]
      omega

/-- Deleting the first character costs one edit at most. -/
theorem least_cons_le (c : Char) (a b : List Char) : least (c :: a) b ≤ least a b + 1 := by
  cases b with
  | nil => simp [least_nil_right]
  | cons d b =>
      rw [least_cons_cons]
      omega

/-- Inserting a first character costs one edit at most. -/
theorem least_le_cons (c : Char) (a b : List Char) : least a b ≤ least (c :: a) b + 1 := by
  induction b generalizing a with
  | nil =>
      simp only [least_nil_right, List.length_cons]
      omega
  | cons d b ih =>
      have hinsert : least a (d :: b) ≤ least a b + 1 := by
        cases a with
        | nil => simp [least_nil_left]
        | cons c' a =>
            rw [least_cons_cons]
            omega
      have hb := ih a
      rw [least_cons_cons]
      omega

/-- Replacing the first character costs one edit at most. -/
theorem least_cons_le_cons (c c' : Char) (a b : List Char) :
    least (c :: a) b ≤ least (c' :: a) b + 1 := by
  induction b with
  | nil => simp [least_nil_right]
  | cons d b ih =>
      rw [least_cons_cons c, least_cons_cons c']
      split <;> omega

/-- What one edit costs does not depend on how many characters stand before it. -/
theorem least_append_le {a a' : List Char} (h : ∀ b, least a b ≤ least a' b + 1)
    (front b : List Char) :
    least (front ++ a) b ≤ least (front ++ a') b + 1 := by
  induction front generalizing b with
  | nil => exact h b
  | cons c front ih =>
      rw [List.cons_append, List.cons_append]
      induction b with
      | nil =>
          have hnil := ih []
          simp only [least_nil_right, List.length_cons] at hnil ⊢
          omega
      | cons d b ihb =>
          have hcons := ih (d :: b)
          have htail := ih b
          rw [least_cons_cons c, least_cons_cons c]
          omega

theorem Edit.least_le {a a' : List Char} (h : Edit a a') (b : List Char) :
    least a b ≤ least a' b + 1 := by
  cases h with
  | insertion front c back => exact least_append_le (least_le_cons c back) front b
  | deletion front c back => exact least_append_le (least_cons_le c back) front b
  | substitution front c d back => exact least_append_le (least_cons_le_cons c d back) front b

/-- No sequence of edits is shorter than the distance. -/
theorem EditedIn.least_le {n : Nat} {a b : List Char} (h : EditedIn n a b) : least a b ≤ n := by
  induction h with
  | unchanged a => exact Nat.le_of_eq (least_self a)
  | @edit n a b c head _ ih =>
      have hstep := head.least_le c
      omega

end Least

section Scripts

variable {n : Nat} {a b : List Char}

theorem Edit.cons (h : Edit a b) (c : Char) : Edit (c :: a) (c :: b) := by
  cases h with
  | insertion front d back => exact .insertion (c :: front) d back
  | deletion front d back => exact .deletion (c :: front) d back
  | substitution front d d' back => exact .substitution (c :: front) d d' back

theorem EditedIn.cons (h : EditedIn n a b) (c : Char) : EditedIn n (c :: a) (c :: b) := by
  induction h with
  | unchanged a => exact .unchanged (c :: a)
  | edit head _ ih => exact .edit (head.cons c) ih

theorem Edit.reverse (h : Edit a b) : Edit a.reverse b.reverse := by
  cases h with
  | insertion front c back => simpa using Edit.insertion back.reverse c front.reverse
  | deletion front c back => simpa using Edit.deletion back.reverse c front.reverse
  | substitution front c d back => simpa using Edit.substitution back.reverse c d front.reverse

theorem EditedIn.reverse (h : EditedIn n a b) : EditedIn n a.reverse b.reverse := by
  induction h with
  | unchanged a => exact .unchanged a.reverse
  | edit head _ ih => exact .edit head.reverse ih

theorem editedIn_reverse_iff : EditedIn n a.reverse b.reverse ↔ EditedIn n a b := by
  constructor
  · intro h
    simpa using h.reverse
  · exact EditedIn.reverse

/-- Some sequence of edits is as long as the distance. -/
theorem editedIn_least (a b : List Char) : EditedIn (least a b) a b := by
  fun_induction least a b with
  | case1 b =>
      induction b with
      | nil => exact .unchanged []
      | cons d b ih => exact .edit (.insertion [] d []) (ih.cons d)
  | case2 c a =>
      induction a generalizing c with
      | nil => exact .edit (.deletion [] c []) (.unchanged [])
      | cons c' a ih => exact .edit (.deletion [] c (c' :: a)) (ih c')
  | case3 c a d b ihdelete ihinsert ihkeep =>
      -- The smallest of the three numbers says what becomes of the first characters.
      have hdelete : EditedIn (least a (d :: b) + 1) (c :: a) (d :: b) :=
        .edit (.deletion [] c a) ihdelete
      have hinsert : EditedIn (least (c :: a) b + 1) (c :: a) (d :: b) :=
        .edit (.insertion [] d (c :: a)) (ihinsert.cons d)
      have hkeep : EditedIn (least a b + if c = d then 0 else 1) (c :: a) (d :: b) := by
        split
        · rename_i hcd
          subst hcd
          exact ihkeep.cons c
        · exact .edit (.substitution [] c d a) (ihkeep.cons d)
      rcases Nat.le_total (min (least a (d :: b) + 1) (least (c :: a) b + 1))
        (least a b + if c = d then 0 else 1) with hle | hle
      · rw [Nat.min_eq_left hle]
        rcases Nat.le_total (least a (d :: b) + 1) (least (c :: a) b + 1) with hle | hle
        · rwa [Nat.min_eq_left hle]
        · rwa [Nat.min_eq_right hle]
      · rwa [Nat.min_eq_right hle]

end Scripts

section Rows

/-- The distances from a part of the source to an initial part of the target and to all longer ones.
Both parts are read backwards: `read` is that of the source, `passed` that of the target, and
`ahead` follows it. -/
def distances (read passed : List Char) : List Char → List Nat
  | [] => [least read passed]
  | d :: ahead => least read passed :: distances read (d :: passed) ahead

theorem exists_distances_eq (read passed ahead : List Char) :
    ∃ others, distances read passed ahead = least read passed :: others := by
  cases ahead with
  | nil => exact ⟨[], rfl⟩
  | cons d ahead => exact ⟨distances read (d :: passed) ahead, rfl⟩

theorem length_distances (read passed ahead : List Char) :
    (distances read passed ahead).length = ahead.length + 1 := by
  induction ahead generalizing passed with
  | nil => rfl
  | cons d ahead ih => rw [distances, List.length_cons, ih, List.length_cons]

theorem distances_nil (passed ahead : List Char) :
    distances [] passed ahead = List.range' passed.length (ahead.length + 1) := by
  induction ahead generalizing passed with
  | nil => simp [distances, least_nil_left]
  | cons d ahead ih =>
      rw [distances, ih, least_nil_left, List.length_cons, List.length_cons, ← List.range'_succ]

theorem getLast?_distances (read passed ahead : List Char) :
    (distances read passed ahead).getLast? = some (least read (ahead.reverse ++ passed)) := by
  induction ahead generalizing passed with
  | nil => rfl
  | cons d ahead ih =>
      rw [distances, List.getLast?_cons, ih]
      simp

/-- From one row of distances, the next one is computed. -/
theorem extendRow_distances (c : Char) (read passed ahead : List Char) :
    least (c :: read) passed :: extendRow c ahead (distances read passed ahead)
        (least (c :: read) passed) =
      distances (c :: read) passed ahead := by
  induction ahead generalizing passed with
  | nil => rfl
  | cons d ahead ih =>
      obtain ⟨others, hothers⟩ := exists_distances_eq read (d :: passed) ahead
      have hrow := ih (d :: passed)
      rw [hothers] at hrow
      rw [distances, distances, hothers, extendRow, ← least_cons_cons, hrow]

theorem nextRow_distances (c : Char) (read target : List Char) :
    nextRow target (distances read [] target) c = distances (c :: read) [] target := by
  obtain ⟨others, hothers⟩ := exists_distances_eq read [] target
  have hfirst : least read [] + 1 = least (c :: read) [] := by
    rw [least_nil_right, least_nil_right, List.length_cons]
  calc
    nextRow target (distances read [] target) c =
        (least read [] + 1) :: extendRow c target (distances read [] target)
          (least read [] + 1) := by
      rw [hothers]
      rfl
    _ = distances (c :: read) [] target := by
      rw [hfirst]
      exact extendRow_distances c read [] target

theorem foldl_nextRow_distances (source read target : List Char) :
    source.foldl (nextRow target) (distances read [] target) =
      distances (source.reverse ++ read) [] target := by
  induction source generalizing read with
  | nil => rfl
  | cons c source ih =>
      rw [List.foldl_cons, nextRow_distances, ih]
      simp

theorem lastRow_eq_distances (source target : List Char) :
    lastRow source target = distances source.reverse [] target := by
  have hstart : List.range (target.length + 1) = distances [] [] target := by
    rw [distances_nil, List.range_eq_range', List.length_nil]
  rw [lastRow, hstart, foldl_nextRow_distances, List.append_nil]

theorem distance_eq_least (source target : String) :
    distance source target = least source.toList.reverse target.toList.reverse := by
  rw [distance, lastRow_eq_distances, getLast?_distances, List.append_nil]
  rfl

end Rows

section TwoRows

/-- The row with one cell changed, if it has that cell. -/
def write? (row : List Nat) (i entry : Nat) : Option (List Nat) :=
  if i < row.length then some (row.set i entry) else none

/-- Writes the cells of the current row behind cell `j`, one for each character of the target that
is left. -/
def fill? (c : Char) (previous : List Nat) : Nat → List Char → List Nat → Option (List Nat)
  | _, [], current => some current
  | j, d :: target, current => do
    let above ← previous[j + 1]?
    let left ← current[j]?
    let diagonal ← previous[j]?
    let current ← write? current (j + 1)
      (min (min (above + 1) (left + 1)) (diagonal + if c = d then 0 else 1))
    fill? c previous (j + 1) target current

/-- Writes one row for each character of the source that is left, `i` of them being read. The two
rows change places after each character, so what is in the current row is left over from the one
before the previous. -/
def sweep? (target : List Char) : Nat → List Char → List Nat → List Nat → Option (List Nat)
  | _, [], previous, _ => some previous
  | i, c :: source, previous, current => do
    let current ← write? current 0 (i + 1)
    let current ← fill? c previous 0 target current
    sweep? target (i + 1) source current previous

/-- The edit distance computed in two rows, if only cells are read and written that there are. -/
def twoRows? (source target : String) : Option Nat := do
  let length := target.toList.length
  let previous ← sweep? target.toList 0 source.toList (List.range (length + 1))
    (List.replicate (length + 1) 0)
  previous[length]?

theorem write?_append (front : List Nat) (old entry : Nat) (back : List Nat) :
    write? (front ++ old :: back) front.length entry = some (front ++ entry :: back) := by
  simp [write?]

theorem length_extendRow (c : Char) {target : List Char} {row : List Nat} (left : Nat)
    (hrow : row.length = target.length + 1) :
    (extendRow c target row left).length = target.length := by
  induction target generalizing row left with
  | nil => simp [extendRow]
  | cons d target ih =>
      obtain ⟨diagonal, row, rfl⟩ := List.exists_cons_of_length_eq_add_one hrow
      obtain ⟨above, row, rfl⟩ := List.exists_cons_of_length_eq_add_one (Nat.succ.inj hrow)
      rw [extendRow, List.length_cons, List.length_cons, ih _ (Nat.succ.inj hrow)]

/-- The cells behind cell `j` become those of the next row, whatever stood there. -/
theorem fill?_eq_extendRow (c : Char) (passed filled : List Nat) (left : Nat) {row stale : List Nat}
    {target : List Char} (hpassed : passed.length = filled.length)
    (hrow : row.length = target.length + 1) (hstale : stale.length = target.length) :
    fill? c (passed ++ row) filled.length target (filled ++ left :: stale) =
      some (filled ++ left :: extendRow c target row left) := by
  induction target generalizing passed filled left row stale with
  | nil =>
      obtain rfl := List.length_eq_zero_iff.mp hstale
      simp [fill?, extendRow]
  | cons d target ih =>
      obtain ⟨diagonal, row, rfl⟩ := List.exists_cons_of_length_eq_add_one hrow
      obtain ⟨above, row, rfl⟩ := List.exists_cons_of_length_eq_add_one (Nat.succ.inj hrow)
      obtain ⟨old, stale, rfl⟩ := List.exists_cons_of_length_eq_add_one hstale
      generalize hentry : min (min (above + 1) (left + 1)) (diagonal + if c = d then 0 else 1) =
        entry
      have habove : (passed ++ diagonal :: above :: row)[filled.length + 1]? = some above := by
        simp [← hpassed]
      have hleft : (filled ++ left :: old :: stale)[filled.length]? = some left := by
        simp
      have hdiagonal : (passed ++ diagonal :: above :: row)[filled.length]? = some diagonal := by
        simp [← hpassed]
      have hwrite : write? (filled ++ left :: old :: stale) (filled.length + 1) entry =
          some (filled ++ left :: entry :: stale) := by
        simpa using write?_append (filled ++ [left]) old entry stale
      have hrest :=
        ih (passed ++ [diagonal]) (filled ++ [left]) entry (by simp [hpassed]) (Nat.succ.inj hrow)
        (Nat.succ.inj hstale)
      simp only [List.append_assoc, List.cons_append, List.nil_append, List.length_append,
        List.length_singleton]
        at hrest
      simp only [fill?, habove, hleft, hdiagonal, hentry, hwrite, hrest, extendRow,
        Option.bind_eq_bind, Option.bind_some]

/-- Each character of the source turns the previous row into the next one. -/
theorem sweep?_eq_foldl (source : List Char) {target : List Char} {i : Nat} {row current : List Nat}
    (hrow : row.length = target.length) (hcurrent : current.length = target.length + 1) :
    sweep? target i source (i :: row) current =
      some (source.foldl (nextRow target) (i :: row)) := by
  induction source generalizing i row current with
  | nil => rfl
  | cons c source ih =>
      obtain ⟨old, stale, rfl⟩ := List.exists_cons_of_length_eq_add_one hcurrent
      have hlength : (i :: row).length = target.length + 1 := congrArg (· + 1) hrow
      have hwrite : write? (old :: stale) 0 (i + 1) = some ((i + 1) :: stale) :=
        write?_append [] old (i + 1) stale
      have hfill : fill? c (i :: row) 0 target ((i + 1) :: stale) =
          some (nextRow target (i :: row) c) :=
        fill?_eq_extendRow c [] [] (i + 1) rfl hlength (Nat.succ.inj hcurrent)
      have hrest : sweep? target (i + 1) source (nextRow target (i :: row) c) (i :: row) =
          some (source.foldl (nextRow target) (nextRow target (i :: row) c)) :=
        ih (length_extendRow c (i + 1) hlength) hlength
      simp only [sweep?, hwrite, hfill, hrest, List.foldl_cons, Option.bind_eq_bind,
        Option.bind_some]

/-- No index of the computation in two rows is out of range. -/
theorem twoRows?_eq_distance (source target : String) :
    twoRows? source target = some (distance source target) := by
  have hsweep : sweep? target.toList 0 source.toList (List.range (target.toList.length + 1))
      (List.replicate (target.toList.length + 1) 0) =
        some (lastRow source.toList target.toList) := by
    rw [lastRow, List.range_succ_eq_map]
    exact sweep?_eq_foldl source.toList (by simp) (by simp)
  have hlength : (lastRow source.toList target.toList).length = target.toList.length + 1 := by
    rw [lastRow_eq_distances, length_distances]
  have hlast : (lastRow source.toList target.toList)[target.toList.length]? =
      (lastRow source.toList target.toList).getLast? := by
    rw [List.getLast?_eq_getElem?, hlength, Nat.add_sub_cancel]
  calc
    twoRows? source target = (lastRow source.toList target.toList)[target.toList.length]? := by
      rw [twoRows?, hsweep, Option.bind_eq_bind, Option.bind_some]
    _ = some (distance source target) := by
      rw [hlast, distance, lastRow_eq_distances, getLast?_distances]
      rfl

end TwoRows

/-- The edit distance is the least number of single-character insertions, deletions and
substitutions that turn one text into the other. It is what the computation in two rows gives, in
which no index is out of range. -/
theorem distance_eq_least_edits (source target : String) :
    twoRows? source target = some (distance source target) ∧
    EditedIn (distance source target) source.toList target.toList ∧
    ∀ n, EditedIn n source.toList target.toList → distance source target ≤ n := by
  refine ⟨twoRows?_eq_distance source target, ?_, fun n h => ?_⟩
  · rw [distance_eq_least]
    exact editedIn_reverse_iff.mp (editedIn_least _ _)
  · rw [distance_eq_least]
    exact h.reverse.least_le

example : distance "kitten" "sitting" = 3 := by decide +kernel

end LambdaLift.EditDistance
