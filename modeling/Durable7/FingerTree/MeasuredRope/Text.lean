import Durable7.FingerTree.MeasuredRope.Histories
import Durable7.Foundation.Lists

/-!
# Text ropes

A measured rope of characters that counts its newlines.  The lines of a text are its pieces
between newlines, one more than there are newlines.  A `Char` is a Unicode scalar value, so the
texts here are those without surrogate code points.
-/

namespace Durable7.FingerTree

open Foundation List Int Nat

@[ext]
structure TextRope.NewlineMeasure where
  getNewlineCount : Int

instance : Monoid TextRope.NewlineMeasure where
  one := ⟨0⟩
  mul left right := ⟨left.getNewlineCount + right.getNewlineCount⟩
  one_mul _ := TextRope.NewlineMeasure.ext (zero_add _)
  mul_one _ := TextRope.NewlineMeasure.ext (add_zero _)
  mul_assoc _ _ _ := TextRope.NewlineMeasure.ext (add_assoc _ _ _)

abbrev TextRope := MeasuredRope TextRope.NewlineMeasure Char

variable {line start : Nat} {after before content : List Char}

namespace TextRope

open MeasuredRope

inductive TextError where
  | lineCountOverflow
  | inconsistentLineMeasure
  | invalidCursor
  deriving DecidableEq

def TextError.message : TextError → String
  | .lineCountOverflow => "Durable7.FingerTree.Rope.Text: line count overflow"
  | .inconsistentLineMeasure => "Durable7.FingerTree.Rope.Text.lines: inconsistent line measure"
  | .invalidCursor => "Durable7.FingerTree.Rope.Text.lineColumnOfCursor: invalid cursor invariant"

def measureChar (value : Char) : NewlineMeasure := if value = '\n' then ⟨1⟩ else ⟨0⟩

def newlineCount (rope : TextRope) : Int := (measure rope).getNewlineCount

def lineCount (rope : TextRope) : Except TextError Int :=
  if newlineCount rope = maxBound then .error .lineCountOverflow else .ok (newlineCount rope + 1)

def lineOfOffset (offset : Int) (rope : TextRope) : Option Int :=
  if offset < 0 ∨ offset > count rope then none
  else (prefixMeasure offset rope).map NewlineMeasure.getNewlineCount

def lineStartOffset (line : Int) (rope : TextRope) : Option Int :=
  if line < 0 ∨ line > newlineCount rope then none
  else if line = 0 then some 0
  else (locateByMeasure (fun seen => decide (seen.getNewlineCount ≥ line)) rope).map fun found =>
    found.1 + 1

def lineEndOffset (line : Int) (rope : TextRope) : Option Int :=
  if line < 0 ∨ line > newlineCount rope then none
  else if line < newlineCount rope then (lineStartOffset (line + 1) rope).map (· - 1)
  else some (count rope)

def lineColumnOf (offset : Int) (rope : TextRope) : Option (Int × Int) := do
  let line ← lineOfOffset offset rope
  let start ← lineStartOffset line rope
  return (line, offset - start)

def offsetOf (line column : Int) (rope : TextRope) : Option Int :=
  if column < 0 then none
  else do
    let start ← lineStartOffset line rope
    let last ← lineEndOffset line rope
    if column ≤ last - start then some (start + column) else none

def getLine (line : Int) (rope : TextRope) : Option (List Char) :=
  if line < 0 ∨ line > newlineCount rope then none
  else
    (lineStartOffset line rope).bind fun start => (lineEndOffset line rope).bind fun last =>
      (slice start (last - start) rope).map MeasuredRope.toList

def lines (rope : TextRope) : Except TextError (List (List Char)) := do
  let total ← lineCount rope
  (List.range total.toNat).mapM fun (line : Nat) =>
    match getLine line rope with
    | some value => .ok value
    | none => .error .inconsistentLineMeasure

def lineColumnOfCursor (cursor : MeasuredRopeCursor NewlineMeasure Char) :
    Except TextError (Int × Int) :=
  match lineColumnOf cursor.position cursor.rope with
  | some found => .ok found
  | none => .error .invalidCursor

/-! ## Newlines of a text -/

def newlines (text : List Char) : Nat := text.count '\n'

theorem foldMap_measureChar (text : List Char) : foldMap measureChar text = ⟨newlines text⟩ := by
  induction text with
  | nil => rfl
  | cons value text ih =>
      rw [foldMap_cons, ih, measureChar]
      refine NewlineMeasure.ext ?_
      by_cases hvalue : value = '\n'
      · rw [if_pos hvalue, hvalue, newlines, newlines, count_cons_self]
        exact (add_comm _ _).trans (natCast_succ _).symm
      · rw [if_neg hvalue, newlines, newlines, count_cons_of_ne hvalue]
        exact zero_add _

variable {text : List Char}

theorem exists_lineAt (hline : line ≤ newlines text) :
    ∃ start content before after, (text.splitOn '\n')[line]? = some content ∧
      LineAt '\n' text line start content before after := by
  have hlt : line < (text.splitOn '\n').length := by
    rw [length_splitOn]
    exact lt_succ_of_le hline
  have hcontent := List.getElem?_eq_getElem hlt
  obtain ⟨start, before, after, hat⟩ := splitOn_lineAt '\n' text hcontent
  exact ⟨start, _, before, after, hcontent, hat⟩

theorem newlines_take_le (text : List Char) (position : Nat) :
    newlines (text.take position) ≤ newlines text :=
  (take_sublist position text).count_le '\n'

section Rope

variable {rope : TextRope} {text : List Char} (h : Holds measureChar rope text)

include h

theorem newlineCount_eq : newlineCount rope = newlines text := by
  rw [newlineCount, h.measure_eq, foldMap_measureChar]

theorem lineOfOffset_eq (offset : Int) :
    lineOfOffset offset rope =
      if offset < 0 ∨ offset > text.length then none
      else some (newlines (text.take offset.toNat) : Int) := by
  rw [lineOfOffset, h.count_eq, prefixMeasure_eq h, ListModel.prefixMeasure]
  split
  · rfl
  · rw [Option.map_some, foldMap_measureChar]

omit h in
theorem risesAlong_newlines (line : Int) :
    RisesAlong measureChar (fun seen => decide (seen.getNewlineCount ≥ line)) text := by
  intro shorter longer _ hle hshorter
  rw [foldMap_measureChar, decide_eq_true_iff] at hshorter ⊢
  have hcount : newlines (text.take shorter) ≤ newlines (text.take longer) :=
    count_take_le '\n' text hle
  dsimp only at hshorter ⊢
  omega

section

variable (hat : LineAt '\n' text line start content before after)
include hat

theorem lineStartOffset_eq : lineStartOffset line rope = some (start : Int) := by
  have hend := hat.end_le
  have hle : line ≤ newlines text := by
    have hcount : newlines before ≤ newlines text :=
      (hat.text_eq ▸ sublist_append_left before (content ++ after)).count_le '\n'
    have hline : newlines before = line := hat.count_eq
    omega
  rw [lineStartOffset, newlineCount_eq h, if_neg (by omega)]
  by_cases hzero : line = 0
  · have hstart := (hat.count_take_iff (zero_le _)).mp hzero.symm
    rw [if_pos (natCast_eq_zero.mpr hzero), eq_zero_of_le_zero hstart.1]
    rfl
  rw [if_neg (natCast_eq_zero.not.mpr hzero)]
  rcases locateByMeasure_located h (risesAlong_newlines line) with
    ⟨-, hnone⟩ | ⟨position, value, hfirst, hfound⟩
  · have hlength : 0 < text.length := by
      have hcount : newlines text ≤ text.length := count_le_length
      omega
    have hmissed := hnone text.length hlength (le_refl _)
    rw [foldMap_measureChar, take_length] at hmissed
    exact absurd (Int.ofNat_le.mpr hle) (of_decide_eq_false hmissed)
  · have hinside := (List.getElem?_eq_some_iff.mp hfirst.value_eq).1
    have hreached := hfirst.reached
    rw [foldMap_measureChar] at hreached
    have hreached : line ≤ newlines (text.take (position + 1)) :=
      Int.ofNat_le.mp (of_decide_eq_true hreached)
    have hbefore : newlines (text.take position) < line := by
      by_cases hposition : position = 0
      · rw [hposition]
        exact Nat.pos_of_ne_zero hzero
      · have hmissed := hfirst.first position (Nat.pos_of_ne_zero hposition) (Nat.le_refl _)
        rw [foldMap_measureChar] at hmissed
        exact Nat.not_le.mp (mt Int.ofNat_le.mpr (of_decide_eq_false hmissed))
    have hstep : newlines (text.take (position + 1)) ≤ newlines (text.take position) + 1 :=
      count_take_succ '\n' text position
    have hafter := (hat.count_take_iff (succ_le_of_lt hinside)).mp
      (show newlines (text.take (position + 1)) = line by omega)
    have hnot := (hat.count_take_iff (le_of_lt hinside)).not.mp
      (show newlines (text.take position) ≠ line by omega)
    rw [hfound, Option.map_some]
    exact congrArg some (by omega)

theorem lineEndOffset_eq :
    lineEndOffset line rope = some ((start + content.length : Nat) : Int) := by
  have hend := hat.end_le
  have hlast := (hat.count_take_iff hend).mpr ⟨le_add_right _ _, le_refl _⟩
  have hle : line ≤ newlines text := hlast ▸ newlines_take_le text (start + content.length)
  rw [lineEndOffset, newlineCount_eq h, if_neg (by omega)]
  by_cases hlt : line < newlines text
  · obtain ⟨nextStart, nextContent, nextBefore, nextAfter, -, hnextAt⟩ := exists_lineAt hlt
    have hnextStart := lineStartOffset_eq h hnextAt
    have hnext := hat.next hnextAt
    rw [if_pos (Int.ofNat_lt.mpr hlt)]
    rw [natCast_succ] at hnextStart
    rw [hnextStart, Option.map_some]
    exact congrArg some (by omega)
  · have hwhole := (hat.count_take_iff (le_refl text.length)).mp
      (show newlines (text.take text.length) = line by rw [take_length]; omega)
    rw [if_neg (mt Int.ofNat_lt.mp hlt), h.count_eq]
    exact congrArg some (by omega)

theorem lineColumnOf_eq {offset : Nat}
    (hlow : start ≤ offset) (hhigh : offset ≤ start + content.length) :
    lineColumnOf offset rope = some ((line : Int), (offset : Int) - start) := by
  have hend := hat.end_le
  have hline : newlines (text.take offset) = line :=
    (hat.count_take_iff (le_trans hhigh hend)).mpr ⟨hlow, hhigh⟩
  rw [lineColumnOf, lineOfOffset_eq h, if_neg (by omega), toNat_natCast, hline,
    Option.bind_eq_bind, Option.bind_some, lineStartOffset_eq h hat]
  rfl

theorem offsetOf_eq (column : Int) :
    offsetOf line column rope =
      if column < 0 ∨ column > content.length then none else some (start + column) := by
  rw [offsetOf, lineStartOffset_eq h hat, lineEndOffset_eq h hat]
  by_cases hnegative : column < 0
  · rw [if_pos hnegative, if_pos (.inl hnegative)]
  rw [if_neg hnegative, Option.bind_eq_bind, Option.bind_some, Option.bind_some]
  by_cases hlong : column > content.length
  · rw [if_neg (by omega), if_pos (.inr hlong)]
  · rw [if_pos (by omega), if_neg (by omega)]

end

theorem lineStartOffset_none {line : Int} (hline : line < 0 ∨ line > newlines text) :
    lineStartOffset line rope = none := by
  rw [lineStartOffset, newlineCount_eq h, if_pos hline]

theorem getLine_eq (line : Int) :
    getLine line rope = if line < 0 then none else (text.splitOn '\n')[line.toNat]? := by
  rw [getLine, newlineCount_eq h]
  by_cases hnegative : line < 0
  · rw [if_pos (.inl hnegative), if_pos hnegative]
  rw [if_neg hnegative]
  by_cases hlarge : line > newlines text
  · have hlength : (text.splitOn '\n').length = newlines text + 1 := length_splitOn '\n' text
    rw [if_pos (.inr hlarge), List.getElem?_eq_none (by omega)]
  · obtain ⟨start, content, before, after, hcontent, hat⟩ :=
      exists_lineAt (show line.toNat ≤ newlines text by omega)
    have hend := hat.end_le
    have hstart := lineStartOffset_eq h hat
    have hlast := lineEndOffset_eq h hat
    have hslice := slice_refines h start ((start + content.length : Nat) - start)
    rw [toNat_of_nonneg (not_lt.mp hnegative)] at hstart hlast
    rw [if_neg (by omega), hstart, hlast, hcontent, Option.bind_some, Option.bind_some]
    rw [ListModel.slice, if_neg (by omega), toNat_natCast,
      show (((start + content.length : Nat) : Int) - start).toNat = content.length by omega,
      hat.content_eq] at hslice
    generalize slice _ _ rope = piece at hslice ⊢
    cases hslice with
    | some hpiece => exact congrArg some hpiece.elements_eq

theorem lineCount_eq :
    lineCount rope =
      if (newlines text : Int) = maxBound then .error .lineCountOverflow
      else .ok ((newlines text : Int) + 1) := by
  rw [lineCount, newlineCount_eq h]

theorem lines_eq :
    lines rope =
      if (newlines text : Int) = maxBound then .error .lineCountOverflow
      else .ok (text.splitOn '\n') := by
  rw [lines, lineCount_eq h]
  split
  · rfl
  · have hlength : (text.splitOn '\n').length = newlines text + 1 := length_splitOn '\n' text
    rw [except_ok_bind, mapM_eq_ok, ← natCast_succ, toNat_natCast, forall₂_iff_get]
    refine ⟨length_range.trans hlength.symm, fun line hleft hright => ?_⟩
    rw [get_eq_getElem, get_eq_getElem, getElem_range, getLine_eq h, if_neg (not_lt.mpr
      (natCast_nonneg line)), toNat_natCast, List.getElem?_eq_getElem hright]

end Rope

/-! ## Observations -/

/-- The first offset with that many newlines before it. -/
structure StartsLine (text : List Char) (line start : Nat) : Prop where
  inside : start ≤ text.length
  counted : newlines (text.take start) = line
  first : ∀ offset < start, newlines (text.take offset) < line

theorem startsLine (hat : LineAt '\n' text line start content before after) :
    StartsLine text line start := by
  have hend := hat.end_le
  have hcounted : newlines (text.take start) = line :=
    (hat.count_take_iff (le_of_add_right_le hend)).mpr ⟨le_refl _, le_add_right _ _⟩
  refine ⟨le_of_add_right_le hend, hcounted, fun offset hlt => ?_⟩
  have hle : newlines (text.take offset) ≤ newlines (text.take start) :=
    count_take_le '\n' text (le_of_lt hlt)
  refine lt_of_le_of_ne (hcounted ▸ hle) fun heq => ?_
  have hoffset := (hat.count_take_iff (show offset ≤ text.length by omega)).mp heq
  omega

/-- What a text rope shows of the lines of its text. -/
structure Indexes (rope : TextRope) (text : List Char) : Prop where
  listed : MeasuredRope.toList rope = text
  pieces : (text.splitOn '\n').length = newlines text + 1
  counted : lineCount rope =
    if (newlines text : Int) = maxBound then .error .lineCountOverflow
    else .ok ((newlines text : Int) + 1)
  cut : lines rope =
    if (newlines text : Int) = maxBound then .error .lineCountOverflow
    else .ok (text.splitOn '\n')
  line : ∀ line : Int, getLine line rope =
    if line < 0 then none else (text.splitOn '\n')[line.toNat]?
  offsetLine : ∀ offset : Int, lineOfOffset offset rope =
    if offset < 0 ∨ offset > text.length then none
    else some (newlines (text.take offset.toNat) : Int)
  start : ∀ line : Nat, line ≤ newlines text →
    ∃ start : Nat, StartsLine text line start ∧ lineStartOffset line rope = some (start : Int)
  noStart : ∀ line : Int, line < 0 ∨ line > newlines text → lineStartOffset line rope = none
  column : ∀ offset : Nat, offset ≤ text.length →
    ∃ start : Nat, StartsLine text (newlines (text.take offset)) start ∧ start ≤ offset ∧
      lineColumnOf offset rope = some ((newlines (text.take offset) : Int), (offset : Int) - start)
  noColumn : ∀ offset : Int, offset < 0 ∨ offset > text.length → lineColumnOf offset rope = none
  back : ∀ (offset line column : Int), lineColumnOf offset rope = some (line, column) →
    offsetOf line column rope = some offset
  forth : ∀ (line : Nat) (content : List Char), (text.splitOn '\n')[line]? = some content →
    ∀ column : Nat, column ≤ content.length →
      ∃ offset : Int, offsetOf line column rope = some offset ∧
        lineColumnOf offset rope = some ((line : Int), (column : Int))
  rejected : ∀ line column : Int,
    (¬ ∃ content, 0 ≤ line ∧ (text.splitOn '\n')[line.toNat]? = some content ∧ 0 ≤ column ∧
      column ≤ content.length) → offsetOf line column rope = none
  gap : ∀ (offset : Int) (cursor : MeasuredRopeCursor NewlineMeasure Char),
    cursorAt offset rope = some cursor →
    ∃ found, lineColumnOf offset rope = some found ∧ lineColumnOfCursor cursor = .ok found

theorem exists_line {offset : Nat} (hoffset : offset ≤ text.length) :
    ∃ start content before after,
      LineAt '\n' text (newlines (text.take offset)) start content before after ∧
      start ≤ offset ∧ offset ≤ start + content.length := by
  obtain ⟨start, content, before, after, -, hat⟩ := exists_lineAt (newlines_take_le text offset)
  exact ⟨start, content, before, after, hat, (hat.count_take_iff hoffset).mp rfl⟩

theorem indexes {rope : TextRope} (h : Holds measureChar rope text) : Indexes rope text := by
  have hnone :
      ∀ offset : Int, offset < 0 ∨ offset > text.length → lineColumnOf offset rope = none := by
    intro offset hout
    rw [lineColumnOf, lineOfOffset_eq h, if_pos hout]
    rfl
  exact {
    listed := h.elements_eq
    pieces := length_splitOn '\n' text
    counted := lineCount_eq h
    cut := lines_eq h
    line := getLine_eq h
    offsetLine := lineOfOffset_eq h
    start := by
      intro line hline
      obtain ⟨start, content, before, after, -, hat⟩ := exists_lineAt hline
      exact ⟨start, startsLine hat, lineStartOffset_eq h hat⟩
    noStart := fun line => lineStartOffset_none h
    column := by
      intro offset hoffset
      obtain ⟨start, content, before, after, hat, hlow, hhigh⟩ := exists_line hoffset
      exact ⟨start, startsLine hat, hlow, lineColumnOf_eq h hat hlow hhigh⟩
    noColumn := hnone
    back := by
      intro offset line column hfound
      by_cases hout : offset < 0 ∨ offset > text.length
      · rw [hnone offset hout] at hfound
        cases hfound
      obtain ⟨start, content, before, after, hat, hlow, hhigh⟩ :=
        exists_line (show offset.toNat ≤ text.length by omega)
      have hcolumn := lineColumnOf_eq h hat hlow hhigh
      rw [toNat_of_nonneg (by omega), hfound] at hcolumn
      obtain ⟨⟩ := hcolumn
      rw [offsetOf_eq h hat, if_neg (by omega)]
      exact congrArg some (by omega)
    forth := by
      intro line content hcontent column hcolumn
      obtain ⟨start, before, after, hat⟩ := splitOn_lineAt '\n' text hcontent
      refine ⟨start + column, ?_, ?_⟩
      · rw [offsetOf_eq h hat, if_neg (by omega)]
      · have hfound := lineColumnOf_eq h hat (le_add_right start column)
          (Nat.add_le_add_left hcolumn start)
        rw [natCast_add] at hfound
        rw [hfound]
        exact congrArg some (Prod.ext rfl (by dsimp only; omega))
    rejected := by
      intro line column hnot
      by_cases hline : line < 0 ∨ line > newlines text
      · rw [offsetOf, lineStartOffset_none h hline]
        split <;> rfl
      · obtain ⟨start, content, before, after, hcontent, hat⟩ :=
          exists_lineAt (show line.toNat ≤ newlines text by omega)
        have hoffset := offsetOf_eq h hat column
        rw [toNat_of_nonneg (by omega)] at hoffset
        rw [hoffset, if_pos]
        by_contra hinside
        exact hnot ⟨content, by omega, hcontent, by omega, by omega⟩
    gap := by
      intro offset cursor hcursor
      have hholds := cursorAt_holds h hcursor
      have hlow := hholds.low
      have hhigh := hholds.high
      obtain ⟨start, content, before, after, hat, hfirst, hlast⟩ :=
        exists_line (show offset.toNat ≤ text.length by omega)
      have hfound := lineColumnOf_eq hholds.rope hat hfirst hlast
      have hfound' := lineColumnOf_eq h hat hfirst hlast
      rw [toNat_of_nonneg hlow] at hfound hfound'
      refine ⟨_, hfound', ?_⟩
      rw [lineColumnOfCursor, hholds.position_eq, hfound]
  }

/-- Every text of every branching history is cut at its newlines, unless they are too many to
count its lines. -/
theorem texts_exact (edits : List (Edit Char)) :
    List.Forall₂ Indexes (grow (produce measureChar) [] edits) (grow ListModel.produce [] edits) :=
  (grow_holds measureChar edits).imp fun _ _ => indexes

theorem grow_fromListWith (hfits : (text.length : Int) ≤ maxBound) :
    ∃ rope, grow (produce measureChar) [] [.fromListWith text] = [rope] ∧
      Holds measureChar rope text := by
  have hholds := grow_holds measureChar [.fromListWith text]
  have hmodels : grow ListModel.produce [] [.fromListWith text] = [text] := by
    rw [grow, foldl_cons, ListModel.produce, bounded_ok hfits]
    rfl
  rw [hmodels] at hholds
  obtain ⟨rope, others, hrope, hothers, hropes⟩ := forall₂_cons_right_iff.mp hholds
  rw [forall₂_nil_right_iff.mp hothers] at hropes
  exact ⟨rope, hropes, hrope⟩

/-- A text of as many newlines as can be counted has one line too many. -/
theorem newlines_overflow :
    ∃ rope, grow (produce measureChar) []
        [.fromListWith (List.replicate 9223372036854775807 '\n')] = [rope] ∧
      MeasuredRope.toList rope = List.replicate 9223372036854775807 '\n' ∧
      lines rope = .error .lineCountOverflow := by
  have hfits : ((List.replicate 9223372036854775807 '\n').length : Int) ≤ maxBound := by
    rw [length_replicate, maxBound]
    exact le_refl _
  have hcount : (newlines (List.replicate 9223372036854775807 '\n') : Int) = maxBound := by
    rw [newlines, count_replicate_self, maxBound]
    rfl
  obtain ⟨rope, hgrown, hholds⟩ := grow_fromListWith hfits
  refine ⟨rope, hgrown, hholds.elements_eq, ?_⟩
  rw [lines_eq hholds, if_pos hcount]

end TextRope

end Durable7.FingerTree
