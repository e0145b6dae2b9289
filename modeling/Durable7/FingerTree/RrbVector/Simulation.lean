import Durable7.FingerTree.RrbVector.Sessions
import Durable7.Foundation.Branching

/-!
# Sessions refine list sessions

Each operation does to the pool what it does to the lists, and the step lemma carries
the refinement through every session.
-/

namespace Durable7.FingerTree.RrbVector

open Foundation List Nat

variable {α : Type}

/-- The vectors and cursors of the pool show these lists and gaps, one by one. -/
structure PoolKept (fits : Prop) (pool : VectorPool α) (lists : ListPool α) : Prop where
  vectors : List.Forall₂ (Kept fits) pool.vectors lists.vectors
  cursors : List.Forall₂ (AtGap fits) pool.cursors lists.cursors
  values_le : ∀ values ∈ lists.vectors, values.length ≤ maxBound
  gaps_le : ∀ gap ∈ lists.cursors, gap.values.length ≤ maxBound

/-- Room for one more edit of any version. -/
def poolRoom (pool : VectorPool α) : Bool :=
  pool.vectors.all (fun vector => vector.height + 2 ≤ maxBound) &&
    pool.cursors.all fun current => current.cursorSnapshot.height + 2 ≤ maxBound

theorem PoolKept.start (fits : Prop) : PoolKept fits (Pool.start : VectorPool α) Pool.start :=
  ⟨.nil, .nil, by simp [Pool.start], by simp [Pool.start]⟩

/-- A new effect is within bounds and shows what the lists give. -/
structure EffectKept (fits : Prop) (effect : Effect (RrbVector α) (Cursor α) α)
    (expected : Effect (List α) (ListGap α) α) : Prop where
  vectors : List.Forall₂ (Kept fits) effect.vectors expected.vectors
  cursors : List.Forall₂ (AtGap fits) effect.cursors expected.cursors
  answer_eq : effect.answer = expected.answer
  values_le : ∀ values ∈ expected.vectors, values.length ≤ maxBound
  gaps_le : ∀ gap ∈ expected.cursors, gap.values.length ≤ maxBound

variable {pool : VectorPool α} {lists : ListPool α}

theorem PoolKept.after {fits more : Prop}
    {effect : Effect (RrbVector α) (Cursor α) α} {expected : Effect (List α) (ListGap α) α}
    (h : PoolKept fits pool lists) (heffect : EffectKept more effect expected)
    (himp : more → fits) : PoolKept more (pool.after effect) (lists.after expected) where
  vectors := rel_append heffect.vectors (h.vectors.imp fun _ _ hkept => hkept.mono himp)
  cursors := rel_append heffect.cursors (h.cursors.imp fun _ _ hkept => hkept.mono himp)
  values_le := forall_mem_append.mpr ⟨heffect.values_le, h.values_le⟩
  gaps_le := forall_mem_append.mpr ⟨heffect.gaps_le, h.gaps_le⟩

/-! ## Effects -/

/-- An operation does what the lists say. -/
def Does (fits : Prop) (result : Except RrbError (Effect (RrbVector α) (Cursor α) α))
    (expected : Effect (List α) (ListGap α) α) : Prop :=
  ∃ effect, result = .ok effect ∧ EffectKept fits effect expected

section Effects

variable {fits : Prop} {vector : RrbVector α} {values : List α} {current : Cursor α}
  {gap : ListGap α}

theorem does_reply (fits : Prop) (answer : Answer α) :
    Does fits (.ok (.reply answer)) (.reply answer) :=
  ⟨_, rfl, .nil, .nil, rfl, by simp [Effect.reply], by simp [Effect.reply]⟩

theorem does_missing (fits : Prop) : Does fits (.ok (.missing : Effect _ _ α)) .missing :=
  does_reply fits .missing

theorem does_vector (h : Kept fits vector values) (hvalues : values.length ≤ maxBound) :
    Does fits (.ok (.vector vector)) (.vector values) :=
  ⟨_, rfl, .cons h .nil, .nil, rfl, by simpa [Effect.vector] using hvalues, by simp [Effect.vector]⟩

theorem does_cursor (h : AtGap fits current gap) (hvalues : gap.values.length ≤ maxBound) :
    Does fits (.ok (.cursor current)) (.cursor gap) :=
  ⟨_, rfl, .nil, .cons h .nil, rfl, by simp [Effect.cursor], by simpa [Effect.cursor] using hvalues⟩

theorem does_made {make : Except RrbError (RrbVector α)}
    (h : ∃ made, make = .ok made ∧ Kept fits made values) (hvalues : values.length ≤ maxBound) :
    Does fits (.vector <$> make) (.vector values) := by
  obtain ⟨made, rfl, hkept⟩ := h
  exact does_vector hkept hvalues

theorem does_moved {move : Except RrbError (Cursor α)}
    (h : ∃ moved, move = .ok moved ∧ AtGap fits moved gap)
    (hvalues : gap.values.length ≤ maxBound) :
    Does fits (.cursor <$> move) (.cursor gap) := by
  obtain ⟨moved, rfl, hat⟩ := h
  exact does_cursor hat hvalues

theorem does_made? {make : Except RrbError (Option (RrbVector α))} {expected : Option (List α)}
    (h : ∃ made, make = .ok made ∧ Option.Rel (Kept fits) made expected)
    (hvalues : ∀ values ∈ expected, values.length ≤ maxBound) :
    Does fits (.vector? <$> make) (.vector? expected) := by
  obtain ⟨made, rfl, hrelated⟩ := h
  cases hrelated with
  | none => exact does_missing fits
  | some hkept => exact does_vector hkept (hvalues _ rfl)

theorem does_moved? {moved : Option (Cursor α)} {expected : Option (ListGap α)}
    (h : Option.Rel (AtGap fits) moved expected)
    (hvalues : ∀ gap ∈ expected, gap.values.length ≤ maxBound) :
    Does fits (.ok (.cursor? moved)) (.cursor? expected) := by
  cases h with
  | none => exact does_missing fits
  | some hat => exact does_cursor hat (hvalues _ rfl)

theorem does_edited? {edit : Except RrbError (Option (Cursor α))} {expected : Option (ListGap α)}
    (h : ∃ moved, edit = .ok moved ∧ Option.Rel (AtGap fits) moved expected)
    (hvalues : ∀ gap ∈ expected, gap.values.length ≤ maxBound) :
    Does fits (.cursor? <$> edit) (.cursor? expected) := by
  obtain ⟨moved, rfl, hrelated⟩ := h
  exact does_moved? hrelated hvalues

end Effects

section Operands

variable {fits more : Prop} {pool : VectorPool α} {lists : ListPool α}

theorem lookup_does {β γ : Type} {related : β → γ → Prop} {items : List β} {others : List γ}
    {place : Nat} {use : β → Except RrbError (Effect (RrbVector α) (Cursor α) α)}
    {meant : γ → Effect (List α) (ListGap α) α} (h : List.Forall₂ related items others)
    (huse : ∀ item other, items[place]? = some item → other ∈ others → related item other →
      Does more (use item) (meant other)) :
    Does more (items[place]?.elim (.ok .missing) use) (others[place]?.elim .missing meant) := by
  have hpicked := getElem?_refines h place
  generalize hitem : items[place]? = item at hpicked ⊢
  generalize hother : others[place]? = other at hpicked ⊢
  cases hpicked with
  | none => exact does_missing more
  | some hrelated => exact huse _ _ hitem (mem_of_getElem? hother) hrelated

theorem withVector_does {target : Nat}
    {use : RrbVector α → Except RrbError (Effect (RrbVector α) (Cursor α) α)}
    {meant : List α → Effect (List α) (ListGap α) α} (h : PoolKept fits pool lists)
    (huse : ∀ vector values, pool.vectors[target]? = some vector → vector ∈ pool.vectors →
      Kept fits vector values → values.length ≤ maxBound → Does more (use vector) (meant values)) :
    Does more (pool.withVector target (.ok .missing) use)
      (lists.withVector target .missing meant) :=
  lookup_does h.vectors fun vector values hfound hmem hkept =>
    huse vector values hfound (mem_of_getElem? hfound) hkept (h.values_le values hmem)

theorem withCursor_does {place : Nat}
    {use : Cursor α → Except RrbError (Effect (RrbVector α) (Cursor α) α)}
    {meant : ListGap α → Effect (List α) (ListGap α) α} (h : PoolKept fits pool lists)
    (huse : ∀ current gap, pool.cursors[place]? = some current → current ∈ pool.cursors →
      AtGap fits current gap → gap.values.length ≤ maxBound → Does more (use current) (meant gap)) :
    Does more (pool.withCursor place (.ok .missing) use)
      (lists.withCursor place .missing meant) :=
  lookup_does h.cursors fun current gap hfound hmem hat =>
    huse current gap hfound (mem_of_getElem? hfound) hat (h.gaps_le gap hmem)

theorem withVector_some {β : Type} {target : Nat} {vector : RrbVector α}
    (h : pool.vectors[target]? = some vector) (missing : β) (use : RrbVector α → β) :
    pool.withVector target missing use = use vector := by
  rw [Pool.withVector, h, Option.elim_some]

theorem withCursor_some {β : Type} {place : Nat} {current : Cursor α}
    (h : pool.cursors[place]? = some current) (missing : β) (use : Cursor α → β) :
    pool.withCursor place missing use = use current := by
  rw [Pool.withCursor, h, Option.elim_some]

theorem poolRoom_vector (h : poolRoom pool = true) {vector : RrbVector α}
    (hmem : vector ∈ pool.vectors) : heightRoom vector := by
  rw [poolRoom, Bool.and_eq_true, all_eq_true] at h
  rw [heightRoom]
  simpa using h.1 vector hmem

theorem poolRoom_cursor (h : poolRoom pool = true) {current : Cursor α}
    (hmem : current ∈ pool.cursors) : heightRoom current.cursorSnapshot := by
  rw [poolRoom, Bool.and_eq_true, all_eq_true, all_eq_true] at h
  rw [heightRoom]
  simpa using h.2 current hmem

end Operands

/-! ## Lengths -/

section Lengths

variable {values : List α}

theorem length_replaceAt {same : α → α → Bool} {position : Int} {value : α} :
    ∀ list ∈ replaceAt same position value values, list.length = values.length := by
  intro list hlist
  rw [replaceAt] at hlist
  split at hlist
  · cases hlist
  · cases hlist
    exact length_modify _ _ _

theorem length_insertList {position : Int} {inserted : List α} :
    ∀ list ∈ insertList position inserted values,
      list.length = values.length + inserted.length := by
  intro list hlist
  rw [insertList, splitList] at hlist
  split at hlist
  · cases hlist
  · cases hlist
    simp only [length_append, length_take, length_drop]
    omega

theorem length_removeList {position amount : Int} :
    ∀ list ∈ removeList position amount values, list.length ≤ values.length := by
  intro list hlist
  rw [removeList] at hlist
  split at hlist
  · cases hlist
  · cases hlist
    simp only [length_append, length_take, length_drop]
    omega

theorem length_gapAt {position : Int} (h : values.length ≤ maxBound) :
    ∀ gap ∈ ListGap.at? position values, gap.values.length ≤ maxBound := by
  intro gap hgap
  rw [ListGap.at?] at hgap
  split at hgap
  · cases hgap
  · cases hgap
    exact h

variable {gap : ListGap α}

theorem length_gapInsert {inserted : List α} (h : gap.position ≤ gap.values.length) :
    (gap.insert inserted).values.length = gap.values.length + inserted.length := by
  simp only [ListGap.insert, length_append, length_take, length_drop]
  omega

theorem length_gapDeletePrevious :
    ∀ edited ∈ gap.deletePrevious, edited.values.length ≤ gap.values.length := by
  intro edited hedited
  rw [ListGap.deletePrevious] at hedited
  split at hedited
  · cases hedited
  · cases hedited
    exact length_eraseIdx_le _ _

theorem length_gapDeleteNext :
    ∀ edited ∈ gap.deleteNext, edited.values.length ≤ gap.values.length := by
  intro edited hedited
  rw [ListGap.deleteNext] at hedited
  split at hedited
  · cases hedited
  · cases hedited
    exact length_eraseIdx_le _ _

theorem length_gapReplaceNext {same : α → α → Bool} {value : α} :
    ∀ edited ∈ gap.replaceNext same value, edited.values.length = gap.values.length := by
  intro edited hedited
  rw [ListGap.replaceNext] at hedited
  split at hedited
  · cases hedited
  · cases hedited
    exact length_modify _ _ _

end Lengths

theorem PoolKept.mono {fits more : Prop}
    (h : PoolKept fits pool lists) (himp : more → fits) : PoolKept more pool lists where
  vectors := h.vectors.imp fun _ _ hkept => hkept.mono himp
  cursors := h.cursors.imp fun _ _ hat => hat.mono himp
  values_le := h.values_le
  gaps_le := h.gaps_le

section Steps

variable {fits : Prop} {vector : RrbVector α} {values : List α}

section

variable (h : Kept fits vector values) (hvalues : values.length ≤ maxBound)
  (hheight : heightRoom vector)
include h hvalues hheight

theorem splitAt_does (position : Int) :
    Does fits (.halves? <$> vector.splitAt position) (.halves? (splitList position values)) := by
  rw [heightRoom] at hheight
  obtain ⟨result, hsplit, hrelated⟩ := splitAt_kept h hvalues (by omega) position
  rw [hsplit]
  cases hlists : splitList position values with
  | none =>
      rw [hlists] at hrelated
      cases hrelated
      exact does_missing fits
  | some lists =>
      rw [hlists] at hrelated
      cases hrelated with
      | some hhalves =>
          rw [splitList] at hlists
          split at hlists
          · cases hlists
          · cases hlists
            refine ⟨_, rfl, .cons hhalves.left (.cons hhalves.right .nil), .nil, rfl, ?_, by
              simp [Effect.halves?]⟩
            intro half hhalf
            simp only [Effect.halves?, Option.elim_some, mem_cons, not_mem_nil, or_false] at hhalf
            rcases hhalf with rfl | rfl
            · rw [length_take]
              omega
            · rw [length_drop]
              omega

theorem unsnoc_does :
    Does (fits ∧ unsnocFits vector = true) (.unsnoc? <$> vector.unsnoc)
      (.unsnoc? (unsnocList values)) := by
  obtain ⟨result, hunsnoc, hrelated⟩ := unsnoc_kept h hvalues hheight
  rw [hunsnoc]
  cases hlists : unsnocList values with
  | none =>
      rw [hlists] at hrelated
      cases hrelated
      exact does_missing _
  | some lists =>
      rw [hlists] at hrelated
      cases hrelated with
      | @some found _ hfound =>
          obtain ⟨last, -, hlast⟩ := Option.map_eq_some_iff.mp hlists
          subst hlast
          refine ⟨_, rfl, .cons hfound.1 .nil, .nil, ?_, ?_, by simp [Effect.unsnoc?]⟩
          · simp only [Effect.unsnoc?, Option.elim_some]
            rw [hfound.2]
          · intro rest hrest
            simp only [Effect.unsnoc?, Option.elim_some, mem_singleton] at hrest
            rw [hrest, length_dropLast]
            omega

end

end Steps

namespace Operation

theorem perform_does [BEq α] (identical : α → α → Bool) {fits : Prop} {pool : VectorPool α}
    {lists : ListPool α} (h : PoolKept fits pool lists) (hroom : poolRoom pool = true)
    (operation : Operation α) (hgrowth : operation.growth pool ≤ maxBound) :
    Does (fits ∧ operation.fits pool = true) (operation.perform identical pool)
      (operation.meaning (sameValue identical) lists) := by
  have hpool : PoolKept (fits ∧ operation.fits pool = true) pool lists := h.mono And.left
  cases operation with
  | empty => exact does_vector (Kept.empty _) (zero_le _)
  | singleton value =>
      exact does_made ⟨_, (singleton_spec value).1, singleton_kept _ value⟩ (by
        rw [length_singleton]
        decide)
  | fromList values =>
      obtain ⟨made, hmade, hrepresents, hlow⟩ := fromList_spec hgrowth
      exact does_made ⟨made, hmade, hrepresents, fun _ => le_of_lt hlow⟩ hgrowth
  | toList target =>
      refine withVector_does hpool fun vector values _ _ hkept _ => ?_
      rw [hkept.represents.toList_eq]
      exact does_reply _ _
  | count target =>
      refine withVector_does hpool fun vector values _ _ hkept _ => ?_
      rw [hkept.represents.count_eq]
      exact does_reply _ _
  | null target =>
      refine withVector_does hpool fun vector values _ _ hkept _ => ?_
      rw [hkept.represents.null_eq]
      exact does_reply _ _
  | index position target =>
      refine withVector_does hpool fun vector values _ _ hkept _ => ?_
      rw [index_spec hkept.represents]
      exact does_reply _ _
  | setAt position value target =>
      refine withVector_does hpool fun vector values _ hmem hkept hvalues => ?_
      have hheight := poolRoom_vector hroom hmem
      rw [heightRoom] at hheight
      exact does_made? (setAt_kept hkept hvalues (by omega) identical position value)
        fun list hlist => by rw [length_replaceAt list hlist]; exact hvalues
  | cons value target =>
      refine withVector_does h fun vector values hfound hmem hkept _ => ?_
      simp only [growth, Operation.fits, withVector_some hfound,
        hkept.represents.count_eq] at hgrowth ⊢
      exact does_made (cons_kept hkept hgrowth (poolRoom_vector hroom hmem) value) hgrowth
  | snoc target value =>
      refine withVector_does h fun vector values hfound hmem hkept _ => ?_
      simp only [growth, Operation.fits, withVector_some hfound,
        hkept.represents.count_eq] at hgrowth ⊢
      exact does_made (snoc_kept hkept hgrowth (poolRoom_vector hroom hmem) value)
        (by rw [length_append]; exact hgrowth)
  | append left right =>
      refine withVector_does h fun first lefts hleft hmemLeft hkeptLeft _ => ?_
      refine withVector_does h fun second rights hright hmemRight hkeptRight _ => ?_
      simp only [growth, Operation.fits, withVector_some hleft, withVector_some hright,
        hkeptLeft.represents.count_eq, hkeptRight.represents.count_eq] at hgrowth ⊢
      have hroomLeft := poolRoom_vector hroom hmemLeft
      have hroomRight := poolRoom_vector hroom hmemRight
      rw [heightRoom] at hroomLeft hroomRight
      obtain ⟨joined, happend, hkept, -⟩ := append_kept hkeptLeft hkeptRight hgrowth (by omega)
        (by omega)
      exact does_made ⟨joined, happend, hkept⟩ (by rw [length_append]; exact hgrowth)
  | splitAt position target =>
      exact withVector_does hpool fun vector values _ hmem hkept hvalues =>
        splitAt_does hkept hvalues (poolRoom_vector hroom hmem) position
  | insertListAt position inserted target =>
      refine withVector_does h fun vector values hfound hmem hkept _ => ?_
      simp only [growth, Operation.fits, withVector_some hfound,
        hkept.represents.count_eq] at hgrowth ⊢
      exact does_made? (insertListAt_kept hkept inserted hgrowth (poolRoom_vector hroom hmem)
        position) fun list hlist => by rw [length_insertList list hlist]; exact hgrowth
  | removeRange position amount target =>
      refine withVector_does h fun vector values hfound hmem hkept hvalues => ?_
      rw [Operation.fits, withVector_some hfound]
      exact does_made? (removeRange_kept hkept hvalues (poolRoom_vector hroom hmem) position
        amount) fun list hlist => le_trans (length_removeList list hlist) hvalues
  | unsnoc target =>
      refine withVector_does h fun vector values hfound hmem hkept hvalues => ?_
      rw [Operation.fits, withVector_some hfound]
      exact unsnoc_does hkept hvalues (poolRoom_vector hroom hmem)
  | cursor target =>
      exact withVector_does hpool fun vector values _ _ hkept hvalues =>
        does_cursor (cursor_atGap hkept) hvalues
  | cursorAt position target =>
      exact withVector_does hpool fun vector values _ _ hkept hvalues =>
        does_moved? (cursorAt_atGap hkept position) (length_gapAt hvalues)
  | cursorSnapshot place =>
      exact withCursor_does hpool fun current gap _ _ hat hvalues => does_vector hat.kept hvalues
  | cursorPosition place =>
      refine withCursor_does hpool fun current gap _ _ hat _ => ?_
      rw [hat.position_eq]
      exact does_reply _ _
  | cursorCount place =>
      refine withCursor_does hpool fun current gap _ _ hat _ => ?_
      rw [RrbVector.cursorCount, hat.kept.represents.count_eq]
      exact does_reply _ _
  | cursorIsAtStart place =>
      refine withCursor_does hpool fun current gap _ _ hat _ => ?_
      rw [RrbVector.cursorIsAtStart, hat.position_eq]
      exact does_reply _ _
  | cursorIsAtEnd place =>
      refine withCursor_does hpool fun current gap _ _ hat _ => ?_
      rw [RrbVector.cursorIsAtEnd, RrbVector.cursorCount, hat.position_eq,
        hat.kept.represents.count_eq]
      exact does_reply _ _
  | cursorPeekPrevious place =>
      refine withCursor_does hpool fun current gap _ _ hat _ => ?_
      rw [cursorPeekPrevious_spec hat]
      exact does_reply _ _
  | cursorPeekNext place =>
      refine withCursor_does hpool fun current gap _ _ hat _ => ?_
      rw [cursorPeekNext_spec hat]
      exact does_reply _ _
  | cursorMovePrevious place =>
      exact withCursor_does hpool fun current gap _ _ hat hvalues =>
        does_moved? (cursorMovePrevious_atGap hat) (length_gapAt hvalues)
  | cursorMoveNext place =>
      exact withCursor_does hpool fun current gap _ _ hat hvalues =>
        does_moved? (cursorMoveNext_atGap hat) (length_gapAt hvalues)
  | cursorSeek position place =>
      exact withCursor_does hpool fun current gap _ _ hat hvalues =>
        does_moved? (cursorSeek_atGap hat position) (length_gapAt hvalues)
  | cursorInsert value place =>
      refine withCursor_does h fun current gap hfound hmem hat _ => ?_
      simp only [growth, Operation.fits, withCursor_some hfound, RrbVector.cursorCount,
        hat.kept.represents.count_eq] at hgrowth ⊢
      exact does_moved (cursorInsertList_atGap hat [value] hgrowth (poolRoom_cursor hroom hmem))
        (by rw [length_gapInsert hat.position_le]; exact hgrowth)
  | cursorInsertList inserted place =>
      refine withCursor_does h fun current gap hfound hmem hat _ => ?_
      simp only [growth, Operation.fits, withCursor_some hfound, RrbVector.cursorCount,
        hat.kept.represents.count_eq] at hgrowth ⊢
      exact does_moved (cursorInsertList_atGap hat inserted hgrowth (poolRoom_cursor hroom hmem))
        (by rw [length_gapInsert hat.position_le]; exact hgrowth)
  | cursorInsertVector target place =>
      refine withVector_does h fun inserted values hvector hmemVector hkept _ => ?_
      refine withCursor_does h fun current gap hfound hmem hat _ => ?_
      simp only [growth, Operation.fits, withVector_some hvector, withCursor_some hfound,
        RrbVector.cursorCount, hat.kept.represents.count_eq,
        hkept.represents.count_eq] at hgrowth ⊢
      exact does_moved (cursorInsertVector_atGap hat hkept hgrowth (poolRoom_cursor hroom hmem)
        (poolRoom_vector hroom hmemVector))
        (by rw [length_gapInsert hat.position_le]; exact hgrowth)
  | cursorDeletePrevious place =>
      refine withCursor_does h fun current gap hfound hmem hat hvalues => ?_
      rw [Operation.fits, withCursor_some hfound]
      exact does_edited? (cursorDeletePrevious_atGap hat hvalues (poolRoom_cursor hroom hmem))
        fun edited hedited => le_trans (length_gapDeletePrevious edited hedited) hvalues
  | cursorDeleteNext place =>
      refine withCursor_does h fun current gap hfound hmem hat hvalues => ?_
      rw [Operation.fits, withCursor_some hfound]
      exact does_edited? (cursorDeleteNext_atGap hat hvalues (poolRoom_cursor hroom hmem))
        fun edited hedited => le_trans (length_gapDeleteNext edited hedited) hvalues
  | cursorReplaceNext value place =>
      refine withCursor_does hpool fun current gap _ hmem hat hvalues => ?_
      exact does_edited? (cursorReplaceNext_atGap hat hvalues (poolRoom_cursor hroom hmem)
        identical value)
        fun edited hedited => by rw [length_gapReplaceNext edited hedited]; exact hvalues

end Operation

theorem run_keeps [BEq α] (identical : α → α → Bool) {fits : Prop}
    {check : VectorPool α → Operation α → Bool}
    (hcheck : ∀ pool lists operation, PoolKept fits pool lists → check pool operation = true →
      operation.growth pool ≤ maxBound ∧ poolRoom pool = true ∧ (fits → operation.fits pool = true))
    {operations : List (Operation α)}
    (h : PoolKept fits pool lists)
    (hsteps : everyStep identical check pool operations = true) :
    ∃ final, run identical pool operations =
        .ok (final, (listRun (sameValue identical) lists operations).2) ∧
      PoolKept fits final (listRun (sameValue identical) lists operations).1 := by
  induction operations generalizing pool lists with
  | nil => exact ⟨pool, rfl, h⟩
  | cons operation operations ih =>
      rw [everyStep, Bool.and_eq_true] at hsteps
      obtain ⟨hstep, hrest⟩ := hsteps
      obtain ⟨hgrowth, hroom, hfits⟩ := hcheck pool lists operation h hstep
      obtain ⟨effect, hperform, hkept⟩ := operation.perform_does identical h hroom hgrowth
      rw [hperform] at hrest
      have hnext := (h.after hkept And.left).mono fun himp : fits => ⟨himp, hfits himp⟩
      obtain ⟨final, hrun, hfinal⟩ := ih hnext hrest
      refine ⟨final, ?_, hfinal⟩
      rw [run, hperform, except_ok_bind, hrun, except_ok_bind, hkept.answer_eq]
      rfl

/-- The counts and the heights that a step makes are numbers of the source's `Int`. -/
def withinBounds (pool : VectorPool α) (operation : Operation α) : Bool :=
  operation.growth pool ≤ maxBound && poolRoom pool

theorem Kept.toList_all {fits : Prop} {vectors : List (RrbVector α)} {lists : List (List α)}
    (h : List.Forall₂ (Kept fits) vectors lists) : vectors.map toList = lists := by
  induction h with
  | nil => rfl
  | cons hkept _ ih => rw [map_cons, hkept.represents.toList_eq, ih]

theorem AtGap.gap_all {fits : Prop} {cursors : List (Cursor α)} {gaps : List (ListGap α)}
    (h : List.Forall₂ (AtGap fits) cursors gaps) :
    cursors.map (fun current => ⟨current.cursorSnapshot.toList, current.cursorPosition⟩) =
      gaps := by
  induction h with
  | nil => rfl
  | cons hat _ ih => rw [map_cons, hat.kept.represents.toList_eq, hat.position_eq, ih]

/--
Every session within the bounds runs to its end, so it takes no error branch.  Its
vectors and cursors show the lists of the same session on lists, and its answers are
the same.  A replaced element stays where the source takes it for the same value.
-/
theorem operations_refine [BEq α] (identical : α → α → Bool) (operations : List (Operation α))
    (h : everyStep identical withinBounds Pool.start operations = true) :
    ∃ final answers, run identical Pool.start operations = .ok (final, answers) ∧
      answers = (listRun (sameValue identical) Pool.start operations).2 ∧
      final.vectors.map toList = (listRun (sameValue identical) Pool.start operations).1.vectors ∧
      final.cursors.map (fun current => ⟨current.cursorSnapshot.toList, current.cursorPosition⟩) =
        (listRun (sameValue identical) Pool.start operations).1.cursors := by
  have hcheck : ∀ (pool : VectorPool α) (lists : ListPool α) (operation : Operation α),
      PoolKept False pool lists → withinBounds pool operation = true →
      operation.growth pool ≤ maxBound ∧ poolRoom pool = true ∧
        (False → operation.fits pool = true) := by
    intro pool lists operation _ hbounds
    rw [withinBounds, Bool.and_eq_true, decide_eq_true_iff] at hbounds
    exact ⟨hbounds.1, hbounds.2, False.elim⟩
  obtain ⟨final, hrun, hkept⟩ := run_keeps identical hcheck (PoolKept.start False) h
  exact ⟨final, _, hrun, rfl, Kept.toList_all hkept.vectors, AtGap.gap_all hkept.cursors⟩

theorem run_refines_append :
    everyStep (fun _ _ => false) withinBounds Pool.start
        [.fromList [1, 2], .append 0 0, .cursorAt 2 0, .cursorDeleteNext 0, .toList 0] = true ∧
      ∃ final answers, run (fun _ _ => false) Pool.start
        [Operation.fromList [1, 2], .append 0 0, .cursorAt 2 0, .cursorDeleteNext 0, .toList 0] =
          .ok (final, answers) ∧
        answers = [.done, .done, .done, .done, .elements [1, 2, 1, 2]] := by
  have hsteps : everyStep (fun _ _ => false) withinBounds Pool.start
      [Operation.fromList [1, 2], .append 0 0, .cursorAt 2 0, .cursorDeleteNext 0, .toList 0] =
        true := by
    decide +kernel
  obtain ⟨final, answers, hrun, hanswers, -⟩ := operations_refine (fun _ _ => false)
    [Operation.fromList [1, 2], .append 0 0, .cursorAt 2 0, .cursorDeleteNext 0, .toList 0] hsteps
  exact ⟨hsteps, final, answers, hrun, hanswers.trans rfl⟩

/-- Pairs that are compared by their first parts: the old pair stays in its place. -/
theorem setAt_keeps_equal :
    let compareFirst : BEq (Nat × Nat) := ⟨fun left right => left.1 == right.1⟩
    (run (fun _ _ => false) Pool.start
        [Operation.fromList [(1, 1)], .setAt 0 (1, 2) 0, .toList 0]).map Prod.snd =
      .ok [.done, .done, .elements [(1, 1)]] ∧
    ([(1, 1)] : List (Nat × Nat)).set 0 (1, 2) = [(1, 2)] := by
  decide +kernel

end Durable7.FingerTree.RrbVector
