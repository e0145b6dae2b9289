import Durable7.FingerTree.PersistentRunDeltaVector.Model

/-!
# Edits of run-delta vectors

Every edit acts on the cells behind the two roots as it does on the lists of the model,
and takes at most two levels of the room that is left for the heights of the roots.
-/

namespace Durable7.FingerTree.PersistentRunDeltaVector

open Foundation List RrbVector Nat

section

open Bool
open RrbVector (Represents maxBound sameValue)

variable {α : Type} {policy : EqualityPolicy α}

structure Coherent (policy : EqualityPolicy α) (cellCounter room : Nat)
    (vector : PersistentRunDeltaVector α) (current checkpoint : List (Cell α)) : Prop where
  equality : vector.vectorEquality = policy
  bounded : current.length ≤ maxBound
  currentShown : Represents vector.vectorCurrent current
  checkpointShown : Represents vector.vectorCheckpoint checkpoint
  currentRoom : vector.vectorCurrent.height + room ≤ maxBound
  checkpointRoom : vector.vectorCheckpoint.height + room ≤ maxBound
  tracks : Tracks policy current checkpoint vector.vectorRuns
  counted : vector.vectorDirtyCount = totalLength vector.vectorRuns
  issued : Issued cellCounter (current ++ checkpoint)

/-- The vector shows the two lists of values. -/
def Refines (policy : EqualityPolicy α) (cellCounter room : Nat)
    (vector : PersistentRunDeltaVector α) (model : ListModel α) : Prop :=
  ∃ current checkpoint, Coherent policy cellCounter room vector current checkpoint ∧
    modelOf current checkpoint = model

section Edits

variable {cellCounter room : Nat} {vector : PersistentRunDeltaVector α}
  {current checkpoint : List (Cell α)}

section

variable (h : Coherent policy cellCounter room vector current checkpoint)
include h

theorem Coherent.mono {next less : Nat} (hnext : cellCounter ≤ next) (hless : less ≤ room) :
    Coherent policy next less vector current checkpoint :=
  { h with
    currentRoom := Nat.le_trans (Nat.add_le_add_left hless _) h.currentRoom
    checkpointRoom := Nat.le_trans (Nat.add_le_add_left hless _) h.checkpointRoom
    issued := h.issued.mono hnext fun _ hcell => hcell }

theorem Coherent.refines : Refines policy cellCounter room vector (modelOf current checkpoint) :=
  ⟨current, checkpoint, h, rfl⟩

end

/-! ## Reads -/

theorem onVector_ok {β : Type} (result : β) :
    onVector (.ok result : Except RrbVector.RrbError β) = .ok result := rfl

theorem expectCell_some (cell : Cell α) : expectCell (some cell) = .ok cell := rfl

section

variable (h : Coherent policy cellCounter room vector current checkpoint)
include h

theorem Coherent.index_current (position : Int) :
    onVector (RrbVector.index position vector.vectorCurrent) =
      .ok (elementAt position current) := by
  rw [index_spec h.currentShown]
  rfl

theorem Coherent.index_checkpoint (position : Int) :
    onVector (RrbVector.index position vector.vectorCheckpoint) =
      .ok (elementAt position checkpoint) := by
  rw [index_spec h.checkpointShown]
  rfl

theorem Coherent.count_eq : count vector = current.length := h.currentShown.count_eq

theorem Coherent.base
    {position : Int} {cell : Cell α} (hcell : elementAt position current = some cell) :
    ∃ base, elementAt position checkpoint = some base := by
  obtain ⟨hlow, hhigh⟩ := elementAt_inside hcell
  rw [h.tracks.length_eq] at hhigh
  exact elementAt_isSome hlow hhigh

theorem Coherent.cell
    {position : Int} {base : Cell α} (hbase : elementAt position checkpoint = some base) :
    ∃ cell, elementAt position current = some cell := by
  obtain ⟨hlow, hhigh⟩ := elementAt_inside hbase
  rw [← h.tracks.length_eq] at hhigh
  exact elementAt_isSome hlow hhigh

end

section

variable {runs : SortedMap Int Int} {marked : Int → Prop} (h : Indexes runs marked)
  (hruns : vector.vectorRuns = runs)
include h hruns

theorem findDirtyRun_dirty {position : Int} (hmarked : marked position) :
    ∃ start stop, findDirtyRun position vector = some (entryToRun (start, stop)) ∧
      ends runs start = some stop ∧ start ≤ position ∧ position < stop := by
  obtain ⟨start, stop, hfloor, hends, hlow, hhigh⟩ := h.floorEntry_marked hmarked
  refine ⟨start, stop, ?_, hends, hlow, hhigh⟩
  rw [findDirtyRun, hruns, hfloor]
  exact if_pos hhigh

theorem findDirtyRun_clean {position : Int}
    (hclear : ¬ marked position) : findDirtyRun position vector = none := by
  rw [findDirtyRun, hruns]
  cases hfloor : SortedMap.floorEntry position runs with
  | none => rfl
  | some entry =>
      have := h.floorEntry_clear hclear hfloor
      exact if_neg (by omega)

end

variable {identical : Cell α → Cell α → Bool}

theorem replaceAt_cell {cells : List (Cell α)}
    {position : Int} {old replacement : Cell α} (hold : elementAt position cells = some old)
    (hsame : sameValue identical old replacement = true → old = replacement) :
    replaceAt (sameValue identical) position replacement cells =
      some (cells.set position.toNat replacement) := by
  obtain ⟨hlow, hget⟩ := elementAt_eq_some.mp hold
  obtain ⟨-, hhigh⟩ := elementAt_inside hold
  rw [replaceAt, if_neg (by omega), modify_of_getElem? hget]
  split
  · next heq => rw [hsame heq]
  · rfl

/-- What a write may store: the checkpoint's own cell, or a new one of another class. -/
inductive Stored (policy : EqualityPolicy α) (cellCounter : Nat) (base : Cell α) :
    Cell α → Nat → Prop
  | restored : Stored policy cellCounter base base cellCounter
  | drawn (value : α) : policy.policyEquals value base.cellValue = false →
      Stored policy cellCounter base ⟨cellCounter, value⟩ (cellCounter + 1)

section

variable {base replacement : Cell α} {next : Nat}
  (h : Stored policy cellCounter base replacement next)
include h

theorem Stored.shared (hequal : policy.policyEquals replacement.cellValue base.cellValue = true) :
    replacement = base := by
  cases h with
  | restored => rfl
  | drawn value hdiffers =>
      rw [hdiffers] at hequal
      cases hequal

theorem Stored.issued {cells : List (Cell α)} (hissued : Issued cellCounter cells)
    (hbase : base ∈ cells) : Issued next (replacement :: cells) ∧ cellCounter ≤ next := by
  cases h with
  | restored =>
      refine ⟨hissued.mono (le_refl _) ?_, le_refl _⟩
      rw [forall_mem_cons]
      exact ⟨hbase, fun _ hcell => hcell⟩
  | drawn value _ => exact ⟨hissued.cons value, le_succ _⟩

end

theorem mem_of_elementAt {values : List α} {position : Int} {value : α}
    (h : elementAt position values = some value) : value ∈ values :=
  mem_of_getElem? (elementAt_eq_some.mp h).2

theorem nextRuns_spec (h : Coherent policy cellCounter room vector current checkpoint)
    (position : Int) (remainsDirty : Bool) :
    ∃ runs, (if !(findDirtyRun position vector).isSome && remainsDirty then
          .ok (addDirtyPosition position vector.vectorRuns)
        else if (findDirtyRun position vector).isSome && !remainsDirty then
          removeDirtyPosition position vector.vectorRuns
        else .ok vector.vectorRuns) = (.ok runs : Except RunDeltaError _) ∧
      Indexes runs (fun other => if other = position then remainsDirty = true
        else DiffersAt policy current checkpoint other) ∧
      (if !(findDirtyRun position vector).isSome && remainsDirty then vector.vectorDirtyCount + 1
        else if (findDirtyRun position vector).isSome && !remainsDirty then
          vector.vectorDirtyCount - 1
        else vector.vectorDirtyCount) = totalLength runs := by
  have hindexed := h.tracks.indexed
  by_cases hmarked : DiffersAt policy current checkpoint position
  · obtain ⟨start, stop, hfound, -⟩ := findDirtyRun_dirty hindexed rfl hmarked
    rw [hfound]
    cases remainsDirty with
    | true =>
        refine ⟨vector.vectorRuns, rfl, hindexed.congr fun other => ?_, h.counted⟩
        split
        · next hsame => exact iff_of_true rfl (hsame ▸ hmarked)
        · exact Iff.rfl
    | false =>
        obtain ⟨next, hremove, hnext, htotal⟩ := removeDirtyPosition_spec hindexed hmarked
        refine ⟨next, hremove, hnext.congr fun other => ?_, ?_⟩
        · split
          · next hsame => exact iff_of_false false_ne_true fun hboth => hboth.1 hsame
          · next hne => exact (and_iff_right hne).symm
        · rw [htotal, ← h.counted]
          rfl
  · rw [findDirtyRun_clean hindexed rfl hmarked]
    cases remainsDirty with
    | true =>
        obtain ⟨hnext, htotal⟩ := addDirtyPosition_spec hindexed hmarked
        refine ⟨addDirtyPosition position vector.vectorRuns, rfl, hnext.congr fun other => ?_, ?_⟩
        · split
          · next hsame => exact iff_of_true rfl (.inl hsame)
          · next hne => exact (or_iff_right hne).symm
        · rw [htotal, ← h.counted]
          rfl
    | false =>
        refine ⟨vector.vectorRuns, rfl, hindexed.congr fun other => ?_, h.counted⟩
        split
        · next hsame => exact iff_of_false false_ne_true (hsame ▸ hmarked)
        · exact Iff.rfl

theorem replaceCell_spec (hidentical : ∀ left right, identical left right = true → left = right)
    (h : Coherent policy cellCounter room vector current checkpoint) {position : Int}
    {old base replacement : Cell α} {next : Nat} (hold : elementAt position current = some old)
    (hbase : elementAt position checkpoint = some base)
    (hstored : Stored policy cellCounter base replacement next) :
    ∃ replaced, replaceCell identical position replacement
        (!policy.policyEquals replacement.cellValue base.cellValue) vector = .ok replaced ∧
      Coherent policy next room replaced (current.set position.toNat replacement) checkpoint := by
  obtain ⟨runs, hruns, hindexed, hcount⟩ := nextRuns_spec h position
    (!policy.policyEquals replacement.cellValue base.cellValue)
  have hbaseMem : base ∈ current ++ checkpoint := mem_append_right _ (mem_of_elementAt hbase)
  have holdMem : old ∈ current ++ checkpoint := mem_append_left _ (mem_of_elementAt hold)
  obtain ⟨hissued, hnext⟩ := hstored.issued h.issued hbaseMem
  have htracks : Tracks policy (current.set position.toNat replacement) checkpoint runs := by
    apply h.tracks.replace hbase hstored.shared
    apply hindexed.congr
    intro other
    rw [not_eq_true']
  have hsame : sameValue identical old replacement = true → old = replacement := by
    rw [sameValue, or_eq_true]
    rintro (hpointer | htoken)
    · exact hidentical _ _ hpointer
    · exact hissued.unique old (mem_cons_of_mem _ holdMem) replacement mem_cons_self
        (beq_iff_eq.mp htoken)
  obtain ⟨result, hset, hrelated⟩ := setAt_spec h.currentShown h.bounded
    (le_trans (le_add_right _ _) h.currentRoom) identical position replacement
  rw [replaceAt_cell hold hsame] at hrelated
  cases hrelated with
  | @some updated _ hupdated =>
      obtain ⟨hshown, hheight⟩ := hupdated
      have hcells : ∀ cell ∈ current.set position.toNat replacement ++ checkpoint,
          cell ∈ replacement :: (current ++ checkpoint) := by
        intro cell hcell
        rcases mem_append.mp hcell with hcell | hcell
        · rcases mem_or_eq_of_mem_set hcell with hcell | rfl
          · exact mem_cons_of_mem _ (mem_append_left _ hcell)
          · exact mem_cons_self
        · exact mem_cons_of_mem _ (mem_append_right _ hcell)
      unfold replaceCell
      dsimp only
      rw [hruns, except_bind_ok]
      by_cases hnull : SortedMap.null runs = true
      · rw [if_pos hnull, except_bind_ok]
        refine ⟨_, rfl, ?_⟩
        have hcurrent := htracks.eq_of_clean hnull
        exact {
          equality := h.equality
          bounded := by
            rw [length_set]
            exact h.bounded
          currentShown := hcurrent ▸ h.checkpointShown
          checkpointShown := h.checkpointShown
          currentRoom := h.checkpointRoom
          checkpointRoom := h.checkpointRoom
          tracks := htracks
          counted := hcount
          issued := hissued.mono (le_refl _) hcells }
      · rw [if_neg hnull, hset, onVector_ok, except_ok_bind, presentOr, Option.elim_some,
          except_bind_ok]
        refine ⟨_, rfl, ?_⟩
        exact {
          equality := h.equality
          bounded := by
            rw [length_set]
            exact h.bounded
          currentShown := hshown
          checkpointShown := h.checkpointShown
          currentRoom := by
            rw [hheight]
            exact h.currentRoom
          checkpointRoom := h.checkpointRoom
          tracks := htracks
          counted := hcount
          issued := hissued.mono (le_refl _) hcells }

end Edits

end

/-!
## Steps of run-delta vectors

One step on a vector that shows the model's lists gives a vector that shows the lists
after the model's step.
-/

open RrbVector (Represents maxBound Kept)

variable {α : Type} {policy : EqualityPolicy α} {cellCounter room : Nat}
  {vector : PersistentRunDeltaVector α} {current checkpoint : List (Cell α)} {model : ListModel α}

/-- A result that may be missing shows the model's result. -/
def Moves (policy : EqualityPolicy α) (cellCounter room : Nat)
    (outcome : Except RunDeltaError (Option (PersistentRunDeltaVector α)))
    (expected : Option (ListModel α)) : Prop :=
  ∃ result, outcome = .ok result ∧ Option.Rel (Refines policy cellCounter room) result expected

/-- The same with the counter behind the cells that were drawn. -/
def Draws (policy : EqualityPolicy α) (cellCounter room : Nat)
    (outcome : Except RunDeltaError (Option (PersistentRunDeltaVector α) × Nat))
    (expected : Option (ListModel α)) : Prop :=
  ∃ result next, outcome = .ok (result, next) ∧ cellCounter ≤ next ∧
    Option.Rel (Refines policy next room) result expected

/-! ### Whole checkpoints -/

theorem length_le_totalLength {entries : List (Int × Int)}
    (h : ∀ entry ∈ entries, entry.1 < entry.2) :
    (entries.length : Int) ≤ (entries.map fun entry => entry.2 - entry.1).sum := by
  induction entries with
  | nil => exact Int.le_refl 0
  | cons entry entries ih =>
      rw [forall_mem_cons] at h
      have := ih h.2
      rw [map_cons, sum_cons, length_cons]
      omega

section

variable (h : Coherent policy cellCounter room vector current checkpoint)
include h

theorem Coherent.hasChanges_eq :
    hasChanges vector = false ↔ SortedMap.null vector.vectorRuns = true := by
  rw [hasChanges, h.counted, bne_eq_false_iff_eq, SortedMap.null_iff, totalLength]
  have hle := length_le_totalLength h.tracks.indexed.encodesList.nonempty
  constructor
  · intro hzero
    rw [hzero] at hle
    exact length_eq_zero_iff.mp (by omega)
  · intro hnil
    rw [hnil]
    rfl

theorem Coherent.eq_of_unchanged (hclean : hasChanges vector = false) : current = checkpoint :=
  h.tracks.eq_of_clean (h.hasChanges_eq.mp hclean)

end

section Lawful

variable [LawfulEquality policy]

theorem cleanVector_coherent {root : RrbVector (Cell α)} {cells : List (Cell α)}
    (hbounded : cells.length ≤ maxBound) (hshown : Represents root cells)
    (hroom : root.height + room ≤ maxBound) (hissued : Issued cellCounter cells) :
    Coherent policy cellCounter room (cleanVector policy root) cells cells where
  equality := rfl
  bounded := hbounded
  currentShown := hshown
  checkpointShown := hshown
  currentRoom := hroom
  checkpointRoom := hroom
  tracks := Tracks.clean cells
  counted := totalLength_empty.symm
  issued := hissued.mono (le_refl _) fun cell hcell => by
    rcases mem_append.mp hcell with hcell | hcell <;> exact hcell

section

variable (h : Coherent policy cellCounter room vector current checkpoint)
include h

theorem checkpoint_coherent :
    Coherent policy cellCounter room (PersistentRunDeltaVector.checkpoint vector) current
      current := by
  unfold PersistentRunDeltaVector.checkpoint
  split
  · next hclean =>
    have heq := h.eq_of_unchanged (by simpa using hclean)
    rw [← heq] at h
    exact h
  · rw [h.equality]
    exact cleanVector_coherent h.bounded h.currentShown h.currentRoom
      (h.issued.mono (le_refl _) fun _ hcell => mem_append_left _ hcell)

theorem rollback_coherent :
    Coherent policy cellCounter room (rollback vector) checkpoint checkpoint := by
  unfold rollback
  split
  · next hclean =>
    have heq := h.eq_of_unchanged (by simpa using hclean)
    rw [heq] at h
    exact h
  · rw [h.equality]
    exact cleanVector_coherent (h.tracks.length_eq ▸ h.bounded) h.checkpointShown h.checkpointRoom
      (h.issued.mono (le_refl _) fun _ hcell => mem_append_right _ hcell)

end

end Lawful

theorem map_set {cells : List (Cell α)} {place : Nat} {cell : Cell α} :
    (cells.set place cell).map Cell.cellValue =
      (cells.map Cell.cellValue).set place cell.cellValue :=
  List.map_set

theorem set_same {cells : List (Cell α)} {position : Int} {cell : Cell α}
    (h : elementAt position cells = some cell) : cells.set position.toNat cell = cells := by
  obtain ⟨-, hget⟩ := elementAt_eq_some.mp h
  obtain ⟨hlt, hget⟩ := List.getElem?_eq_some_iff.mp hget
  rw [← hget, set_getElem_self]

section Writes

variable [lawful : LawfulEquality policy] {identical : Cell α → Cell α → Bool}
  (hidentical : ∀ left right, identical left right = true → left = right)

include hidentical

theorem setAt_draws (h : Refines policy cellCounter room vector model) (position : Int)
    (value : α) :
    Draws policy cellCounter room (setAt identical cellCounter position value vector)
      (ListModel.setAt policy position value model) := by
  obtain ⟨current, checkpoint, h, rfl⟩ := h
  unfold setAt ListModel.setAt
  rw [h.index_current, except_bind_ok, modelOf, elementAt_map, elementAt_map]
  cases hold : elementAt position current with
  | none => exact ⟨none, cellCounter, rfl, le_refl _, .none⟩
  | some old =>
      obtain ⟨base, hbase⟩ := h.base hold
      rw [hbase, h.equality, Option.map_some, Option.map_some]
      dsimp only
      rw [ListModel.written]
      by_cases hequal : policy.policyEquals old.cellValue value = true
      · rw [if_pos hequal, if_pos hequal]
        refine ⟨some vector, cellCounter, rfl, le_refl _, .some ⟨current, checkpoint, h, ?_⟩⟩
        rw [modelOf, ← map_set, set_same hold]
      · rw [if_neg hequal, if_neg hequal, h.index_checkpoint, hbase, except_ok_bind,
          expectCell_some, except_bind_ok]
        by_cases hrestores : policy.policyEquals base.cellValue value = true
        · obtain ⟨replaced, hreplace, hcoherent⟩ :=
            replaceCell_spec hidentical h hold hbase .restored
          rw [lawful.refl, Bool.not_true] at hreplace
          rw [hrestores, if_pos rfl]
          rw [Bool.not_true, if_neg Bool.false_ne_true, hreplace, except_bind_ok]
          refine ⟨some replaced, cellCounter, rfl, le_refl _, .some ⟨_, checkpoint, hcoherent, ?_⟩⟩
          rw [modelOf, map_set]
        · have hdiffers : policy.policyEquals value base.cellValue = false := by
            rw [← Bool.not_eq_true]
            exact fun heq => hrestores (lawful.symm _ _ heq)
          obtain ⟨replaced, hreplace, hcoherent⟩ :=
            replaceCell_spec hidentical h hold hbase (.drawn value hdiffers)
          rw [hdiffers, Bool.not_false] at hreplace
          rw [if_neg hrestores, Bool.eq_false_of_not_eq_true hrestores]
          rw [Bool.not_false, if_pos rfl, newCell]
          dsimp only
          rw [hreplace, except_bind_ok]
          refine ⟨some replaced, cellCounter + 1, rfl, le_succ _,
            .some ⟨_, checkpoint, hcoherent, ?_⟩⟩
          rw [modelOf, map_set]

theorem resetAt_moves (h : Refines policy cellCounter room vector model) (position : Int) :
    Moves policy cellCounter room (resetAt identical position vector)
      (ListModel.resetAt position model) := by
  obtain ⟨current, checkpoint, h, rfl⟩ := h
  unfold resetAt ListModel.resetAt
  rw [h.index_checkpoint, except_bind_ok, modelOf, elementAt_map]
  cases hbase : elementAt position checkpoint with
  | none => exact ⟨none, rfl, .none⟩
  | some base =>
      obtain ⟨old, hold⟩ := h.cell hbase
      rw [h.index_current, hold, except_ok_bind, expectCell_some, h.equality]
      dsimp only
      rw [except_bind_ok, Option.map_some, Option.map_some]
      by_cases hequal : policy.policyEquals old.cellValue base.cellValue = true
      · have hclean : ¬ DiffersAt policy current checkpoint position := by
          rintro ⟨left, right, hleft, hright, hdiffers⟩
          rw [hold, Option.some_inj] at hleft
          rw [hbase, Option.some_inj] at hright
          rw [← hleft, ← hright, hequal] at hdiffers
          cases hdiffers
        have hsame := h.tracks.shared position hclean
        rw [hold, hbase, Option.some_inj] at hsame
        rw [if_pos hequal]
        refine ⟨some vector, rfl, .some ⟨current, checkpoint, h, ?_⟩⟩
        rw [modelOf, ← map_set, ← hsame, set_same hold]
      · obtain ⟨replaced, hreplace, hcoherent⟩ := replaceCell_spec hidentical h hold hbase .restored
        rw [lawful.refl, Bool.not_true] at hreplace
        rw [if_neg hequal, hreplace]
        refine ⟨some replaced, rfl, .some ⟨_, checkpoint, hcoherent, ?_⟩⟩
        rw [modelOf, map_set]

end Writes

theorem expectSplit_ok {result : Except RrbVector.RrbError (Option (RrbVector α × RrbVector α))}
    {parts : RrbVector α × RrbVector α} (h : result = .ok (some parts)) :
    onVector result >>= expectSplit = .ok parts := by
  rw [h]
  rfl

theorem replaceRange_spec {destination source : RrbVector (Cell α)} {cells others : List (Cell α)}
    {start amount : Int} (hcells : Represents destination cells)
    (hothers : Represents source others)
    (hlength : others.length = cells.length) (hbounded : cells.length ≤ maxBound)
    (hroom : destination.height + 2 + room ≤ maxBound)
    (hroom' : source.height + 2 + room ≤ maxBound)
    (hstart : 0 ≤ start) (hamount : 0 ≤ amount) (hinside : start + amount ≤ cells.length) :
    ∃ joined, replaceRange destination source ⟨start, amount⟩ = .ok joined ∧
      Represents joined (spliceList start amount cells others) ∧
      joined.height + room ≤ maxBound := by
  unfold replaceRange
  dsimp only
  rw [hcells.count_eq]
  split
  · next hwhole =>
    refine ⟨source, rfl, ?_, by omega⟩
    rw [spliceList, hwhole.1, hwhole.2, Int.toNat_natCast, ← hlength]
    simp only [Int.toNat_zero, take_zero, drop_zero, take_length, nil_append]
    rw [hlength, drop_length, append_nil]
    exact hothers
  · have hdestination : Kept False destination cells := ⟨hcells, False.elim⟩
    have hsource : Kept False source others := ⟨hothers, False.elim⟩
    obtain ⟨left, rest, hleft, hleftHalves⟩ := splitAt_inside hdestination hbounded
      (by omega) hstart (show start ≤ cells.length by omega)
    obtain ⟨skipped, right, hright, hrightHalves⟩ := splitAt_inside hleftHalves.right
      (by rw [length_drop]; omega) (le_trans hleftHalves.right_le (by omega)) hamount
      (show amount ≤ ((cells.drop start.toNat).length : Int) by rw [length_drop]; omega)
    obtain ⟨front, sourceRest, hfront, hfrontHalves⟩ := splitAt_inside hsource
      (by omega) (by omega) hstart (show start ≤ others.length by omega)
    obtain ⟨middle, back, hmiddle, hmiddleHalves⟩ := splitAt_inside hfrontHalves.right
      (by rw [length_drop]; omega) (le_trans hfrontHalves.right_le (by omega)) hamount
      (show amount ≤ ((others.drop start.toNat).length : Int) by rw [length_drop]; omega)
    have hleftShown : Represents left (cells.take start.toNat) := hleftHalves.left.represents
    have hmiddleShown : Represents middle ((others.drop start.toNat).take amount.toNat) :=
      hmiddleHalves.left.represents
    have hrightShown : Represents right ((cells.drop start.toNat).drop amount.toNat) :=
      hrightHalves.right.represents
    have hleftLe := hleftHalves.left_le
    have hmiddleLe := le_trans hmiddleHalves.left_le hfrontHalves.right_le
    have hrightLe := le_trans hrightHalves.right_le hleftHalves.right_le
    dsimp only at hleftLe hmiddleLe hrightLe
    obtain ⟨first, hfirst, hfirstShown, hfirstLe, -, -, hfirstWidth⟩ :=
      append_spec hleftShown hmiddleShown
        (by simp only [length_take, length_drop]; omega) (by omega) (by omega)
    obtain ⟨joined, hjoined, hjoinedShown, hjoinedLe, -, -, hjoinedWidth⟩ :=
      append_spec hfirstShown hrightShown
        (by simp only [length_append, length_take, length_drop]; omega)
        (by omega) (by omega)
    refine ⟨joined, ?_, hjoinedShown, by omega⟩
    rw [expectSplit_ok hleft, except_ok_bind]
    dsimp only
    rw [expectSplit_ok hright, except_ok_bind]
    dsimp only
    rw [expectSplit_ok hfront, except_ok_bind]
    dsimp only
    rw [expectSplit_ok hmiddle, except_ok_bind]
    dsimp only
    rw [hfirst, onVector_ok, except_ok_bind, hjoined]
    rfl

theorem Coherent.only_run (h : Coherent policy cellCounter room vector current checkpoint)
    {start stop : Int} (hends : ends vector.vectorRuns start = some stop)
    (hone : dirtyRunCount vector = 1) :
    ∀ start' stop', ends vector.vectorRuns start' = some stop' → start' = start := by
  intro start' stop' hends'
  rw [dirtyRunCount, SortedMap.count_eq, length_eq_one_iff] at hone
  obtain ⟨only, honly⟩ := hone
  rw [ends_eq_some h.tracks.indexed.sorted, honly, mem_singleton] at hends hends'
  rw [← hends, Prod.mk.injEq] at hends'
  exact hends'.1

section RunEdits

variable [LawfulEquality policy]
  (h : Coherent policy cellCounter (room + 2) vector current checkpoint) {start stop : Int}
  (hends : ends vector.vectorRuns start = some stop)

include h hends

theorem acceptRun_spec :
    ∃ accepted, acceptRun vector (entryToRun (start, stop)) = .ok accepted ∧
      Coherent policy cellCounter room accepted current
        (spliceList start (stop - start) checkpoint current) := by
  obtain ⟨hlow, hrun, hhigh⟩ := h.tracks.run_inside hends
  have hlength := h.tracks.length_eq
  unfold acceptRun
  split
  · next hone =>
    have hwhole := (h.tracks.splice_only hends (h.only_run hends hone)).1
    refine ⟨_, rfl, ?_⟩
    rw [hwhole]
    exact (checkpoint_coherent h).mono (le_refl _) (le_add_right _ _)
  · have hroom := h.currentRoom
    have hroom' := h.checkpointRoom
    have hbounded := h.bounded
    obtain ⟨joined, hjoined, hshown, hheight⟩ := replaceRange_spec h.checkpointShown h.currentShown
      hlength (by omega) (show _ + 2 + room ≤ maxBound by omega) (by omega) hlow
      (show 0 ≤ stop - start by omega) (by omega)
    rw [entryToRun]
    dsimp only
    rw [hjoined, except_bind_ok]
    refine ⟨_, rfl, ?_⟩
    exact {
      equality := h.equality
      bounded := hbounded
      currentShown := h.currentShown
      checkpointShown := hshown
      currentRoom := by dsimp only; omega
      checkpointRoom := hheight
      tracks := h.tracks.accept hends
      counted := by rw [(h.tracks.indexed.dropRun hends).2, ← h.counted]
      issued := h.issued.mono (le_refl _) fun cell hcell => by
        rcases mem_append.mp hcell with hcell | hcell
        · exact mem_append_left _ hcell
        · exact mem_append.mpr (mem_splice hcell).symm }

theorem revertRun_spec :
    ∃ reverted, revertRun vector (entryToRun (start, stop)) = .ok reverted ∧
      Coherent policy cellCounter room reverted
        (spliceList start (stop - start) current checkpoint) checkpoint := by
  obtain ⟨hlow, hrun, hhigh⟩ := h.tracks.run_inside hends
  have hlength := h.tracks.length_eq
  unfold revertRun
  split
  · next hone =>
    have hwhole := (h.tracks.splice_only hends (h.only_run hends hone)).2
    refine ⟨_, rfl, ?_⟩
    rw [hwhole]
    exact (rollback_coherent h).mono (le_refl _) (le_add_right _ _)
  · have hroom := h.currentRoom
    have hroom' := h.checkpointRoom
    have hbounded := h.bounded
    obtain ⟨joined, hjoined, hshown, hheight⟩ := replaceRange_spec h.currentShown h.checkpointShown
      hlength.symm hbounded (show _ + 2 + room ≤ maxBound by omega) (by omega) hlow
      (show 0 ≤ stop - start by omega) (by omega)
    rw [entryToRun]
    dsimp only
    rw [hjoined, except_bind_ok]
    refine ⟨_, rfl, ?_⟩
    exact {
      equality := h.equality
      bounded := by
        rw [length_spliceList hlow (by omega) (by omega) hlength.symm]
        exact hbounded
      currentShown := hshown
      checkpointShown := h.checkpointShown
      currentRoom := hheight
      checkpointRoom := by dsimp only; omega
      tracks := h.tracks.revert hends
      counted := by rw [(h.tracks.indexed.dropRun hends).2, ← h.counted]
      issued := h.issued.mono (le_refl _) fun cell hcell => by
        rcases mem_append.mp hcell with hcell | hcell
        · exact mem_append.mpr (mem_splice hcell)
        · exact mem_append_right _ hcell }

end RunEdits

/-! ### Runs by rank and by position -/

section Selected

/-- An edit of one run of the index that follows an edit of the model. -/
def RunEdit (policy : EqualityPolicy α) (cellCounter room : Nat)
    (edit : PersistentRunDeltaVector α → DirtyRun →
      Except RunDeltaError (PersistentRunDeltaVector α))
    (model : ListModel α → DirtyRun → ListModel α) : Prop :=
  ∀ {vector current checkpoint start stop},
    Coherent policy cellCounter (room + 2) vector current checkpoint →
    ends vector.vectorRuns start = some stop →
    ∃ edited, edit vector (entryToRun (start, stop)) = .ok edited ∧
      Refines policy cellCounter room edited
        (model (modelOf current checkpoint) (entryToRun (start, stop)))

theorem map_splice {cells others : List (Cell α)} {start amount : Int} :
    (spliceList start amount cells others).map Cell.cellValue =
      spliceList start amount (cells.map Cell.cellValue) (others.map Cell.cellValue) := by
  simp only [spliceList, map_append, map_take, map_drop]

theorem acceptRun_edit [LawfulEquality policy] :
    RunEdit policy cellCounter room acceptRun ListModel.accept := by
  intro vector current checkpoint start stop h hends
  obtain ⟨accepted, haccept, hcoherent⟩ := acceptRun_spec h hends
  refine ⟨accepted, haccept, _, _, hcoherent, ?_⟩
  rw [modelOf, map_splice]
  rfl

theorem revertRun_edit [LawfulEquality policy] :
    RunEdit policy cellCounter room revertRun ListModel.revert := by
  intro vector current checkpoint start stop h hends
  obtain ⟨reverted, hrevert, hcoherent⟩ := revertRun_spec h hends
  refine ⟨reverted, hrevert, _, _, hcoherent, ?_⟩
  rw [modelOf, map_splice]
  rfl

section

variable (h : Coherent policy cellCounter room vector current checkpoint)
include h

theorem Coherent.dirtyRuns_eq :
    dirtyRuns vector = ListModel.runs policy (modelOf current checkpoint) :=
  h.tracks.runs_eq

theorem Coherent.dirtyRunAt_eq (rank : Int) :
    dirtyRunAt rank vector =
      elementAt rank (ListModel.runs policy (modelOf current checkpoint)) := by
  rw [← h.dirtyRuns_eq, dirtyRuns, elementAt_map, dirtyRunAt, SortedMap.index_eq]

theorem Coherent.findDirtyRun_eq (position : Int) :
    findDirtyRun position vector =
      (ListModel.runs policy (modelOf current checkpoint)).find? (dirtyRunContains position) := by
  have hindexed := h.tracks.indexed
  have hcontains : ∀ entry : Int × Int, dirtyRunContains position (entryToRun entry) = true ↔
      entry.1 ≤ position ∧ position < entry.2 := by
    intro entry
    simp [dirtyRunContains, entryToRun, dirtyRunEndExclusive]
  rw [← h.dirtyRuns_eq, dirtyRuns]
  by_cases hmarked : DiffersAt policy current checkpoint position
  · obtain ⟨start, stop, hfound, hends, hlow, hhigh⟩ := findDirtyRun_dirty hindexed rfl hmarked
    rw [hfound]
    cases hfind : ((SortedMap.toList vector.vectorRuns).map entryToRun).find?
        (dirtyRunContains position) with
    | none =>
        have hmem := (ends_eq_some hindexed.sorted).mp hends
        have hnot := List.find?_eq_none.mp hfind _ (mem_map_of_mem hmem)
        exact absurd ((hcontains (start, stop)).mpr ⟨hlow, hhigh⟩) hnot
    | some run =>
        obtain ⟨entry, hentry, rfl⟩ := mem_map.mp (mem_of_find?_eq_some hfind)
        obtain ⟨hlow', hhigh'⟩ := (hcontains entry).mp (List.find?_some hfind)
        have hends' := (ends_eq_some hindexed.sorted).mpr hentry
        have hstart := hindexed.encodes.start_unique hends hends' hlow hhigh hlow' hhigh'
        rw [hstart, hends', Option.some_inj] at hends
        rw [hstart, ← hends]
  · rw [findDirtyRun_clean hindexed rfl hmarked]
    symm
    rw [List.find?_eq_none]
    intro run hrun hin
    obtain ⟨entry, hentry, rfl⟩ := mem_map.mp hrun
    obtain ⟨hlow, hhigh⟩ := (hcontains entry).mp hin
    exact hmarked
      (hindexed.encodes.marked_of ((ends_eq_some hindexed.sorted).mpr hentry) hlow hhigh)

end

variable {edit : PersistentRunDeltaVector α → DirtyRun →
    Except RunDeltaError (PersistentRunDeltaVector α)}
  {modelEdit : ListModel α → DirtyRun → ListModel α}

theorem Coherent.edit_listed (h : Coherent policy cellCounter (room + 2) vector current checkpoint)
    (hedit : RunEdit policy cellCounter room edit modelEdit) {run : DirtyRun}
    (hrun : run ∈ ListModel.runs policy (modelOf current checkpoint)) :
    ∃ edited, edit vector run = .ok edited ∧
      Refines policy cellCounter room edited (modelEdit (modelOf current checkpoint) run) := by
  rw [← h.dirtyRuns_eq, dirtyRuns, mem_map] at hrun
  obtain ⟨entry, hentry, rfl⟩ := hrun
  exact hedit h ((ends_eq_some h.tracks.indexed.sorted).mpr hentry)

theorem atRank_moves (h : Refines policy cellCounter (room + 2) vector model)
    (hedit : RunEdit policy cellCounter room edit modelEdit) (rank : Int) :
    Moves policy cellCounter room (atRank edit rank vector)
      (ListModel.atRank policy modelEdit rank model) := by
  obtain ⟨current, checkpoint, h, rfl⟩ := h
  unfold atRank ListModel.atRank
  rw [h.dirtyRunAt_eq]
  cases hrun : elementAt rank (ListModel.runs policy (modelOf current checkpoint)) with
  | none => exact ⟨none, rfl, .none⟩
  | some run =>
      obtain ⟨edited, hok, hrefines⟩ := h.edit_listed hedit (mem_of_elementAt hrun)
      refine ⟨some edited, ?_, .some hrefines⟩
      dsimp only
      rw [hok]
      rfl

theorem outside_iff (h : Coherent policy cellCounter room vector current checkpoint)
    (position : Int) : outside position vector ↔ elementAt position current = none := by
  rw [outside, h.count_eq]
  constructor
  · intro hout
    cases hcell : elementAt position current with
    | none => rfl
    | some cell =>
        have := elementAt_inside hcell
        omega
  · intro hnone
    by_contra hin
    obtain ⟨cell, hcell⟩ := @elementAt_isSome _ position current (by omega) (by omega)
    rw [hnone] at hcell
    cases hcell

theorem atContaining_moves (h : Refines policy cellCounter (room + 2) vector model)
    (hedit : RunEdit policy cellCounter room edit modelEdit) (position : Int) :
    Moves policy cellCounter room (atContaining edit position vector)
      (ListModel.atContaining policy modelEdit position model) := by
  obtain ⟨current, checkpoint, h, rfl⟩ := h
  unfold atContaining ListModel.atContaining
  rw [h.findDirtyRun_eq, modelOf, elementAt_map, ← modelOf]
  by_cases hout : outside position vector
  · rw [if_pos hout, (outside_iff h position).mp hout]
    exact ⟨none, rfl, .none⟩
  · rw [if_neg hout]
    rw [outside_iff h] at hout
    obtain ⟨cell, hcell⟩ := Option.ne_none_iff_exists'.mp hout
    rw [hcell, Option.map_some, Option.map_some]
    cases hrun : (ListModel.runs policy (modelOf current checkpoint)).find?
        (dirtyRunContains position) with
    | none => exact ⟨some vector, rfl, .some (h.mono (le_refl _) (le_add_right _ _)).refines⟩
    | some run =>
        obtain ⟨edited, hok, hrefines⟩ := h.edit_listed hedit (mem_of_find?_eq_some hrun)
        refine ⟨some edited, ?_, .some hrefines⟩
        dsimp only
        rw [hok]
        rfl

end Selected

end Durable7.FingerTree.PersistentRunDeltaVector
