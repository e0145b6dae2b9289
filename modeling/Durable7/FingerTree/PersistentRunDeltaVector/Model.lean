import Durable7.FingerTree.PersistentRunDeltaVector.RunIndex

/-!
# Cells and their differences

Two lists of cells, and the index of the positions whose values differ.  A clean position
holds one cell in both lists.
-/

namespace Durable7.FingerTree

open Foundation List SortedMap Int Nat

variable {α : Type}

class LawfulEquality (policy : EqualityPolicy α) : Prop where
  refl : ∀ value, policy.policyEquals value value = true
  symm : ∀ left right, policy.policyEquals left right = true → policy.policyEquals right left = true

variable {position stop : Int} {value : α} {values : List α}

namespace PersistentRunDeltaVector

/-! ## Elements -/

theorem elementAt_eq_some :
    elementAt position values = some value ↔
      0 ≤ position ∧ values[position.toNat]? = some value := by
  rw [elementAt]
  split
  · next hneg =>
    constructor
    · intro h
      cases h
    · intro h
      omega
  · next hneg => exact (and_iff_right (by omega)).symm

theorem elementAt_set {other : Int} (hlow : 0 ≤ position) (hhigh : position < values.length) :
    elementAt other (values.set position.toNat value) =
      if other = position then some value else elementAt other values := by
  rw [elementAt, elementAt]
  by_cases hneg : other < 0
  · rw [if_pos hneg, if_pos hneg, if_neg (by omega)]
  · rw [if_neg hneg, if_neg hneg, List.getElem?_set]
    by_cases hsame : other = position
    · rw [if_pos hsame, if_pos (by omega), if_pos (by omega)]
    · rw [if_neg hsame, if_neg (by omega)]

theorem elementAt_inside (h : elementAt position values = some value) :
    0 ≤ position ∧ position < values.length := by
  obtain ⟨hlow, hget⟩ := elementAt_eq_some.mp h
  have := (List.getElem?_eq_some_iff.mp hget).1
  omega

theorem elementAt_isSome (hlow : 0 ≤ position)
    (hhigh : position < values.length) : ∃ value, elementAt position values = some value := by
  have hlt : position.toNat < values.length := by omega
  exact ⟨values[position.toNat], elementAt_eq_some.mpr ⟨hlow, List.getElem?_eq_getElem hlt⟩⟩

/-- One list with the positions of a run taken from another one. -/
def spliceList (start amount : Int) (destination source : List α) : List α :=
  destination.take start.toNat ++ (source.drop start.toNat).take amount.toNat ++
    (destination.drop start.toNat).drop amount.toNat

section Splice

variable {destination source : List α} {start amount : Int}

section

variable (hstart : 0 ≤ start) (hamount : 0 ≤ amount) (hinside : start + amount ≤ destination.length)
  (hlength : source.length = destination.length)
include hstart hamount hinside hlength

theorem length_spliceList :
    (spliceList start amount destination source).length = destination.length := by
  rw [spliceList]
  simp only [length_append, length_take, length_drop]
  omega

theorem elementAt_splice (position : Int) :
    elementAt position (spliceList start amount destination source) =
      if start ≤ position ∧ position < start + amount then elementAt position source
      else elementAt position destination := by
  rw [elementAt, elementAt, elementAt]
  by_cases hneg : position < 0
  · rw [if_pos hneg, if_pos hneg, if_pos hneg, ite_self]
  rw [if_neg hneg, if_neg hneg, if_neg hneg, spliceList, List.getElem?_append, List.getElem?_append]
  simp only [length_append, length_take, length_drop]
  by_cases hbefore : position < start
  · rw [if_pos (by omega), if_pos (by omega), if_neg (by omega),
      List.getElem?_take_of_lt (by omega)]
  by_cases hin : position < start + amount
  · rw [if_pos (by omega), if_neg (by omega), if_pos (by omega),
      List.getElem?_take_of_lt (by omega),
      List.getElem?_drop]
    congr 1
    omega
  · rw [if_neg (by omega), if_neg (by omega), List.getElem?_drop, List.getElem?_drop]
    congr 1
    omega

end

theorem mem_splice (h : value ∈ spliceList start amount destination source) :
    value ∈ destination ∨ value ∈ source := by
  rw [spliceList, mem_append, mem_append] at h
  rcases h with (h | h) | h
  · exact .inl (mem_of_mem_take h)
  · exact .inr (mem_of_mem_drop (mem_of_mem_take h))
  · exact .inl (mem_of_mem_drop (mem_of_mem_drop h))

end Splice

/-! ## Differences -/

/-- Both lists have a value at the position, and the policy tells them apart. -/
def DiffersAt (policy : EqualityPolicy α) (current checkpoint : List (Cell α)) (position : Int) :
    Prop :=
  ∃ left right, elementAt position current = some left ∧
    elementAt position checkpoint = some right ∧
    policy.policyEquals left.cellValue right.cellValue = false

structure Tracks (policy : EqualityPolicy α) (current checkpoint : List (Cell α))
    (runs : SortedMap Int Int) : Prop where
  length_eq : current.length = checkpoint.length
  indexed : Indexes runs (DiffersAt policy current checkpoint)
  shared : ∀ position, ¬ DiffersAt policy current checkpoint position →
    elementAt position current = elementAt position checkpoint

section Tracks

variable {policy : EqualityPolicy α} [lawful : LawfulEquality policy]
  {current checkpoint : List (Cell α)} {runs : SortedMap Int Int}

theorem not_differsAt_self (cells : List (Cell α)) (position : Int) :
    ¬ DiffersAt policy cells cells position := by
  rintro ⟨left, right, hleft, hright, hdiffers⟩
  rw [hleft, Option.some_inj] at hright
  rw [hright, lawful.refl] at hdiffers
  cases hdiffers

theorem Tracks.clean (cells : List (Cell α)) : Tracks policy cells cells .empty where
  length_eq := rfl
  indexed := indexes_empty (not_differsAt_self cells)
  shared _ _ := rfl

omit lawful in
theorem Tracks.eq_of_clean (h : Tracks policy current checkpoint runs)
    (hnull : null runs = true) : current = checkpoint := by
  have hclear := h.indexed.null_iff.mp hnull
  apply ext_getElem?
  intro place
  have hshared := h.shared place (hclear place)
  rw [elementAt, elementAt, if_neg (by omega), if_neg (by omega), toNat_natCast] at hshared
  exact hshared

omit lawful in
theorem differsAt_set {replacement base : Cell α} (hlength : current.length = checkpoint.length)
    (hbase : elementAt position checkpoint = some base) (other : Int) :
    DiffersAt policy (current.set position.toNat replacement) checkpoint other ↔
      if other = position then policy.policyEquals replacement.cellValue base.cellValue = false
      else DiffersAt policy current checkpoint other := by
  obtain ⟨hlow, hhigh⟩ := elementAt_inside hbase
  rw [← hlength] at hhigh
  unfold DiffersAt
  rw [elementAt_set hlow hhigh]
  split
  · next hsame =>
    subst hsame
    rw [hbase]
    constructor
    · rintro ⟨left, right, hleft, hright, hdiffers⟩
      cases hleft
      cases hright
      exact hdiffers
    · exact fun hdiffers => ⟨replacement, base, rfl, rfl, hdiffers⟩
  · exact Iff.rfl

omit lawful in
/-- One cell of the current list is replaced, by the checkpoint's own cell where it is clean. -/
theorem Tracks.replace (h : Tracks policy current checkpoint runs) {replacement base : Cell α}
    {next : SortedMap Int Int} (hbase : elementAt position checkpoint = some base)
    (hshared : policy.policyEquals replacement.cellValue base.cellValue = true → replacement = base)
    (hnext : Indexes next fun other =>
      if other = position then policy.policyEquals replacement.cellValue base.cellValue = false
      else DiffersAt policy current checkpoint other) :
    Tracks policy (current.set position.toNat replacement) checkpoint next where
  length_eq := by
    rw [length_set]
    exact h.length_eq
  indexed := hnext.congr (differsAt_set h.length_eq hbase)
  shared other hclean := by
    obtain ⟨hlow, hhigh⟩ := elementAt_inside hbase
    rw [← h.length_eq] at hhigh
    rw [differsAt_set h.length_eq hbase] at hclean
    rw [elementAt_set hlow hhigh]
    split at hclean
    · next hsame =>
      rw [if_pos hsame, hsame, hbase, hshared (Bool.of_not_eq_false hclean)]
    · next hne =>
      rw [if_neg hne]
      exact h.shared other hclean

omit lawful in
theorem Tracks.run_inside (h : Tracks policy current checkpoint runs) {start : Int}
    (hends : ends runs start = some stop) :
    0 ≤ start ∧ start < stop ∧ stop ≤ current.length := by
  have hrun := h.indexed.encodes.maximalRun hends
  have hnonempty := hrun.nonempty
  obtain ⟨left, -, hleft, -⟩ := hrun.inside start (le_refl start) hnonempty
  obtain ⟨last, -, hlast, -⟩ := hrun.inside (stop - 1) (by omega) (by omega)
  have := elementAt_inside hleft
  have := elementAt_inside hlast
  omega

theorem differsAt_splice {start stop : Int} (hlow : 0 ≤ start) (hrun : start ≤ stop)
    (hhigh : stop ≤ current.length) (hlength : current.length = checkpoint.length)
    (position : Int) :
    (DiffersAt policy current (spliceList start (stop - start) checkpoint current) position ↔
      ¬ (start ≤ position ∧ position < stop) ∧ DiffersAt policy current checkpoint position) ∧
    (DiffersAt policy (spliceList start (stop - start) current checkpoint) checkpoint position ↔
      ¬ (start ≤ position ∧ position < stop) ∧ DiffersAt policy current checkpoint position) := by
  have hself := @not_differsAt_self _ policy _ current position
  have hself' := @not_differsAt_self _ policy _ checkpoint position
  unfold DiffersAt at hself hself' ⊢
  rw [elementAt_splice hlow (by omega) (by omega) hlength,
    elementAt_splice hlow (by omega) (by omega) hlength.symm,
    show start + (stop - start) = stop by omega]
  by_cases hin : start ≤ position ∧ position < stop
  · rw [if_pos hin, if_pos hin]
    exact ⟨iff_of_false hself fun hboth => hboth.1 hin,
      iff_of_false hself' fun hboth => hboth.1 hin⟩
  · rw [if_neg hin, if_neg hin]
    exact ⟨(and_iff_right hin).symm, (and_iff_right hin).symm⟩

section

variable (h : Tracks policy current checkpoint runs) {start : Int}
  (hends : ends runs start = some stop)
include h hends

theorem Tracks.accept :
    Tracks policy current (spliceList start (stop - start) checkpoint current)
      (delete start runs) := by
  obtain ⟨hlow, hrun, hhigh⟩ := h.run_inside hends
  have hdiffers := fun position =>
    (@differsAt_splice _ policy _ _ _ _ _ hlow (le_of_lt hrun) hhigh h.length_eq position).1
  have hlength := h.length_eq
  refine ⟨?_, (h.indexed.dropRun hends).1.congr hdiffers, ?_⟩
  · rw [length_spliceList hlow (by omega) (by omega) hlength]
    exact hlength
  · intro position hclean
    rw [hdiffers, not_and] at hclean
    rw [elementAt_splice hlow (by omega) (by omega) hlength]
    split
    · rfl
    · next hout => exact h.shared position (hclean (by omega))

theorem Tracks.revert :
    Tracks policy (spliceList start (stop - start) current checkpoint) checkpoint
      (delete start runs) := by
  obtain ⟨hlow, hrun, hhigh⟩ := h.run_inside hends
  have hdiffers := fun position =>
    (@differsAt_splice _ policy _ _ _ _ _ hlow (le_of_lt hrun) hhigh h.length_eq position).2
  have hlength := h.length_eq
  refine ⟨?_, (h.indexed.dropRun hends).1.congr hdiffers, ?_⟩
  · rw [length_spliceList hlow (by omega) (by omega) hlength.symm]
    exact hlength
  · intro position hclean
    rw [hdiffers, not_and] at hclean
    rw [elementAt_splice hlow (by omega) (by omega) hlength.symm]
    split
    · rfl
    · next hout => exact h.shared position (hclean (by omega))

theorem Tracks.splice_only
    (honly : ∀ start' stop', ends runs start' = some stop' → start' = start) :
    spliceList start (stop - start) checkpoint current = current ∧
      spliceList start (stop - start) current checkpoint = checkpoint := by
  have hnull : null (delete start runs) = true := by
    rw [(h.indexed.dropRun hends).1.null_iff]
    rintro position ⟨hout, hdiffers⟩
    obtain ⟨start', stop', hends', hlow, hhigh⟩ := (h.indexed.encodes.covers position).mp hdiffers
    obtain rfl := honly start' stop' hends'
    rw [hends, Option.some_inj] at hends'
    omega
  exact ⟨((h.accept hends).eq_of_clean hnull).symm, (h.revert hends).eq_of_clean hnull⟩

end

end Tracks

/-- The cells have tokens the counter has given out, and a token names one cell. -/
structure Issued (cellCounter : Nat) (cells : List (Cell α)) : Prop where
  drawn : ∀ cell ∈ cells, cell.token < cellCounter
  unique : ∀ left ∈ cells, ∀ right ∈ cells, left.token = right.token → left = right

section Issued

variable {cellCounter : Nat} {cells : List (Cell α)}

theorem Issued.mono (h : Issued cellCounter cells) {next : Nat} {others : List (Cell α)}
    (hle : cellCounter ≤ next) (hmem : ∀ cell ∈ others, cell ∈ cells) : Issued next others where
  drawn cell hcell := lt_of_lt_of_le (h.drawn cell (hmem cell hcell)) hle
  unique left hleft right hright := h.unique left (hmem left hleft) right (hmem right hright)

theorem Issued.cons (h : Issued cellCounter cells) (value : α) :
    Issued (cellCounter + 1) (⟨cellCounter, value⟩ :: cells) where
  drawn := by
    rw [forall_mem_cons]
    exact ⟨lt_succ_self _, fun cell hcell => lt_succ_of_lt (h.drawn cell hcell)⟩
  unique left hleft right hright htoken := by
    rcases mem_cons.mp hleft with rfl | hleft <;> rcases mem_cons.mp hright with rfl | hright
    · rfl
    · exact absurd htoken (ne_of_gt (h.drawn right hright))
    · exact absurd htoken (Nat.ne_of_lt (h.drawn left hleft))
    · exact h.unique left hleft right hright htoken

end Issued

theorem newCells_spec (values : List α) (cellCounter : Nat) :
    ((newCells cellCounter values).1.map Cell.cellValue = values) ∧
      (newCells cellCounter values).2 = cellCounter + values.length ∧
      (∀ cell ∈ (newCells cellCounter values).1, cellCounter ≤ cell.token) ∧
      Issued (newCells cellCounter values).2 (newCells cellCounter values).1 := by
  induction values generalizing cellCounter with
  | nil => exact ⟨rfl, rfl, by simp [newCells], ⟨by simp [newCells], by simp [newCells]⟩⟩
  | cons value values ih =>
      obtain ⟨hvalues, hcounter, hlow, hissued⟩ := ih (cellCounter + 1)
      rw [newCells, newCell]
      dsimp only
      refine ⟨by rw [map_cons, hvalues], ?_, ?_, ?_⟩
      · rw [hcounter, length_cons]
        omega
      · rw [forall_mem_cons]
        exact ⟨le_refl _, fun cell hcell => le_of_succ_le (hlow cell hcell)⟩
      · refine ⟨?_, ?_⟩
        · rw [forall_mem_cons]
          refine ⟨?_, hissued.drawn⟩
          dsimp only
          omega
        · intro left hleft right hright htoken
          rcases mem_cons.mp hleft with rfl | hleft <;> rcases mem_cons.mp hright with rfl | hright
          · rfl
          · exact absurd htoken (Nat.ne_of_lt (hlow right hright))
          · exact absurd htoken (ne_of_gt (hlow left hleft))
          · exact hissued.unique left hleft right hright htoken

end PersistentRunDeltaVector

end Durable7.FingerTree

/-!
## The sequential model

Two lists of values.  The runs are recomputed from the lists whenever they are asked for.
-/

namespace Durable7.FingerTree.PersistentRunDeltaVector

open Foundation List Int

variable {α : Type}

structure ListModel (α : Type) where
  current : List α
  checkpoint : List α

inductive Edit (α : Type) where
  | setAt (position : Int) (value : α)
  | resetAt (position : Int)
  | checkpoint
  | rollback
  | acceptDirtyRunAt (rank : Int)
  | revertDirtyRunAt (rank : Int)
  | acceptDirtyRunContaining (position : Int)
  | revertDirtyRunContaining (position : Int)

namespace ListModel

variable (policy : EqualityPolicy α)

def flags (model : ListModel α) : List Bool :=
  List.zipWith (fun left right => !policy.policyEquals left right) model.current model.checkpoint

def runs (model : ListModel α) : List DirtyRun := maximalRuns (flags policy model)

/-- The value that a write leaves: the old one or the checkpoint's where the policy allows. -/
def written (old base value : α) : α :=
  if policy.policyEquals old value then old
  else if policy.policyEquals base value then base
  else value

def setAt (position : Int) (value : α) (model : ListModel α) : Option (ListModel α) :=
  match elementAt position model.current, elementAt position model.checkpoint with
  | some old, some base =>
      some { model with
        current := model.current.set position.toNat (written policy old base value) }
  | _, _ => none

def resetAt (position : Int) (model : ListModel α) : Option (ListModel α) :=
  (elementAt position model.checkpoint).map fun base =>
    { model with current := model.current.set position.toNat base }

def accept (model : ListModel α) (run : DirtyRun) : ListModel α :=
  { model with
    checkpoint := spliceList run.dirtyRunStart run.dirtyRunLength model.checkpoint model.current }

def revert (model : ListModel α) (run : DirtyRun) : ListModel α :=
  { model with
    current := spliceList run.dirtyRunStart run.dirtyRunLength model.current model.checkpoint }

def atRank (edit : ListModel α → DirtyRun → ListModel α) (rank : Int) (model : ListModel α) :
    Option (ListModel α) :=
  (elementAt rank (runs policy model)).map (edit model)

def atContaining (edit : ListModel α → DirtyRun → ListModel α) (position : Int)
    (model : ListModel α) : Option (ListModel α) :=
  (elementAt position model.current).map fun _ =>
    (((runs policy model).find? (dirtyRunContains position)).map (edit model)).getD model

def applyEdit (model : ListModel α) : Edit α → Option (ListModel α)
  | .setAt position value => setAt policy position value model
  | .resetAt position => resetAt position model
  | .checkpoint => some ⟨model.current, model.current⟩
  | .rollback => some ⟨model.checkpoint, model.checkpoint⟩
  | .acceptDirtyRunAt rank => atRank policy accept rank model
  | .revertDirtyRunAt rank => atRank policy revert rank model
  | .acceptDirtyRunContaining position => atContaining policy accept position model
  | .revertDirtyRunContaining position => atContaining policy revert position model

end ListModel

/-! ### Maximal runs of flags -/

def runEntry (run : DirtyRun) : Int × Int := (run.dirtyRunStart, dirtyRunEndExclusive run)

theorem entryToRun_runEntry (run : DirtyRun) : entryToRun (runEntry run) = run := by
  obtain ⟨start, amount⟩ := run
  simp [entryToRun, runEntry, dirtyRunEndExclusive]

theorem takeWhile_flags (rest : List Bool) :
    (∀ place < (rest.takeWhile id).length, rest[place]? = some true) ∧
      rest[(rest.takeWhile id).length]? ≠ some true := by
  induction rest with
  | nil => simp
  | cons flag rest ih =>
      cases flag with
      | false => simp
      | true =>
          refine ⟨?_, by simpa using ih.2⟩
          intro place hplace
          cases place with
          | zero => rfl
          | succ place => exact ih.1 place (by simpa using hplace)

theorem elementAt_cons {value : α} {values : List α} {position : Int} (h : position ≠ 0) :
    elementAt position (value :: values) = elementAt (position - 1) values := by
  rw [elementAt, elementAt]
  by_cases hneg : position < 0
  · rw [if_pos hneg, if_pos (by omega)]
  · rw [if_neg hneg, if_neg (by omega)]
    obtain ⟨place, hplace⟩ : ∃ place, position.toNat = place + 1 := ⟨position.toNat - 1, by omega⟩
    rw [hplace, List.getElem?_cons_succ]
    congr 1
    omega

theorem maximalRunsFrom_spec (offset : Int) (flags : List Bool) :
    EncodesList ((maximalRunsFrom offset flags).map runEntry)
        (fun position => elementAt (position - offset) flags = some true) ∧
      ∀ run ∈ (maximalRunsFrom offset flags).map runEntry, offset ≤ run.1 := by
  induction offset, flags using maximalRunsFrom.induct with
  | case1 offset =>
      rw [maximalRunsFrom]
      refine ⟨⟨by simp, .nil, fun position => ?_⟩, by simp⟩
      simp [elementAt]
  | case2 offset rest ih =>
      rw [maximalRunsFrom]
      refine ⟨⟨ih.1.nonempty, ih.1.apart, fun position => ?_⟩, fun run hrun => ?_⟩
      · rw [← ih.1.covers]
        by_cases hfirst : position - offset = 0
        · rw [hfirst, elementAt_eq_some, elementAt_eq_some]
          constructor
          · rintro ⟨-, hget⟩
            cases hget
          · omega
        · rw [elementAt_cons hfirst, sub_sub]
      · have := ih.2 run hrun
        omega
  | case3 offset rest amount ih =>
      obtain ⟨hinside, hafter⟩ := takeWhile_flags rest
      generalize hlength : (rest.takeWhile id).length = length at hinside hafter
      have hamount : amount = length + 1 := by rw [← hlength]
      rw [maximalRunsFrom]
      change EncodesList (((⟨offset, amount⟩ : DirtyRun) ::
        maximalRunsFrom (offset + amount) (rest.drop (amount - 1))).map runEntry) _ ∧ _
      generalize maximalRunsFrom (offset + amount) (rest.drop (amount - 1)) = later at ih
      obtain ⟨hencodes, hlow⟩ := ih
      have hfirst : runEntry ⟨offset, amount⟩ = (offset, offset + amount) := rfl
      have hdrop : ∀ position, elementAt (position - (offset + amount))
          (rest.drop (amount - 1)) = some true ↔
          offset + amount ≤ position ∧ rest[(position - offset - 1).toNat]? = some true := by
        intro position
        rw [elementAt_eq_some, List.getElem?_drop]
        constructor
        · rintro ⟨hle, hget⟩
          refine ⟨by omega, ?_⟩
          rw [← hget]
          congr 1
          omega
        · rintro ⟨hle, hget⟩
          refine ⟨by omega, ?_⟩
          rw [← hget]
          congr 1
          omega
      have hlater : ∀ run ∈ later.map runEntry, offset + amount < run.1 := by
        intro run hrun
        have hle := hlow run hrun
        by_contra hne
        have hstart : run.1 = offset + amount := by omega
        have hmarked := (hencodes.covers run.1).mpr
          ⟨run, hrun, le_refl _, hencodes.nonempty run hrun⟩
        rw [hdrop] at hmarked
        apply hafter
        rw [← hmarked.2]
        congr 1
        omega
      rw [map_cons, hfirst]
      refine ⟨⟨?_, ?_, fun position => ?_⟩, ?_⟩
      · rw [forall_mem_cons]
        exact ⟨by dsimp only; omega, hencodes.nonempty⟩
      · rw [pairwise_cons]
        exact ⟨hlater, hencodes.apart⟩
      · rw [exists_mem_cons_iff, ← hencodes.covers, hdrop]
        rw [elementAt_eq_some]
        constructor
        · rintro ⟨hle, hget⟩
          by_cases hin : position < offset + amount
          · exact .inl ⟨by dsimp only; omega, hin⟩
          · refine .inr ⟨by omega, ?_⟩
            rw [show (position - offset).toNat = (position - offset - 1).toNat + 1 by omega,
              List.getElem?_cons_succ] at hget
            exact hget
        · rintro (⟨hle, hlt⟩ | ⟨hle, hget⟩)
          · dsimp only at hle hlt
            refine ⟨by omega, ?_⟩
            by_cases hzero : position = offset
            · rw [hzero, sub_self]
              rfl
            · rw [show (position - offset).toNat = (position - offset - 1).toNat + 1 by omega,
                List.getElem?_cons_succ]
              exact hinside _ (by omega)
          · refine ⟨by omega, ?_⟩
            rw [show (position - offset).toNat = (position - offset - 1).toNat + 1 by omega,
              List.getElem?_cons_succ]
            exact hget
      · rw [forall_mem_cons]
        refine ⟨le_refl _, fun run hrun => ?_⟩
        have := hlow run hrun
        omega

theorem maximalRuns_spec (flags : List Bool) :
    EncodesList ((maximalRuns flags).map runEntry)
      fun position => elementAt position flags = some true := by
  have h := (maximalRunsFrom_spec 0 flags).1
  simp only [sub_zero] at h
  exact h

section Differences

variable {policy : EqualityPolicy α} {current checkpoint : List (Cell α)}

/-- The model over the values of the cells. -/
def modelOf (current checkpoint : List (Cell α)) : ListModel α :=
  ⟨current.map Cell.cellValue, checkpoint.map Cell.cellValue⟩

theorem flag_iff (position : Int) :
    elementAt position (ListModel.flags policy (modelOf current checkpoint)) = some true ↔
      DiffersAt policy current checkpoint position := by
  rw [ListModel.flags, modelOf, elementAt_eq_some, List.getElem?_zipWith, List.getElem?_map,
    List.getElem?_map]
  unfold DiffersAt
  constructor
  · rintro ⟨hlow, hflag⟩
    cases hleft : current[position.toNat]? with
    | none =>
        rw [hleft] at hflag
        cases hflag
    | some left =>
        cases hright : checkpoint[position.toNat]? with
        | none =>
            rw [hleft, hright] at hflag
            cases hflag
        | some right =>
            rw [hleft, hright] at hflag
            refine ⟨left, right, elementAt_eq_some.mpr ⟨hlow, hleft⟩,
              elementAt_eq_some.mpr ⟨hlow, hright⟩, ?_⟩
            simpa using hflag
  · rintro ⟨left, right, hleft, hright, hdiffers⟩
    obtain ⟨hlow, hleft⟩ := elementAt_eq_some.mp hleft
    obtain ⟨-, hright⟩ := elementAt_eq_some.mp hright
    refine ⟨hlow, ?_⟩
    rw [hleft, hright]
    simp [hdiffers]

variable {runs : SortedMap Int Int}

theorem Indexes.encodesList {marked : Int → Prop} (h : Indexes runs marked) :
    EncodesList (SortedMap.toList runs) marked where
  nonempty entry hentry := h.encodes.nonempty ((ends_eq_some h.sorted).mpr hentry)
  apart := by
    refine h.sorted.imp_of_mem fun hleft hright hlt => ?_
    exact h.encodes.apart ((ends_eq_some h.sorted).mpr hleft) ((ends_eq_some h.sorted).mpr hright)
      (Int.compare_eq_lt.mp hlt)
  covers position := by
    rw [h.encodes.covers]
    constructor
    · rintro ⟨start, stop, hends, hlow, hhigh⟩
      exact ⟨(start, stop), (ends_eq_some h.sorted).mp hends, hlow, hhigh⟩
    · rintro ⟨⟨start, stop⟩, hmem, hlow, hhigh⟩
      exact ⟨start, stop, (ends_eq_some h.sorted).mpr hmem, hlow, hhigh⟩

theorem Tracks.runs_eq (h : Tracks policy current checkpoint runs) :
    (SortedMap.toList runs).map entryToRun =
      ListModel.runs policy (modelOf current checkpoint) := by
  have hmodel := maximalRuns_spec (ListModel.flags policy (modelOf current checkpoint))
  simp only [flag_iff] at hmodel
  rw [h.indexed.encodesList.unique hmodel, map_map, ListModel.runs]
  apply map_id'' entryToRun_runEntry

end Differences

end Durable7.FingerTree.PersistentRunDeltaVector
