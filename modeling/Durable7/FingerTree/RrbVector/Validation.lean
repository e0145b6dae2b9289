import Durable7.Foundation.Lists
import Durable7.FingerTree.RrbVector.Simulation

/-!
# The structural audit

`validateStructure` walks a whole vector, recomputes what every branch stores about
its children, and gives shape measurements of a vector that passes.
-/

namespace Durable7.FingerTree.RrbVector

section

variable {α : Type}

structure RrbStatistics where
  statisticsCount : Nat
  statisticsHeight : Nat
  statisticsLeafCount : Nat
  statisticsBranchCount : Nat
  statisticsRegularBranchCount : Nat
  statisticsRelaxedBranchCount : Nat
  statisticsMinimumLeafLength : Nat
  statisticsMaximumLeafLength : Nat
  statisticsMinimumBranchingFactor : Nat
  statisticsMaximumBranchingFactor : Nat
  deriving DecidableEq

structure ValidationAccumulator where
  accumulatorLeafCount : Nat
  accumulatorBranchCount : Nat
  accumulatorRegularCount : Nat
  accumulatorRelaxedCount : Nat
  accumulatorMinimumLeaf : Nat
  accumulatorMaximumLeaf : Nat
  accumulatorMinimumBranching : Nat
  accumulatorMaximumBranching : Nat

def emptyAccumulator : ValidationAccumulator := ⟨0, 0, 0, 0, maxBound, 0, maxBound, 0⟩

def addLeaf (length : Nat) (accumulator : ValidationAccumulator) : ValidationAccumulator :=
  { accumulator with
    accumulatorLeafCount := accumulator.accumulatorLeafCount + 1
    accumulatorMinimumLeaf := min accumulator.accumulatorMinimumLeaf length
    accumulatorMaximumLeaf := max accumulator.accumulatorMaximumLeaf length }

def addBranch (arity : Nat) (regular : Bool) (accumulator : ValidationAccumulator) :
    ValidationAccumulator :=
  { accumulator with
    accumulatorBranchCount := accumulator.accumulatorBranchCount + 1
    accumulatorRegularCount := accumulator.accumulatorRegularCount + if regular then 1 else 0
    accumulatorRelaxedCount := accumulator.accumulatorRelaxedCount + if regular then 0 else 1
    accumulatorMinimumBranching := min accumulator.accumulatorMinimumBranching arity
    accumulatorMaximumBranching := max accumulator.accumulatorMaximumBranching arity }

def combineAccumulator (left right : ValidationAccumulator) : ValidationAccumulator where
  accumulatorLeafCount := left.accumulatorLeafCount + right.accumulatorLeafCount
  accumulatorBranchCount := left.accumulatorBranchCount + right.accumulatorBranchCount
  accumulatorRegularCount := left.accumulatorRegularCount + right.accumulatorRegularCount
  accumulatorRelaxedCount := left.accumulatorRelaxedCount + right.accumulatorRelaxedCount
  accumulatorMinimumLeaf := min left.accumulatorMinimumLeaf right.accumulatorMinimumLeaf
  accumulatorMaximumLeaf := max left.accumulatorMaximumLeaf right.accumulatorMaximumLeaf
  accumulatorMinimumBranching :=
    min left.accumulatorMinimumBranching right.accumulatorMinimumBranching
  accumulatorMaximumBranching :=
    max left.accumulatorMaximumBranching right.accumulatorMaximumBranching

def finishStatistics (valueCount valueHeight : Nat) (accumulator : ValidationAccumulator) :
    RrbStatistics where
  statisticsCount := valueCount
  statisticsHeight := valueHeight
  statisticsLeafCount := accumulator.accumulatorLeafCount
  statisticsBranchCount := accumulator.accumulatorBranchCount
  statisticsRegularBranchCount := accumulator.accumulatorRegularCount
  statisticsRelaxedBranchCount := accumulator.accumulatorRelaxedCount
  statisticsMinimumLeafLength :=
    if accumulator.accumulatorLeafCount = 0 then 0 else accumulator.accumulatorMinimumLeaf
  statisticsMaximumLeafLength := accumulator.accumulatorMaximumLeaf
  statisticsMinimumBranchingFactor :=
    if accumulator.accumulatorBranchCount = 0 then 0 else accumulator.accumulatorMinimumBranching
  statisticsMaximumBranchingFactor := accumulator.accumulatorMaximumBranching

def validateSizes : Bool → List Nat → Option (List Nat) → Bool
  | true, _, none => true
  | false, counts, some sizes => sizes == (counts.scanl (· + ·) 0).drop 1
  | _, _, _ => false

/-- A choice of child that fails would end the source's audit with its error. -/
def validSample (node : Node α) (children : List (Node α)) (position : Nat) : Bool :=
  match findChild position node with
  | .error _ => false
  | .ok (childIndex, before) =>
      match children[childIndex]? with
      | none => false
      | some child => before ≤ position && position - before < nodeCount child

def findChildSamples : Node α → Bool
  | .leaf _ => false
  | .branch count height children sizes =>
      [0, count / 2, count - 1].all (validSample (.branch count height children sizes) children)

mutual

def validateNode (isRoot : Bool) : Node α → Option (Nat × Nat × ValidationAccumulator)
  | .leaf values =>
      if values.length < 1 ∨ branchFactor < values.length then none
      else some (values.length, 0, addLeaf values.length emptyAccumulator)
  | .branch storedCount storedHeight children sizes =>
      if children.length < 1 ∨ branchFactor < children.length ∨
          isRoot = true ∧ children.length = 1 then
        none
      else
        match validateNodes children with
        | none => none
        | some validated =>
            match validated.map fun child => child.2.1 with
            | [] => none
            | firstHeight :: remainingHeights =>
                let regular := hasRegularLayout children (firstHeight + 1)
                if remainingHeights.all (· == firstHeight) &&
                    (validated.map fun child => child.1).sum == storedCount &&
                    firstHeight + 1 == storedHeight &&
                    validateSizes regular (validated.map fun child => child.1) sizes &&
                    findChildSamples (.branch storedCount storedHeight children sizes) then
                  some (storedCount, storedHeight, addBranch children.length regular
                    ((validated.map fun child => child.2.2).foldl combineAccumulator
                      emptyAccumulator))
                else none

def validateNodes : List (Node α) → Option (List (Nat × Nat × ValidationAccumulator))
  | [] => some []
  | child :: children =>
      match validateNode false child with
      | none => none
      | some first =>
          match validateNodes children with
          | none => none
          | some rest => some (first :: rest)

end

def validateStructure (vector : RrbVector α) : Option RrbStatistics :=
  match vector.root with
  | none => some ⟨0, 0, 0, 0, 0, 0, 0, 0, 0, 0⟩
  | some root =>
      match validateNode true root with
      | none => none
      | some (actualCount, actualHeight, accumulator) =>
          if actualCount ≠ nodeCount root ∨ actualHeight ≠ nodeHeight root ∨
              maximumHeight < actualHeight then
            none
          else some (finishStatistics actualCount actualHeight accumulator)

end

/-!
## What passes the audit

A vector that represents a list passes the audit exactly when it is not too high.
Only an append at the greatest height can make it so, when its operands need two
roots, and a session without such an append keeps every vector valid.
-/

open Foundation List

variable {α : Type} {children : List (Node α)}

theorem validSample_of_lt {height count position : Nat} {sizes : Option (List Nat)}
    (h : WellFormed (height + 1) (.branch count (height + 1) children sizes))
    (hposition : position < count) :
    validSample (.branch count (height + 1) children sizes) children position = true := by
  obtain ⟨childIndex, before, front, child, back, hfind, hat⟩ := h.findChild_spec hposition
  have hle := hat.before_le
  have hlt := hat.position_lt
  rw [validSample, hfind]
  simp only [hat.getElem?, Bool.and_eq_true, decide_eq_true_iff]
  exact ⟨hle, by omega⟩

theorem findChildSamples_of_wellFormed {height count : Nat} {sizes : Option (List Nat)}
    (h : WellFormed (height + 1) (.branch count (height + 1) children sizes)) :
    findChildSamples (.branch count (height + 1) children sizes) = true := by
  have hpos : 0 < count := h.count_pos
  rw [findChildSamples, all_eq_true]
  intro position hposition
  apply validSample_of_lt h
  simp only [mem_cons, not_mem_nil, or_false] at hposition
  omega

theorem validateSizes_sizeTable (children : List (Node α)) (branchHeight : Nat) :
    validateSizes (hasRegularLayout children branchHeight) (children.map nodeCount)
      (sizeTable children branchHeight) = true := by
  rw [sizeTable]
  cases hasRegularLayout children branchHeight with
  | true => rfl
  | false => simp [validateSizes]

theorem validateNodes_spec {height : Nat} (h : ∀ child ∈ children, ∃ accumulator,
      validateNode false child = some (nodeCount child, height, accumulator)) :
    ∃ validated, validateNodes children = some validated ∧
      (validated.map fun child => child.1) = children.map nodeCount ∧
      (validated.map fun child => child.2.1) = List.replicate children.length height := by
  induction children with
  | nil => exact ⟨[], by rw [validateNodes], rfl, rfl⟩
  | cons child children ih =>
      obtain ⟨accumulator, hchild⟩ := h child (by simp)
      obtain ⟨validated, hrest, hcounts, hheights⟩ :=
        ih fun other hother => h other (by simp [hother])
      refine ⟨(nodeCount child, height, accumulator) :: validated, ?_, ?_, ?_⟩
      · rw [validateNodes, hchild]
        simp only [hrest]
      · rw [map_cons, hcounts, map_cons]
      · rw [map_cons, hheights, length_cons, replicate_succ]

theorem validateNode_spec {height : Nat} {node : Node α} (h : WellFormed height node)
    (isRoot : Bool) (hroot : isRoot = true → Rooted node) :
    ∃ accumulator, validateNode isRoot node = some (nodeCount node, height, accumulator) := by
  induction h generalizing isRoot with
  | @leaf values hne hlength =>
      have hpos := length_pos_iff.mpr hne
      rw [validateNode, if_neg (by omega)]
      exact ⟨_, rfl⟩
  | @branch height count children sizes hne hlength hchildren hsum hsizes ih =>
      have hnode := WellFormed.branch hne hlength hchildren hsum hsizes
      have hpos := length_pos_iff.mpr hne
      obtain ⟨validated, hvalidated, hcounts, hheights⟩ :=
        validateNodes_spec fun child hchild => ih child hchild false (by simp)
      have harity : ¬ (children.length < 1 ∨ branchFactor < children.length ∨
          isRoot = true ∧ children.length = 1) := by
        rintro (hfew | hmany | ⟨htrue, hone⟩)
        · omega
        · omega
        · rcases hroot htrue with hzero | hwide
          · simp [nodeHeight_branch] at hzero
          · rw [arity] at hwide
            omega
      obtain ⟨rest, hlist⟩ : ∃ rest, children.length = rest + 1 := ⟨children.length - 1, by omega⟩
      rw [hlist, replicate_succ] at hheights
      rw [validateNode, if_neg harity, hvalidated]
      simp only [hheights, hcounts]
      rw [if_pos]
      · exact ⟨_, rfl⟩
      · rw [hsizes]
        simp only [Bool.and_eq_true, all_eq_true, beq_iff_eq]
        refine ⟨⟨⟨⟨?_, hsum.symm⟩, trivial⟩, validateSizes_sizeTable children (height + 1)⟩, ?_⟩
        · intro other hother
          exact eq_of_mem_replicate hother
        · rw [← hsizes]
          exact findChildSamples_of_wellFormed hnode

theorem validateStructure_isSome_iff {vector : RrbVector α} {values : List α}
    (h : Represents vector values) :
    (validateStructure vector).isSome = true ↔ vector.height ≤ maximumHeight := by
  cases h with
  | empty => simp [validateStructure, RrbVector.height]
  | @rooted height node _ hrow hroot =>
      obtain ⟨hwell, -⟩ := hrow.head
      obtain ⟨accumulator, hvalidate⟩ := validateNode_spec hwell true fun _ => hroot
      have hheight : RrbVector.height ⟨some node⟩ = height := hwell.height_eq
      rw [hheight, validateStructure]
      simp only [hvalidate, hwell.height_eq]
      constructor
      · intro hsome
        split at hsome
        · cases hsome
        · omega
      · intro hle
        rw [if_neg (by omega)]
        rfl

/-- The counts are numbers of the source's `Int`, and no append needs a second root at the
greatest height. -/
def withinHeight (pool : VectorPool α) (operation : Operation α) : Bool :=
  operation.growth pool ≤ maxBound && operation.fits pool

theorem PoolKept.room {pool : VectorPool α} {lists : ListPool α}
    (h : PoolKept True pool lists) : poolRoom pool = true := by
  have hbound : maximumHeight + 2 ≤ maxBound := by decide
  rw [poolRoom, Bool.and_eq_true, all_eq_true, all_eq_true]
  constructor
  · intro vector hvector
    obtain ⟨values, -, hkept⟩ := exists_of_forall₂ h.vectors hvector
    have := hkept.height_le trivial
    simp only [decide_eq_true_iff]
    omega
  · intro current hcurrent
    obtain ⟨gap, -, hat⟩ := exists_of_forall₂ h.cursors hcurrent
    have := hat.kept.height_le trivial
    simp only [decide_eq_true_iff]
    omega

/--
A session without an append that needs a second root at the greatest height runs to its
end, and every vector it leaves passes the audit.
-/
theorem run_valid [BEq α] (identical : α → α → Bool) (operations : List (Operation α))
    (h : everyStep identical withinHeight Pool.start operations = true) :
    ∃ final answers, run identical Pool.start operations = .ok (final, answers) ∧
      (∀ vector ∈ final.vectors, (validateStructure vector).isSome = true) ∧
      ∀ current ∈ final.cursors, (validateStructure current.cursorSnapshot).isSome = true := by
  have hcheck : ∀ (pool : VectorPool α) (lists : ListPool α) (operation : Operation α),
      PoolKept True pool lists → withinHeight pool operation = true →
      operation.growth pool ≤ maxBound ∧ poolRoom pool = true ∧
        (True → operation.fits pool = true) := by
    intro pool lists operation hkept hwithin
    rw [withinHeight, Bool.and_eq_true, decide_eq_true_iff] at hwithin
    exact ⟨hwithin.1, hkept.room, fun _ => hwithin.2⟩
  obtain ⟨final, hrun, hkept⟩ := run_keeps identical hcheck (PoolKept.start True) h
  refine ⟨final, _, hrun, ?_, ?_⟩
  · intro vector hvector
    obtain ⟨values, -, hvalues⟩ := exists_of_forall₂ hkept.vectors hvector
    exact (validateStructure_isSome_iff hvalues.represents).mpr (hvalues.height_le trivial)
  · intro current hcurrent
    obtain ⟨gap, -, hat⟩ := exists_of_forall₂ hkept.cursors hcurrent
    exact (validateStructure_isSome_iff hat.kept.represents).mpr (hat.kept.height_le trivial)

theorem run_valid_doubled :
    everyStep (fun _ _ => false) withinHeight Pool.start
        [Operation.fromList [1, 2, 3], .append 0 0, .removeRange 1 2 0] = true ∧
      ∃ final answers, run (fun _ _ => false) Pool.start
        [Operation.fromList [1, 2, 3], .append 0 0, .removeRange 1 2 0] = .ok (final, answers) ∧
        ∀ vector ∈ final.vectors, (validateStructure vector).isSome = true := by
  have hsteps : everyStep (fun _ _ => false) withinHeight Pool.start
      [Operation.fromList [1, 2, 3], .append 0 0, .removeRange 1 2 0] = true := by
    decide +kernel
  obtain ⟨final, answers, hrun, hvalid, -⟩ := run_valid (fun _ _ => false)
    [Operation.fromList [1, 2, 3], .append 0 0, .removeRange 1 2 0] hsteps
  exact ⟨hsteps, final, answers, hrun, hvalid⟩

/-- Five doublings of a vector and a cut back to the two elements in its middle. -/
def heightRound : List (Operation Nat) :=
  [.append 0 0, .append 0 0, .append 0 0, .append 0 0, .append 0 0, .splitAt 30 0, .splitAt 2 1]

/-- Two one-element leaves, raised by twelve rounds and five last doublings. -/
def heightSession : List (Operation Nat) :=
  [.fromList (List.replicate 33 0), .splitAt 31 0, .splitAt 2 1] ++
    (List.replicate 12 heightRound).flatten ++ heightRound.take 5

/-- A session of appends and splits on 64 elements at most ends with a vector that is too high. -/
theorem heightSession_invalid :
    everyStep (fun _ _ => false) (fun pool operation => operation.growth pool ≤ 64) Pool.start
      heightSession = true ∧
    ((run (fun _ _ => false) Pool.start heightSession).toOption.bind
        fun result => result.1.vectors.head?).map
        (fun vector => (vector.count, vector.height, validateStructure vector)) =
      some (64, maximumHeight + 1, none) := by
  decide +kernel

end Durable7.FingerTree.RrbVector
