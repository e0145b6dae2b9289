import Durable7.FingerTree.PrioritySearchQueue.Edits
import Durable7.Foundation.ListModel

/-!
# Histories of priority search queues

A version stands beside the map from keys to entries that its history calls for.
-/

namespace Durable7.FingerTree.PrioritySearchQueue

open Foundation List Std.ReflCmp Nat

variable {k p v : Type} [Ord k] [Ord p]

abbrev Rows (k p v : Type) := k → Option (PrioritySearchEntry k p v)

/-! ## The model -/

def placeRow (rows : Rows k p v) (key : k) (entry : Option (PrioritySearchEntry k p v)) :
    Rows k p v :=
  fun other => if compare key other = .eq then entry else rows other

/-- A stored key stays, and so does an entry that would be replaced by itself. -/
def setEntry [BEq v] (entry : PrioritySearchEntry k p v) :
    Option (PrioritySearchEntry k p v) → PrioritySearchEntry k p v
  | none => entry
  | some stored => if unchanged entry stored then stored else retained entry stored

def setRow [BEq v] (rows : Rows k p v) (key : k) (priority : p) (value : v) : Rows k p v :=
  placeRow rows key (some (setEntry ⟨key, priority, value⟩ (rows key)))

structure Holds (rows : Rows k p v) (queue : PrioritySearchQueue k p v) : Prop where
  valid : Valid queue.root
  sorted : Sorted (toAscList queue)
  row_eq : ∀ key, found key (toAscList queue) = rows key

theorem empty_holds : Holds (fun _ => none) (empty : PrioritySearchQueue k p v) :=
  ⟨.nothing, .nil, fun _ => rfl⟩

section Specs

variable [Std.TransOrd k] {rows : Rows k p v} {queue : PrioritySearchQueue k p v}
  (h : Holds rows queue)

include h

theorem Holds.placed_found {key : k} {entry : Option (PrioritySearchEntry k p v)}
    (hkey : ∀ stored ∈ entry, compare stored.entryKey key = .eq) :
    Sorted (placed key entry (toAscList queue)) ∧
      ∀ other, found other (placed key entry (toAscList queue)) =
        placeRow rows key entry other := by
  have hsorted : StrictlySorted compare PrioritySearchEntry.entryKey (toAscList queue) := h.sorted
  cases entry with
  | none =>
      rw [PrioritySearchQueue.placed, Option.toList_none, append_nil]
      refine ⟨hsorted.erase, fun other => ?_⟩
      rw [found, hsorted.findKey_erase, placeRow]
      split
      · rfl
      · exact h.row_eq other
  | some stored =>
      rw [PrioritySearchQueue.placed, Option.toList_some, append_assoc]
      have hstored := hkey stored rfl
      refine ⟨hsorted.replace hstored, fun other =>
        (hsorted.findKey_replace hstored other).trans ?_⟩
      rw [placeRow]
      split
      · rfl
      · exact h.row_eq other

theorem Holds.placed {after : Node k p v} {key : k} {entry : Option (PrioritySearchEntry k p v)}
    (hvalid : Valid after) (hentries : entriesOf after = placed key entry (entriesOf queue.root))
    (hkey : ∀ stored ∈ entry, compare stored.entryKey key = .eq) :
    Holds (placeRow rows key entry) ⟨after⟩ := by
  have hlist : toAscList ⟨after⟩ = PrioritySearchQueue.placed key entry (toAscList queue) := by
    rw [toAscList_eq, toAscList_eq, hentries]
  obtain ⟨hsorted, hfound⟩ := h.placed_found hkey
  exact ⟨hvalid, hlist ▸ hsorted, fun other => hlist ▸ hfound other⟩

/-- A map determines the list of its entries. -/
theorem Holds.toAscList_placed {after : PrioritySearchQueue k p v} {key : k}
    {entry : Option (PrioritySearchEntry k p v)} (hafter : Holds (placeRow rows key entry) after)
    (hkey : ∀ stored ∈ entry, compare stored.entryKey key = .eq) :
    toAscList after = PrioritySearchQueue.placed key entry (toAscList queue) := by
  obtain ⟨hsorted, hfound⟩ := h.placed_found hkey
  exact StrictlySorted.ext hafter.sorted hsorted fun other =>
    (hafter.row_eq other).trans (hfound other).symm

variable {stored : PrioritySearchEntry k p v}

theorem Holds.same {key : k}
    (hstored : rows key = some stored) : Holds (placeRow rows key (some stored)) queue := by
  refine ⟨h.valid, h.sorted, fun other => ?_⟩
  rw [placeRow]
  split
  · rename_i hsame
    rw [found, ← findKey_congr hsame, ← hstored]
    exact h.row_eq key
  · exact h.row_eq other

theorem Holds.setNode_sets [BEq v] (overwrite : Bool) (entry : PrioritySearchEntry k p v) :
    Sets overwrite entry queue.root (setNode overwrite entry queue.root) :=
  PrioritySearchQueue.setNode_sets overwrite entry h.valid (toAscList_eq queue ▸ h.sorted)

omit [Std.TransOrd k] in
theorem Holds.found_eq (key : k) : found key (entriesOf queue.root) = rows key := by
  rw [← toAscList_eq, h.row_eq]

omit [Std.TransOrd k] in
theorem Holds.key_of {key : k}
    (hstored : rows key = some stored) : compare stored.entryKey key = .eq := by
  rw [← h.row_eq] at hstored
  exact (findKey_mem hstored).2

theorem setItem_holds [BEq v] (key : k) (priority : p) (value : v) :
    Holds (setRow rows key priority value) (setItem key priority value queue) := by
  have hsets := h.setNode_sets true ⟨key, priority, value⟩
  rw [setItem, setRow]
  revert hsets
  generalize setNode true _ queue.root = result
  intro hsets
  cases hsets with
  | added habsent hvalid hentries =>
      rw [h.found_eq] at habsent
      rw [habsent]
      exact h.placed hvalid hentries (fun stored hstored => by
        cases hstored
        exact compare_self)
  | kept hstored hkept =>
      rw [h.found_eq] at hstored
      rw [hstored, setEntry, if_pos (hkept.resolve_left Bool.noConfusion)]
      exact h.same hstored
  | @replaced after stored hstored _ hchanged hvalid hentries =>
      rw [h.found_eq] at hstored
      have hkey := h.key_of hstored
      rw [hstored, setEntry, if_neg (by rw [hchanged]; exact Bool.false_ne_true)]
      exact h.placed hvalid hentries (fun other hother => by
        cases hother
        exact hkey)

theorem insertNew_cases [BEq v] (key : k) (priority : p) (value : v) :
    ((rows key).isSome = true ∧ insertNew key priority value queue = none) ∨
    (rows key = none ∧ ∃ after, insertNew key priority value queue = some after ∧
      Holds (placeRow rows key (some ⟨key, priority, value⟩)) after) := by
  have hsets := h.setNode_sets false ⟨key, priority, value⟩
  rw [insertNew]
  revert hsets
  generalize setNode false _ queue.root = result
  intro hsets
  cases hsets with
  | added habsent hvalid hentries =>
      rw [h.found_eq] at habsent
      refine .inr ⟨habsent, _, rfl, ?_⟩
      exact h.placed hvalid hentries (fun stored hstored => by
        cases hstored
        exact compare_self)
  | kept hstored hkept =>
      rw [h.found_eq] at hstored
      rw [hstored]
      exact .inl ⟨rfl, rfl⟩
  | replaced _ hoverwrite => cases hoverwrite

theorem deleteLookup_cases (key : k) :
    (rows key = none ∧ deleteLookup key queue = (none, queue)) ∨
    ∃ stored after, rows key = some stored ∧ deleteLookup key queue = (some stored, after) ∧
      Holds (placeRow rows key none) after := by
  have hdeletes := deleteNode_deletes key h.valid (toAscList_eq queue ▸ h.sorted)
  rw [deleteLookup]
  revert hdeletes
  generalize deleteNode key queue.root = result
  intro hdeletes
  cases hdeletes with
  | absent habsent =>
      rw [h.found_eq] at habsent
      exact .inl ⟨habsent, rfl⟩
  | removed hstored hvalid hentries =>
      rw [h.found_eq] at hstored
      refine .inr ⟨_, _, hstored, rfl, ?_⟩
      exact h.placed hvalid hentries (fun stored hnone => (Option.not_mem_none _ hnone).elim)

theorem delete_holds (key : k) : Holds (placeRow rows key none) (delete key queue) := by
  rw [delete]
  rcases deleteLookup_cases h key with ⟨habsent, hresult⟩ | ⟨stored, after, -, hresult, hafter⟩
  · rw [hresult]
    refine ⟨h.valid, h.sorted, fun other => ?_⟩
    rw [placeRow]
    split
    · rename_i hsame
      rw [found, ← findKey_congr hsame, ← habsent]
      exact h.row_eq key
    · exact h.row_eq other
  · rw [hresult]
    exact hafter

theorem Holds.mem_iff {entry : PrioritySearchEntry k p v} :
    entry ∈ toAscList queue ↔ rows entry.entryKey = some entry := by
  rw [← h.row_eq]
  have hself : compare entry.entryKey entry.entryKey = .eq := compare_self
  exact (StrictlySorted.findKey_eq_some h.sorted).trans (and_iff_left hself) |>.symm

variable [Std.TransOrd p]

theorem minView_cases :
    (minView queue = none ∧ toAscList queue = []) ∨
    ∃ entry after, minView queue = some (entry, after) ∧ Wins entry (toAscList queue) ∧
      Holds (placeRow rows entry.entryKey none) after ∧
      ∀ other ∈ toAscList after, compareEntry entry other = .lt := by
  obtain ⟨hwins, hnone⟩ := h.valid.winnerOf_wins
  rw [minView, minimumEntry]
  cases hwinner : winnerOf queue.root with
  | none => exact .inl ⟨rfl, (toAscList_eq queue).trans (hnone hwinner)⟩
  | some winner =>
      right
      have hwin := hwins winner hwinner
      rw [← toAscList_eq] at hwin
      have hrow := h.mem_iff.mp hwin.1
      rcases deleteLookup_cases h winner.entryKey with ⟨habsent, -⟩ |
        ⟨stored, after, hstored, hresult, hafter⟩
      · rw [hrow] at habsent
        cases habsent
      · rw [hrow] at hstored
        cases hstored
        refine ⟨winner, after, ?_, hwin, hafter, fun other hother => ?_⟩
        · dsimp only
          rw [hresult]
        · have hrest := hafter.mem_iff.mp hother
          rw [placeRow] at hrest
          split at hrest
          · cases hrest
          · rename_i hne
            have hle := hwin.2 other (h.mem_iff.mpr hrest)
            cases hcompare : compareEntry winner other with
            | lt => rfl
            | gt =>
                rw [hcompare] at hle
                cases hle
            | eq => exact absurd (compareLex_eq_eq.mp hcompare).2 hne

theorem Holds.validateStructure_some [BEq v] [ReflBEq v] : ∃ balance, balance ≤ 1 ∧
    validateStructure queue = some ⟨count queue, height queue, balance⟩ := by
  obtain ⟨result, hresult, hcount, hheight, -, hbalance⟩ := validateNode_accepts h.valid
    (toAscList_eq queue ▸ h.sorted) none none (fun _ hnone => (Option.not_mem_none _ hnone).elim)
    (fun _ hnone => (Option.not_mem_none _ hnone).elim)
  change _ = count queue at hcount
  change _ = height queue at hheight
  rw [validateStructure, hresult]
  cases result with
  | none => exact ⟨0, zero_le _, by rw [← hcount, ← hheight]; rfl⟩
  | some validated =>
      rw [Option.elim_some] at hcount hheight
      refine ⟨validated.maximumBalance, hbalance, ?_⟩
      dsimp only
      rw [hcount, hheight, if_neg]
      rintro (hwrong | hwrong) <;> exact hwrong rfl

end Specs

variable [BEq v]

inductive Reached : Rows k p v → PrioritySearchQueue k p v → Prop where
  | empty : Reached (fun _ => none) empty
  | setItem {rows : Rows k p v} {queue : PrioritySearchQueue k p v} (key : k) (priority : p)
      (value : v) (h : Reached rows queue) :
      Reached (setRow rows key priority value) (setItem key priority value queue)
  | insertNew {rows : Rows k p v} {queue after : PrioritySearchQueue k p v} (key : k) (priority : p)
      (value : v) (h : Reached rows queue)
      (hstep : insertNew key priority value queue = some after) :
      Reached (placeRow rows key (some ⟨key, priority, value⟩)) after
  | delete {rows : Rows k p v} {queue : PrioritySearchQueue k p v} (key : k)
      (h : Reached rows queue) : Reached (placeRow rows key none) (delete key queue)
  | minView {rows : Rows k p v} {queue after : PrioritySearchQueue k p v}
      {entry : PrioritySearchEntry k p v} (h : Reached rows queue)
      (hstep : minView queue = some (entry, after)) :
      Reached (placeRow rows entry.entryKey none) after
  | cursorTryInsert {rows : Rows k p v} {queue : PrioritySearchQueue k p v} (position : Int)
      (key : k) (priority : p) (value : v) (h : Reached rows queue) :
      Reached
        (if (rows key).isSome then rows else placeRow rows key (some ⟨key, priority, value⟩))
        (cursorTryInsert key priority value ⟨queue, position⟩).2.queue
  | cursorSetItem {rows : Rows k p v} {queue : PrioritySearchQueue k p v} (position : Int)
      (key : k) (priority : p) (value : v) (h : Reached rows queue) :
      Reached (setRow rows key priority value)
        (cursorSetItem key priority value ⟨queue, position⟩).queue
  | cursorSetNext {rows : Rows k p v} {queue : PrioritySearchQueue k p v}
      {after : PrioritySearchQueueCursor k p v} {entry : PrioritySearchEntry k p v}
      (position : Int) (priority : p) (value : v) (h : Reached rows queue)
      (hnext : peekNext ⟨queue, position⟩ = some entry)
      (hstep : cursorSetNext priority value ⟨queue, position⟩ = some after) :
      Reached (setRow rows entry.entryKey priority value) after.queue
  | cursorDeletePrevious {rows : Rows k p v} {queue : PrioritySearchQueue k p v}
      {after : PrioritySearchQueueCursor k p v} {entry : PrioritySearchEntry k p v}
      (position : Int) (h : Reached rows queue)
      (hprevious : peekPrevious ⟨queue, position⟩ = some entry)
      (hstep : cursorDeletePrevious ⟨queue, position⟩ = some after) :
      Reached (placeRow rows entry.entryKey none) after.queue
  | cursorDeleteNext {rows : Rows k p v} {queue : PrioritySearchQueue k p v}
      {after : PrioritySearchQueueCursor k p v} {entry : PrioritySearchEntry k p v}
      (position : Int) (h : Reached rows queue)
      (hnext : peekNext ⟨queue, position⟩ = some entry)
      (hstep : cursorDeleteNext ⟨queue, position⟩ = some after) :
      Reached (placeRow rows entry.entryKey none) after.queue

theorem reached_holds [Std.TransOrd k] [Std.TransOrd p] {rows : Rows k p v}
    {queue : PrioritySearchQueue k p v} (h : Reached rows queue) : Holds rows queue := by
  induction h with
  | empty => exact empty_holds
  | setItem key priority value _ ih => exact setItem_holds ih key priority value
  | insertNew key priority value _ hstep ih =>
      rcases insertNew_cases ih key priority value with ⟨-, hresult⟩ | ⟨-, after, hresult, hafter⟩
      · rw [hresult] at hstep
        cases hstep
      · rw [hresult] at hstep
        cases hstep
        exact hafter
  | delete key _ ih => exact delete_holds ih key
  | minView _ hstep ih =>
      rcases minView_cases ih with ⟨hresult, -⟩ | ⟨entry, after, hresult, -, hafter, -⟩
      · rw [hresult] at hstep
        cases hstep
      · rw [hresult] at hstep
        cases hstep
        exact hafter
  | cursorTryInsert position key priority value _ ih =>
      rw [cursorTryInsert]
      rcases insertNew_cases ih key priority value with ⟨hpresent, hresult⟩ |
        ⟨habsent, after, hresult, hafter⟩
      · rw [if_pos hpresent]
        simp only [hresult]
        exact ih
      · simp only [habsent, hresult]
        exact hafter
  | cursorSetItem position key priority value _ ih => exact setItem_holds ih key priority value
  | cursorSetNext position priority value _ hnext hstep ih =>
      rw [cursorSetNext, hnext] at hstep
      cases hstep
      exact setItem_holds ih _ priority value
  | cursorDeletePrevious position _ hprevious hstep ih =>
      rw [cursorDeletePrevious, hprevious] at hstep
      cases hstep
      exact delete_holds ih _
  | cursorDeleteNext position _ hnext hstep ih =>
      rw [cursorDeleteNext, hnext] at hstep
      cases hstep
      exact delete_holds ih _

/-! ## Observations -/

/-- The entries of repeated minimum views. -/
def drain (fuel : Nat) (queue : PrioritySearchQueue k p v) : List (PrioritySearchEntry k p v) :=
  match fuel with
  | 0 => []
  | fuel + 1 =>
      match minView queue with
      | none => []
      | some (entry, rest) => entry :: drain fuel rest

/-- The winner of every node is the least entry of its subtree. -/
def WinnersLeast : Node k p v → Prop
  | .nothing => True
  | .just _ _ entry winner left right =>
      Wins winner (entriesOf left ++ entry :: entriesOf right) ∧ WinnersLeast left ∧
        WinnersLeast right

section Observations

variable [Std.TransOrd k] [Std.TransOrd p]

omit [BEq v] in
theorem Valid.winnersLeast {node : Node k p v} (h : Valid node) : WinnersLeast node := by
  have hall := h
  induction h with
  | nothing => exact trivial
  | just hleft hright _ _ _ _ _ ihLeft ihRight =>
      exact ⟨hall.winnerOf_wins.1 _ rfl, ihLeft hleft, ihRight hright⟩

omit [BEq v] [Std.TransOrd p] in
theorem Holds.perm_of_minimum {rows : Rows k p v} {queue after : PrioritySearchQueue k p v}
    {entry : PrioritySearchEntry k p v} (h : Holds rows queue) (hentry : entry ∈ toAscList queue)
    (hafter : Holds (placeRow rows entry.entryKey none) after) :
    (toAscList queue).Perm (entry :: toAscList after) := by
  have hrow := h.mem_iff.mp hentry
  have habsent : entry ∉ toAscList after := by
    intro hmem
    have hself : compare entry.entryKey entry.entryKey = .eq := compare_self
    have hgone := hafter.mem_iff.mp hmem
    rw [placeRow, if_pos hself] at hgone
    cases hgone
  rw [perm_ext_iff_of_nodup (StrictlySorted.nodup h.sorted)
    (nodup_cons.mpr ⟨habsent, StrictlySorted.nodup hafter.sorted⟩)]
  intro other
  rw [mem_cons, h.mem_iff, hafter.mem_iff, placeRow]
  split
  · rename_i hsame
    have hclass : rows other.entryKey = rows entry.entryKey := by
      rw [← h.row_eq, ← h.row_eq, found, found, findKey_congr hsame]
    rw [hclass, hrow, Option.some.injEq, eq_comm, or_iff_left (Option.some_ne_none other).symm]
  · rename_i hne
    rw [or_iff_right]
    rintro rfl
    exact hne compare_self

omit [BEq v] in
theorem drain_sorted {rows : Rows k p v} {queue : PrioritySearchQueue k p v} (h : Holds rows queue)
    {fuel : Nat} (hfuel : (toAscList queue).length ≤ fuel) :
    (drain fuel queue).Perm (toAscList queue) ∧
      (drain fuel queue).Pairwise fun before after => compareEntry before after = .lt := by
  induction fuel generalizing rows queue with
  | zero =>
      rw [length_eq_zero_iff.mp (le_zero.mp hfuel)]
      exact ⟨.nil, .nil⟩
  | succ fuel ih =>
      rw [drain]
      rcases minView_cases h with ⟨hresult, hnil⟩ | ⟨entry, after, hresult, hwins, hafter, hbefore⟩
      · rw [hresult, hnil]
        exact ⟨.nil, .nil⟩
      · rw [hresult]
        have hperm := h.perm_of_minimum hwins.1 hafter
        have hlength := hperm.length_eq
        rw [length_cons] at hlength
        obtain ⟨hrest, hsorted⟩ := ih hafter (by omega)
        refine ⟨(hrest.cons entry).trans hperm.symm, pairwise_cons.mpr ⟨?_, hsorted⟩⟩
        intro other hother
        exact hbefore other (hrest.mem_iff.mp hother)

end Observations

/-! ## Cursors -/

/-- A cursor between the entries before its gap and the entries after it. -/
def AtGap (cursor : PrioritySearchQueueCursor k p v)
    (front back : List (PrioritySearchEntry k p v)) : Prop :=
  toAscList cursor.queue = front ++ back ∧ cursor.position = front.length

/-- What a cursor reads beside its gap, and where each edit there leaves it. -/
structure GapExact (cursor : PrioritySearchQueueCursor k p v)
    (front back : List (PrioritySearchEntry k p v)) : Prop where
  previous : peekPrevious cursor = front.getLast?
  next : peekNext cursor = back.head?
  setNext : ∀ priority value, Option.Rel (fun after entry =>
      AtGap after front (setEntry ⟨entry.entryKey, priority, value⟩ (some entry) :: back.tail))
    (cursorSetNext priority value cursor) back.head?
  deletePrevious : Option.Rel (fun after _ => AtGap after front.dropLast back)
    (cursorDeletePrevious cursor) front.getLast?
  deleteNext : Option.Rel (fun after _ => AtGap after front back.tail)
    (cursorDeleteNext cursor) back.head?

omit [BEq v] in
theorem Holds.cursorIndex_eq {rows : Rows k p v} {queue : PrioritySearchQueue k p v}
    (h : Holds rows queue) (position : Int) :
    cursorIndex position queue = elementAt position (toAscList queue) := by
  rw [cursorIndex, elementAt, h.valid.indexNode_eq, toAscList_eq]

section Gaps

variable [Std.TransOrd k] {rows : Rows k p v} {queue : PrioritySearchQueue k p v}
  (h : Holds rows queue) {front back : List (PrioritySearchEntry k p v)}
  {entry : PrioritySearchEntry k p v} (hlist : toAscList queue = front ++ entry :: back)
include h hlist

theorem Holds.setItem_at (priority : p) (value : v) :
    toAscList (setItem entry.entryKey priority value queue) =
      front ++ setEntry ⟨entry.entryKey, priority, value⟩ (some entry) :: back := by
  have hself : compare entry.entryKey entry.entryKey = .eq := compare_self
  have hrow : rows entry.entryKey = some entry :=
    h.mem_iff.mp (hlist ▸ mem_append_right _ mem_cons_self)
  have hset := setItem_holds h entry.entryKey priority value
  rw [setRow, hrow] at hset
  rw [h.toAscList_placed hset, hlist, (placed_at (hlist ▸ h.sorted) hself _).2, append_assoc]
  · rfl
  · intro stored hstored
    cases hstored
    rw [setEntry]
    split <;> exact hself

omit [BEq v] in
theorem Holds.delete_at : toAscList (delete entry.entryKey queue) = front ++ back := by
  have hself : compare entry.entryKey entry.entryKey = .eq := compare_self
  rw [h.toAscList_placed (delete_holds h entry.entryKey)
    fun _ hnone => (Option.not_mem_none _ hnone).elim, hlist,
    (placed_at (hlist ▸ h.sorted) hself _).2, Option.toList_none, append_nil]

end Gaps

theorem Holds.gapExact [Std.TransOrd k] {rows : Rows k p v} {queue : PrioritySearchQueue k p v}
    (h : Holds rows queue) {position : Int} {front back : List (PrioritySearchEntry k p v)}
    (hgap : AtGap ⟨queue, position⟩ front back) : GapExact ⟨queue, position⟩ front back := by
  obtain ⟨hlist, rfl⟩ := hgap
  dsimp only at hlist
  have hnext : peekNext ⟨queue, front.length⟩ = back.head? := by
    refine (h.cursorIndex_eq front.length).trans ?_
    rw [hlist, elementAt, if_neg (by omega), Int.toNat_natCast,
      List.getElem?_append_right (Nat.le_refl _), Nat.sub_self, List.head?_eq_getElem?]
  have hprevious : peekPrevious ⟨queue, front.length⟩ = front.getLast? := by
    refine (h.cursorIndex_eq (front.length - 1)).trans ?_
    rw [hlist, elementAt, List.getLast?_eq_getElem?]
    split
    · rw [List.getElem?_eq_none (by omega)]
    · rw [show ((front.length : Int) - 1).toNat = front.length - 1 by omega,
        List.getElem?_append_left (by omega)]
  refine ⟨hprevious, hnext, fun priority value => ?_, ?_, ?_⟩
  · rw [cursorSetNext, hnext]
    cases back with
    | nil => exact .none
    | cons entry back => exact .some ⟨h.setItem_at hlist priority value, rfl⟩
  · rw [cursorDeletePrevious, hprevious]
    rcases eq_nil_or_concat' front with rfl | ⟨front, entry, rfl⟩
    · exact .none
    · rw [append_assoc] at hlist
      rw [List.getLast?_concat, dropLast_concat, length_append]
      exact .some ⟨h.delete_at hlist, Int.add_sub_cancel (front.length : Int) 1⟩
  · rw [cursorDeleteNext, hnext]
    cases back with
    | nil => exact .none
    | cons entry back => exact .some ⟨h.delete_at hlist, rfl⟩

structure Version (k p v : Type) [Ord k] [Ord p] [BEq v] where
  rows : Rows k p v
  queue : PrioritySearchQueue k p v
  reached : Reached rows queue

/-- A minimum view takes the least entry, by priority and then by key. -/
inductive Minimum (rows : Rows k p v) (queue : PrioritySearchQueue k p v) :
    Option (PrioritySearchEntry k p v × PrioritySearchQueue k p v) → Prop where
  | empty (hempty : toAscList queue = []) : Minimum rows queue none
  | least {entry : PrioritySearchEntry k p v} {after : PrioritySearchQueue k p v}
      (hentry : Wins entry (toAscList queue))
      (hbefore : ∀ other ∈ toAscList after, compareEntry entry other = .lt)
      (hperm : (toAscList queue).Perm (entry :: toAscList after))
      (hlookup : ∀ key, lookup key after = placeRow rows entry.entryKey none key) :
      Minimum rows queue (some (entry, after))

/-- Every version is a valid search tree of the entries of its history. -/
theorem winners_exact [Std.TransOrd k] [Std.TransOrd p] [ReflBEq v] (version : Version k p v) :
    let queue := version.queue
    (∃ balance, balance ≤ 1 ∧ validateStructure queue =
      some ⟨(toAscList queue).length, height queue, balance⟩) ∧
      WinnersLeast queue.root ∧
      ((toAscList queue).Pairwise fun before after =>
        compare before.entryKey after.entryKey = .lt) ∧
      (∀ entry, entry ∈ toAscList queue ↔ version.rows entry.entryKey = some entry) ∧
      (∀ key, lookup key queue = version.rows key) ∧
      Minimum version.rows queue (minView queue) ∧
      (drain (count queue) queue).Perm (toAscList queue) ∧
      ((drain (count queue) queue).Pairwise fun before after => compareEntry before after = .lt) ∧
      (∀ minimumKey maximumKey maximumPriority,
        enumerateAtMost minimumKey maximumKey maximumPriority queue =
          if compare minimumKey maximumKey = .gt then none
          else some ((toAscList queue).filter (selected minimumKey maximumKey maximumPriority))) ∧
      (∀ position, cursorIndex position queue = elementAt position (toAscList queue)) ∧
      (∀ upper key, cursorBoundRank upper key queue =
        (toAscList queue).countP (passed upper key)) ∧
      ∀ position front back, AtGap ⟨queue, position⟩ front back →
        GapExact ⟨queue, position⟩ front back := by
  obtain ⟨rows, queue, hreached⟩ := version
  have h := reached_holds hreached
  have hlookup : ∀ {rows : Rows k p v} {queue : PrioritySearchQueue k p v}, Holds rows queue →
      ∀ key, lookup key queue = rows key := by
    intro rows queue h key
    rw [lookup, lookupNode_eq (toAscList_eq queue ▸ h.sorted), h.found_eq]
  have hcount : count queue = (toAscList queue).length := by
    rw [toAscList_eq]
    exact h.valid.countOf_eq
  have hdrain := drain_sorted h (le_of_eq hcount.symm)
  refine ⟨?_, h.valid.winnersLeast, h.sorted, fun entry => h.mem_iff, hlookup h, ?_, hdrain.1,
    hdrain.2, ?_, h.cursorIndex_eq, ?_, fun _ _ _ hgap => h.gapExact hgap⟩
  · rw [← hcount]
    exact h.validateStructure_some
  · dsimp only
    rcases minView_cases h with ⟨hresult, hnil⟩ | ⟨entry, after, hresult, hwins, hafter, hbefore⟩
    · rw [hresult]
      exact .empty hnil
    · rw [hresult]
      exact .least hwins hbefore (h.perm_of_minimum hwins.1 hafter) (hlookup hafter)
  · intro minimumKey maximumKey maximumPriority
    dsimp only
    rw [enumerateAtMost, atMostNode_eq h.valid (toAscList_eq queue ▸ h.sorted), append_nil,
      toAscList_eq]
  · intro upper key
    dsimp only
    rw [cursorBoundRank, boundRank_eq h.valid (toAscList_eq queue ▸ h.sorted), zero_add,
      toAscList_eq]

/-- Three keys, the second put again at the gap before it and the third deleted at its gap. -/
def editedVersion : Version Nat Nat Unit :=
  ⟨_, _, .cursorDeleteNext 2 (.cursorSetNext 1 1 () (.setItem 3 2 () (.setItem 1 5 ()
    (.setItem 2 7 () .empty))) rfl rfl) rfl rfl⟩

theorem winners_exact_edited :
    lookup 2 editedVersion.queue = some ⟨2, 1, ()⟩ ∧ lookup 3 editedVersion.queue = none :=
  ⟨(winners_exact editedVersion).2.2.2.2.1 2, (winners_exact editedVersion).2.2.2.2.1 3⟩

end Durable7.FingerTree.PrioritySearchQueue
