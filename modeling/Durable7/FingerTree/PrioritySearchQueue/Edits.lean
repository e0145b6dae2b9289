import Durable7.FingerTree.PrioritySearchQueue.Operations

/-!
# Nodes as sorted lists

Each edit and each query of a valid node against the list of its entries in the order of their
keys.
-/

namespace Durable7.FingerTree.PrioritySearchQueue

open Foundation List Std.TransCmp Std.OrientedCmp Std.ReflCmp Bool Nat

variable {k p v : Type} [Ord k] [Ord p]

/-! ## Winners -/

/-- By priority, and by key among equal priorities. -/
def compareEntry (left right : PrioritySearchEntry k p v) : Ordering :=
  compareLex (compareOn PrioritySearchEntry.entryPriority)
    (compareOn PrioritySearchEntry.entryKey) left right

instance [Std.TransOrd k] [Std.TransOrd p] :
    Std.TransCmp (compareEntry (k := k) (p := p) (v := v)) :=
  inferInstanceAs (Std.TransCmp (compareLex (compareOn PrioritySearchEntry.entryPriority)
    (compareOn PrioritySearchEntry.entryKey)))

theorem entryBefore_iff {left right : PrioritySearchEntry k p v} :
    entryBefore left right = true ↔ compareEntry left right = .lt := by
  rw [entryBefore, or_eq_true, and_eq_true, beq_iff_eq, beq_iff_eq, beq_iff_eq]
  exact Ordering.then_eq_lt.symm

def Sorted (entries : List (PrioritySearchEntry k p v)) : Prop :=
  StrictlySorted compare PrioritySearchEntry.entryKey entries

/-- An entry of a list that no other one is before. -/
def Wins (winner : PrioritySearchEntry k p v) (entries : List (PrioritySearchEntry k p v)) : Prop :=
  winner ∈ entries ∧ ∀ entry ∈ entries, (compareEntry winner entry).isLE

section Winners

variable [Std.TransOrd k] [Std.TransOrd p] {entries others : List (PrioritySearchEntry k p v)}

theorem Wins.choose {current : PrioritySearchEntry k p v}
    {candidate : Option (PrioritySearchEntry k p v)} (hcurrent : Wins current entries)
    (hcandidate : ∀ winner ∈ candidate, Wins winner others)
    (hnone : candidate = none → others = []) :
    Wins (choose candidate current) (entries ++ others) := by
  cases candidate with
  | none =>
      rw [hnone rfl, append_nil]
      exact hcurrent
  | some candidate =>
      obtain ⟨hmem, hle⟩ := hcandidate candidate rfl
      rw [PrioritySearchQueue.choose]
      split
      · rename_i hbefore
        have hlt := entryBefore_iff.mp hbefore
        refine ⟨mem_append_right _ hmem, fun entry hentry => ?_⟩
        rcases mem_append.mp hentry with hentry | hentry
        · rw [lt_of_lt_of_isLE hlt (hcurrent.2 entry hentry)]
          rfl
        · exact hle entry hentry
      · rename_i hbefore
        rw [entryBefore_iff] at hbefore
        have hcurrentLe : (compareEntry current candidate).isLE := by
          rw [← isGE_iff_isLE]
          cases hcompare : compareEntry candidate current <;> simp_all
        refine ⟨mem_append_left _ hcurrent.1, fun entry hentry => ?_⟩
        rcases mem_append.mp hentry with hentry | hentry
        · exact hcurrent.2 entry hentry
        · exact isLE_trans hcurrentLe (hle entry hentry)

omit [Std.TransOrd k] [Std.TransOrd p] in
theorem Wins.perm {winner : PrioritySearchEntry k p v} (h : Wins winner entries)
    (hperm : entries.Perm others) : Wins winner others :=
  ⟨hperm.mem_iff.mp h.1, fun entry hentry => h.2 entry (hperm.mem_iff.mpr hentry)⟩

theorem Valid.winnerOf_wins {node : Node k p v} (h : Valid node) :
    (∀ winner ∈ winnerOf node, Wins winner (entriesOf node)) ∧
      (winnerOf node = none → entriesOf node = []) := by
  induction h with
  | nothing => exact ⟨fun _ hwinner => (Option.not_mem_none _ hwinner).elim, fun _ => rfl⟩
  | @just count height entry winner left right _ _ _ _ hwinner _ _ ihLeft ihRight =>
      have hself : Wins entry [entry] := by
        refine ⟨mem_singleton_self entry, fun other hother => ?_⟩
        rw [mem_singleton.mp hother]
        exact isLE_rfl
      have hchosen := (hself.choose ihLeft.1 ihLeft.2).choose ihRight.1 ihRight.2
      refine ⟨fun found hfound => ?_, fun hnone => by cases hnone⟩
      cases hfound
      rw [hwinner]
      refine hchosen.perm ?_
      rw [entriesOf, append_assoc]
      exact (@perm_middle _ entry (entriesOf left) (entriesOf right)).symm

end Winners

/-! ## Insertion -/

/-- An exact replacement changes nothing. -/
def unchanged [BEq v] (entry stored : PrioritySearchEntry k p v) : Bool :=
  compare entry.entryPriority stored.entryPriority == .eq && entry.entryValue == stored.entryValue

def retained (entry stored : PrioritySearchEntry k p v) : PrioritySearchEntry k p v :=
  ⟨stored.entryKey, entry.entryPriority, entry.entryValue⟩

def found (key : k) (entries : List (PrioritySearchEntry k p v)) :
    Option (PrioritySearchEntry k p v) :=
  findKey compare PrioritySearchEntry.entryKey key entries

/-- The list with one entry in the place of the class of a key. -/
def placed (key : k) (entry : Option (PrioritySearchEntry k p v))
    (entries : List (PrioritySearchEntry k p v)) : List (PrioritySearchEntry k p v) :=
  below compare PrioritySearchEntry.entryKey key entries ++ entry.toList ++
    above compare PrioritySearchEntry.entryKey key entries

inductive Sets [BEq v] (overwrite : Bool) (entry : PrioritySearchEntry k p v) (node : Node k p v) :
    Node k p v × Bool × Bool → Prop where
  | added {after : Node k p v} (habsent : found entry.entryKey (entriesOf node) = none)
      (hvalid : Valid after)
      (hentries : entriesOf after = placed entry.entryKey (some entry) (entriesOf node))
      (hheight : heightOf node ≤ heightOf after ∧ heightOf after ≤ heightOf node + 1) :
      Sets overwrite entry node (after, true, true)
  | kept {stored : PrioritySearchEntry k p v}
      (hstored : found entry.entryKey (entriesOf node) = some stored)
      (hkept : overwrite = false ∨ unchanged entry stored = true) :
      Sets overwrite entry node (node, false, false)
  | replaced {after : Node k p v} {stored : PrioritySearchEntry k p v}
      (hstored : found entry.entryKey (entriesOf node) = some stored)
      (hoverwrite : overwrite = true) (hchanged : unchanged entry stored = false)
      (hvalid : Valid after)
      (hentries : entriesOf after =
        placed entry.entryKey (some (retained entry stored)) (entriesOf node))
      (hheight : heightOf after = heightOf node) : Sets overwrite entry node (after, false, true)

section Cuts

variable [Std.TransOrd k] {key : k} {entry : PrioritySearchEntry k p v}
  {front back : List (PrioritySearchEntry k p v)} (h : Sorted (front ++ entry :: back))

include h

omit [Ord p] in
theorem placed_before (hlt : compare key entry.entryKey = .lt)
    (other : Option (PrioritySearchEntry k p v)) :
    found key (front ++ entry :: back) = found key front ∧
      placed key other (front ++ entry :: back) = placed key other front ++ entry :: back := by
  obtain ⟨hbelow, hfound, habove⟩ := StrictlySorted.cut_before h hlt
  refine ⟨hfound, ?_⟩
  rw [placed, hbelow, habove, placed, append_assoc, append_assoc, append_assoc]

omit [Ord p] in
theorem placed_after (hgt : compare key entry.entryKey = .gt)
    (other : Option (PrioritySearchEntry k p v)) :
    found key (front ++ entry :: back) = found key back ∧
      placed key other (front ++ entry :: back) = front ++ entry :: placed key other back := by
  obtain ⟨hbelow, hfound, habove⟩ := StrictlySorted.cut_after h hgt
  refine ⟨hfound, ?_⟩
  rw [placed, hbelow, habove, placed, append_assoc, append_assoc, append_assoc]
  rfl

omit [Ord p] in
theorem placed_at (heq : compare key entry.entryKey = .eq)
    (other : Option (PrioritySearchEntry k p v)) :
    found key (front ++ entry :: back) = some entry ∧
      placed key other (front ++ entry :: back) = front ++ other.toList ++ back := by
  obtain ⟨hbelow, hfound, habove⟩ := StrictlySorted.cut_at h heq
  refine ⟨hfound, ?_⟩
  rw [placed, hbelow, habove]

end Cuts

omit [Ord p] in
theorem Sorted.parts {front back : List (PrioritySearchEntry k p v)}
    {entry : PrioritySearchEntry k p v} (h : Sorted (front ++ entry :: back)) :
    Sorted front ∧ Sorted back :=
  ⟨(pairwise_append.mp h).1, (pairwise_cons.mp (pairwise_append.mp h).2.1).2⟩

variable {node : Node k p v}

theorem setNode_sets [Std.TransOrd k] [BEq v] (overwrite : Bool) (entry : PrioritySearchEntry k p v)
    (h : Valid node) (hsorted : Sorted (entriesOf node)) :
    Sets overwrite entry node (setNode overwrite entry node) := by
  induction h with
  | nothing => exact .added rfl (leaf_valid entry) rfl ⟨zero_le _, le_refl _⟩
  | @just count height stored winner left right hleft hright hcount hheight hwinner hrightLow
      hleftLow ihLeft ihRight =>
      have hparts := hsorted.parts
      rw [setNode]
      cases hcompare : compare entry.entryKey stored.entryKey with
      | lt =>
          have hplaced := placed_before hsorted hcompare
          have hset := ihLeft hparts.1
          dsimp only
          revert hset
          generalize setNode overwrite entry left = result
          intro hset
          cases hset with
          | @added after habsent hvalid hentries hgrown =>
              change Sets _ _ _ (balanceNode stored after right, true, true)
              have hbalances := balanceNode_balances stored hvalid hright (by omega) (by omega)
              refine .added ((hplaced none).1.trans habsent) hbalances.valid ?_ ?_
              · rw [entriesOf_balanceNode, hentries]
                exact (hplaced (some entry)).2.symm
              · obtain ⟨-, hge, hle, heq⟩ := hbalances
                rw [heightOf_just, hheight]
                omega
          | kept hstored hkept => exact .kept ((hplaced none).1.trans hstored) hkept
          | @replaced after _ hstored hoverwrite hchanged hvalid hentries hsame =>
              change Sets _ _ _ (balanceNode stored after right, false, true)
              have hbalances := balanceNode_balances stored hvalid hright (by omega) (by omega)
              refine .replaced ((hplaced none).1.trans hstored) hoverwrite hchanged
                hbalances.valid ?_ ?_
              · rw [entriesOf_balanceNode, hentries]
                exact (hplaced (some _)).2.symm
              · obtain ⟨-, hge, hle, heq⟩ := hbalances
                rw [heightOf_just, hheight]
                omega
      | gt =>
          have hplaced := placed_after hsorted hcompare
          have hset := ihRight hparts.2
          dsimp only
          revert hset
          generalize setNode overwrite entry right = result
          intro hset
          cases hset with
          | @added after habsent hvalid hentries hgrown =>
              change Sets _ _ _ (balanceNode stored left after, true, true)
              have hbalances := balanceNode_balances stored hleft hvalid (by omega) (by omega)
              refine .added ((hplaced none).1.trans habsent) hbalances.valid ?_ ?_
              · rw [entriesOf_balanceNode, hentries]
                exact (hplaced (some entry)).2.symm
              · obtain ⟨-, hge, hle, heq⟩ := hbalances
                rw [heightOf_just, hheight]
                omega
          | kept hstored hkept => exact .kept ((hplaced none).1.trans hstored) hkept
          | @replaced after _ hstored hoverwrite hchanged hvalid hentries hsame =>
              change Sets _ _ _ (balanceNode stored left after, false, true)
              have hbalances := balanceNode_balances stored hleft hvalid (by omega) (by omega)
              refine .replaced ((hplaced none).1.trans hstored) hoverwrite hchanged
                hbalances.valid ?_ ?_
              · rw [entriesOf_balanceNode, hentries]
                exact (hplaced (some _)).2.symm
              · obtain ⟨-, hge, hle, heq⟩ := hbalances
                rw [heightOf_just, hheight]
                omega
      | eq =>
          have hplaced := placed_at hsorted hcompare
          have hstored := (hplaced none).1
          dsimp only
          cases hoverwrite : overwrite with
          | false => exact .kept hstored (.inl rfl)
          | true =>
              rw [if_neg (by decide)]
              cases hsame : unchanged entry stored with
              | true =>
                  rw [unchanged] at hsame
                  rw [if_pos hsame]
                  exact .kept hstored (.inr hsame)
              | false =>
                  have hdiffers := hsame
                  rw [unchanged, ← not_eq_true] at hsame
                  rw [if_neg hsame]
                  refine .replaced hstored rfl hdiffers
                    (mkNode_valid hleft hright hrightLow hleftLow)
                    ?_ hheight.symm
                  rw [entriesOf_mkNode]
                  refine ((hplaced (some (retained entry stored))).2.trans ?_).symm
                  rw [append_assoc]
                  rfl

omit [Ord k] [Ord p] in
theorem minimumKeyNode_first (entry : PrioritySearchEntry k p v) (node : Node k p v)
    (back : List (PrioritySearchEntry k p v)) :
    ∃ rest, entriesOf node ++ entry :: back = minimumKeyNode entry node :: rest := by
  induction node generalizing entry back with
  | nothing => exact ⟨back, rfl⟩
  | just _ _ first _ left right ihLeft _ =>
      rw [entriesOf, minimumKeyNode, append_assoc]
      exact ihLeft first _

inductive Deletes (key : k) (node : Node k p v) :
    Node k p v × Option (PrioritySearchEntry k p v) → Prop where
  | absent {after : Node k p v} (habsent : found key (entriesOf node) = none) :
      Deletes key node (after, none)
  | removed {after : Node k p v} {stored : PrioritySearchEntry k p v}
      (hstored : found key (entriesOf node) = some stored) (hvalid : Valid after)
      (hentries : entriesOf after = placed key none (entriesOf node))
      (hheight : heightOf after ≤ heightOf node ∧ heightOf node ≤ heightOf after + 1) :
      Deletes key node (after, some stored)

theorem deleteNode_deletes [Std.TransOrd k] (key : k) (h : Valid node)
    (hsorted : Sorted (entriesOf node)) : Deletes key node (deleteNode key node) := by
  induction h generalizing key with
  | nothing => exact .absent rfl
  | @just count height entry winner left right hleft hright hcount hheight hwinner hrightLow
      hleftLow ihLeft ihRight =>
      have hparts := hsorted.parts
      unfold deleteNode
      cases hcompare : compare key entry.entryKey with
      | lt =>
          have hplaced := placed_before hsorted hcompare
          have hdelete := ihLeft key hparts.1
          dsimp only
          revert hdelete
          generalize deleteNode key left = result
          intro hdelete
          cases hdelete with
          | absent habsent => exact .absent ((hplaced none).1.trans habsent)
          | @removed after _ hstored hvalid hentries hshrunk =>
              change Deletes _ _ (balanceNode entry after right, some _)
              have hbalances := balanceNode_balances entry hvalid hright (by omega) (by omega)
              refine .removed ((hplaced none).1.trans hstored) hbalances.valid ?_ ?_
              · rw [entriesOf_balanceNode, hentries]
                exact (hplaced none).2.symm
              · obtain ⟨-, hge, hle, heq⟩ := hbalances
                rw [heightOf_just, hheight]
                omega
      | gt =>
          have hplaced := placed_after hsorted hcompare
          have hdelete := ihRight key hparts.2
          dsimp only
          revert hdelete
          generalize deleteNode key right = result
          intro hdelete
          cases hdelete with
          | absent habsent => exact .absent ((hplaced none).1.trans habsent)
          | @removed after _ hstored hvalid hentries hshrunk =>
              change Deletes _ _ (balanceNode entry left after, some _)
              have hbalances := balanceNode_balances entry hleft hvalid (by omega) (by omega)
              refine .removed ((hplaced none).1.trans hstored) hbalances.valid ?_ ?_
              · rw [entriesOf_balanceNode, hentries]
                exact (hplaced none).2.symm
              · obtain ⟨-, hge, hle, heq⟩ := hbalances
                rw [heightOf_just, hheight]
                omega
      | eq =>
          have hplaced := placed_at hsorted hcompare
          dsimp only
          have hstored := (hplaced none).1
          have hremoved := (hplaced none).2
          cases left with
          | nothing =>
              rw [heightOf] at hheight
              refine .removed hstored hright hremoved.symm ?_
              rw [heightOf_just, hheight]
              omega
          | just leftCount leftHeight leftEntry leftWinner leftLeft leftRight =>
              cases right with
              | nothing =>
                  have hnothing : heightOf (.nothing : Node k p v) = 0 := rfl
                  have hrest : heightOf (.just leftCount leftHeight leftEntry leftWinner leftLeft
                      leftRight) + 1 = height := by
                    rw [hheight, hnothing, Nat.max_zero, Nat.add_comm]
                  refine .removed hstored hleft (Eq.trans ?_ hremoved.symm) ?_
                  · rw [Option.toList_none, append_nil]
                    exact (append_nil _).symm
                  · exact ⟨le_of_succ_le (le_of_eq hrest), le_of_eq hrest.symm⟩
              | just rightCount rightHeight first rightWinner firstLeft firstRight =>
                  obtain ⟨rest, hrest⟩ :=
                    minimumKeyNode_first first firstLeft (entriesOf firstRight)
                  dsimp only
                  generalize minimumKeyNode first firstLeft = successor at hrest
                  have hentriesRight : entriesOf (.just rightCount rightHeight first rightWinner
                      firstLeft firstRight) = [] ++ successor :: rest := hrest
                  have hself : compare successor.entryKey successor.entryKey = .eq := compare_self
                  have hfirst := placed_at (hentriesRight ▸ hparts.2) hself none
                  have hdelete := ihRight successor.entryKey hparts.2
                  revert hdelete
                  generalize deleteNode successor.entryKey (.just rightCount rightHeight first
                    rightWinner firstLeft firstRight) = result
                  intro hdelete
                  cases hdelete with
                  | absent habsent =>
                      rw [hentriesRight, hfirst.1] at habsent
                      cases habsent
                  | @removed after _ _ hvalid hentries hshrunk =>
                      have hbalances :=
                        balanceNode_balances successor hleft hvalid (by omega) (by omega)
                      change Deletes _ _ (balanceNode successor _ after, some entry)
                      refine .removed hstored hbalances.valid (Eq.trans ?_ hremoved.symm) ?_
                      · rw [entriesOf_balanceNode, hentries, hentriesRight, hfirst.2,
                          Option.toList_none, append_nil, append_nil]
                        rfl
                      · obtain ⟨-, hge, hle, heq⟩ := hbalances
                        rw [heightOf_just, hheight]
                        omega

/-- An entry that a bound at the key passes over. -/
def passed (upper : Bool) (key : k) (entry : PrioritySearchEntry k p v) : Bool :=
  match compare entry.entryKey key with
  | .lt => true
  | .eq => upper
  | .gt => false

section Reads

variable [Std.TransOrd k] {node : Node k p v} (h : Valid node) (hsorted : Sorted (entriesOf node))

include hsorted

omit [Ord p] in
theorem lookupNode_eq (key : k) : lookupNode key node = found key (entriesOf node) := by
  induction node with
  | nothing => rfl
  | just _ _ entry _ left right ihLeft ihRight =>
      have hparts := hsorted.parts
      rw [lookupNode]
      cases hcompare : compare key entry.entryKey with
      | lt => exact (ihLeft hparts.1).trans (placed_before hsorted hcompare none).1.symm
      | gt => exact (ihRight hparts.2).trans (placed_after hsorted hcompare none).1.symm
      | eq => exact (placed_at hsorted hcompare none).1.symm

include h

theorem boundRank_eq (upper : Bool) (key : k) (rank : Nat) :
    boundRank upper key rank node = rank + (entriesOf node).countP (passed upper key) := by
  induction h generalizing rank with
  | nothing => rfl
  | @just count height entry winner left right hleft hright _ _ _ _ _ ihLeft ihRight =>
      have hparts := hsorted.parts
      obtain ⟨hfront, hback, hacross⟩ := pairwise_append.mp hsorted
      have hbefore : compare entry.entryKey key ≠ .gt →
          (entriesOf left).countP (passed upper key) = (entriesOf left).length := by
        intro hne
        have hle : (compare entry.entryKey key).isLE := by
          cases hcompare : compare entry.entryKey key <;> simp_all
        rw [countP_eq_length]
        intro other hother
        rw [passed, lt_of_lt_of_isLE (hacross other hother entry mem_cons_self) hle]
      have hafter : compare entry.entryKey key ≠ .lt →
          (entriesOf right).countP (passed upper key) = 0 := by
        intro hne
        have hle : (compare key entry.entryKey).isLE := by
          rw [← isGE_iff_isLE]
          cases hcompare : compare entry.entryKey key <;> simp_all
        rw [countP_eq_zero]
        intro other hother
        have hlt := lt_of_isLE_of_lt hle ((pairwise_cons.mp hback).1 other hother)
        rw [passed, gt_of_lt hlt]
        exact false_ne_true
      rw [boundRank, entriesOf, countP_append, countP_cons, hleft.countOf_eq]
      cases hcompare : compare entry.entryKey key with
      | lt =>
          rw [hbefore (by rw [hcompare]; decide), passed, hcompare]
          dsimp only
          rw [ihRight hparts.2, if_pos rfl]
          omega
      | eq =>
          rw [hafter (by rw [hcompare]; decide), passed, hcompare]
          dsimp only
          cases upper with
          | true =>
              rw [if_pos rfl, ihRight hparts.2, hafter (by rw [hcompare]; decide),
                hbefore (by rw [hcompare]; decide), if_pos rfl]
              omega
          | false =>
              rw [if_neg Bool.false_ne_true, ihLeft hparts.1, if_neg Bool.false_ne_true]
              rfl
      | gt =>
          rw [hafter (by rw [hcompare]; decide), passed, hcompare]
          dsimp only
          rw [ihLeft hparts.1, if_neg Bool.false_ne_true]
          rfl

end Reads

theorem Valid.indexNode_eq (h : Valid node) (remaining : Nat) :
    indexNode remaining node = (entriesOf node)[remaining]? := by
  induction h generalizing remaining with
  | nothing => rfl
  | @just count height entry winner left right hleft hright _ _ _ _ _ ihLeft ihRight =>
      rw [indexNode, entriesOf, hleft.countOf_eq]
      split
      · rename_i hless
        rw [ihLeft, List.getElem?_append_left hless]
      · rename_i hless
        split
        · rename_i heq
          rw [heq, List.getElem?_append_right (Nat.le_refl _), Nat.sub_self]
          rfl
        · rename_i hne
          have hshift : remaining - (entriesOf left).length =
              (remaining - (entriesOf left).length - 1) + 1 := by omega
          rw [ihRight, List.getElem?_append_right (not_lt.mp hless), hshift,
            List.getElem?_cons_succ, Nat.add_sub_cancel]

/-- An entry in a range of keys with a priority that is not above the threshold. -/
def selected (minimumKey maximumKey : k) (maximumPriority : p) (entry : PrioritySearchEntry k p v) :
    Bool :=
  compare entry.entryKey minimumKey != .lt && compare entry.entryKey maximumKey != .gt &&
    compare entry.entryPriority maximumPriority != .gt

section Enumeration

variable [Std.TransOrd k] [Std.TransOrd p] {minimumKey maximumKey : k} {maximumPriority : p}

omit [Std.TransOrd k] in
theorem Wins.none_selected {winner : PrioritySearchEntry k p v}
    {entries : List (PrioritySearchEntry k p v)} (h : Wins winner entries)
    (habove : compare winner.entryPriority maximumPriority = .gt) :
    entries.filter (selected minimumKey maximumKey maximumPriority) = [] := by
  rw [filter_eq_nil_iff]
  intro entry hentry
  have hle : (compare winner.entryPriority entry.entryPriority).isLE := by
    have hordered := h.2 entry hentry
    rw [compareEntry, compareLex, compareOn] at hordered
    cases hcompare : compare winner.entryPriority entry.entryPriority with
    | lt => rfl
    | eq => rfl
    | gt =>
        rw [hcompare] at hordered
        cases hordered
  have hgt : compare entry.entryPriority maximumPriority = .gt :=
    gt_of_lt (lt_of_lt_of_isLE (lt_of_gt habove) hle)
  rw [selected, hgt, Bool.and_assoc]
  simp

theorem atMostNode_eq {node : Node k p v} (h : Valid node) (hsorted : Sorted (entriesOf node))
    (tailValues : List (PrioritySearchEntry k p v)) :
    atMostNode minimumKey maximumKey maximumPriority node tailValues =
      (entriesOf node).filter (selected minimumKey maximumKey maximumPriority) ++ tailValues := by
  have hall := h
  induction h generalizing tailValues with
  | nothing => rfl
  | @just count height entry winner left right hleft hright hcount hheight hwinner hrightLow
      hleftLow ihLeft ihRight =>
      have hparts := hsorted.parts
      obtain ⟨hfront, hback, hacross⟩ := pairwise_append.mp hsorted
      rw [atMostNode]
      split
      · rename_i habove
        rw [(hall.winnerOf_wins.1 winner rfl).none_selected habove]
        rfl
      · split
        · rename_i hbelow
          have hnone : (entriesOf left ++ [entry]).filter
              (selected minimumKey maximumKey maximumPriority) = [] := by
            rw [filter_eq_nil_iff]
            intro other hother
            have hlt : compare other.entryKey minimumKey = .lt := by
              rcases mem_append.mp hother with hother | hother
              · exact lt_trans (hacross other hother entry mem_cons_self) hbelow
              · rw [mem_singleton.mp hother]
                exact hbelow
            rw [selected, hlt]
            exact false_ne_true
          have hsplit : entriesOf left ++ entry :: entriesOf right =
              (entriesOf left ++ [entry]) ++ entriesOf right := by
            rw [append_assoc]
            rfl
          rw [ihRight hparts.2 _ hright, entriesOf, hsplit, filter_append, hnone]
          rfl
        · rename_i hnotBelow
          split
          · rename_i habove
            have hnone : (entry :: entriesOf right).filter
                (selected minimumKey maximumKey maximumPriority) = [] := by
              rw [filter_eq_nil_iff]
              intro other hother
              have hgt : compare other.entryKey maximumKey = .gt := by
                rcases mem_cons.mp hother with rfl | hother
                · exact habove
                · exact gt_of_lt (lt_trans
                    (lt_of_gt habove) ((pairwise_cons.mp hback).1 other hother))
              rw [selected, hgt]
              simp
            rw [ihLeft hparts.1 _ hleft, entriesOf, filter_append, hnone, append_nil]
          · rename_i hnotAbove
            have hentry : selected minimumKey maximumKey maximumPriority entry =
                (compare entry.entryPriority maximumPriority != .gt) := by
              rw [selected, bne_iff_ne.mpr hnotBelow, bne_iff_ne.mpr hnotAbove]
              rfl
            rw [ihLeft hparts.1 _ hleft, ihRight hparts.2 _ hright, entriesOf, filter_append,
              filter_cons, hentry, append_assoc]
            by_cases hpriority : compare entry.entryPriority maximumPriority = .gt
            · rw [if_neg (not_not.mpr hpriority), if_neg (by rw [hpriority]; decide)]
            · rw [if_pos hpriority, if_pos (bne_iff_ne.mpr hpriority)]
              rfl

end Enumeration

section Validation

variable [Std.TransOrd k] [Std.TransOrd p] [BEq v] [ReflBEq v]

theorem sameEntry_self (entry : PrioritySearchEntry k p v) : sameEntry entry entry = true := by
  have hkey : compare entry.entryKey entry.entryKey = .eq := compare_self
  have hpriority : compare entry.entryPriority entry.entryPriority = .eq := compare_self
  rw [sameEntry, hkey, hpriority]
  exact BEq.rfl

theorem validateNode_accepts {node : Node k p v} (h : Valid node)
    (hsorted : Sorted (entriesOf node)) (lower upper : Option k)
    (hlower : ∀ bound ∈ lower, ∀ entry ∈ entriesOf node, compare entry.entryKey bound = .gt)
    (hupper : ∀ bound ∈ upper, ∀ entry ∈ entriesOf node, compare entry.entryKey bound = .lt) :
    ∃ result, validateNode lower upper node = some result ∧
      result.elim 0 Validated.count = countOf node ∧
      result.elim 0 Validated.height = heightOf node ∧
      result.map Validated.winner = winnerOf node ∧
      result.elim 0 Validated.maximumBalance ≤ 1 := by
  induction h generalizing lower upper with
  | nothing => exact ⟨none, rfl, rfl, rfl, rfl, zero_le _⟩
  | @just count height entry winner left right hleft hright hcount hheight hwinner hrightLow
      hleftLow ihLeft ihRight =>
      have hparts := hsorted.parts
      obtain ⟨hfront, hback, hacross⟩ := pairwise_append.mp hsorted
      have hmem : entry ∈ entriesOf (.just count height entry winner left right) :=
        mem_append_right _ mem_cons_self
      obtain ⟨leftResult, hleftResult, hleftCount, hleftHeight, hleftWinner, hleftBalance⟩ :=
        ihLeft hparts.1 lower (some entry.entryKey)
          (fun bound hbound other hother => hlower bound hbound other (mem_append_left _ hother))
          (fun bound hbound other hother => by
            cases hbound
            exact hacross other hother entry mem_cons_self)
      obtain ⟨rightResult, hrightResult, hrightCount, hrightHeight, hrightWinner, hrightBalance⟩ :=
        ihRight hparts.2 (some entry.entryKey) upper
          (fun bound hbound other hother => by
            cases hbound
            exact gt_of_lt ((pairwise_cons.mp hback).1 other hother))
          (fun bound hbound other hother =>
            hupper bound hbound other (mem_append_right _ (mem_cons_of_mem _ hother)))
      have hlowerPassed : ¬(lower.any fun bound => compare entry.entryKey bound != .gt) = true := by
        rw [Option.any_eq_true]
        rintro ⟨bound, hbound, hne⟩
        rw [hlower bound hbound entry hmem] at hne
        cases hne
      have hupperPassed : ¬(upper.any fun bound => compare entry.entryKey bound != .lt) = true := by
        rw [Option.any_eq_true]
        rintro ⟨bound, hbound, hne⟩
        rw [hupper bound hbound entry hmem] at hne
        cases hne
      rw [validateNode, if_neg hlowerPassed, if_neg hupperPassed]
      simp only [hleftResult, hrightResult, Option.bind_eq_bind, Option.bind_some, hleftCount,
        hrightCount, hleftHeight, hrightHeight, hleftWinner, hrightWinner]
      have hsame : ¬sameEntry winner
          (chooseWinner entry (winnerOf left) (winnerOf right)) = false := by
        rw [← hwinner, sameEntry_self]
        exact Bool.noConfusion
      rw [if_neg]
      · refine ⟨_, rfl, hcount.symm, hheight.symm, congrArg some hwinner.symm, ?_⟩
        rw [Option.elim_some]
        dsimp only
        omega
      · rintro (hbalance | hwrong | hwrong | hwrong)
        · omega
        · exact hwrong hcount
        · exact hwrong hheight
        · exact hsame hwrong

end Validation

end Durable7.FingerTree.PrioritySearchQueue
