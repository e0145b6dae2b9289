import Durable7.Hamt.MerkleSearchTree.OrderedMap

/-!
# Cursors

A cursor is a tree and a gap between two of its entries.  A session runs edits of
the tree and edits at the gap.  Its meaning is an ordered map with a gap, and every
session that succeeds leaves a tree that refines this map.
-/

namespace Durable7.Hamt

open Foundation List Nat

variable {k v : Type}

structure MerkleCursor (k v : Type) where
  cursorSnapshot : MerkleSearchTree k v
  cursorPosition : Nat

inductive MerkleCursorEditError where
  | MerkleCursorDuplicateKey
  | MerkleCursorWrongGap (expected actual : Nat)
  | MerkleCursorTreeError (problem : MerkleTreeError)
  deriving DecidableEq

def cursor (tree : MerkleSearchTree k v) : MerkleCursor k v := ⟨tree, 0⟩

def cursorAt (position : Int) (tree : MerkleSearchTree k v) : Option (MerkleCursor k v) :=
  if position < 0 ∨ position > tree.size then none else some ⟨tree, position.toNat⟩

def cursorSeek (position : Int) (current : MerkleCursor k v) : Option (MerkleCursor k v) :=
  if position < 0 ∨ position > current.cursorSnapshot.size then none
  else if position = current.cursorPosition then some current
  else some ⟨current.cursorSnapshot, position.toNat⟩

def cursorPeekPrevious (current : MerkleCursor k v) : Option (MerkleEntry k v) :=
  if current.cursorPosition = 0 then none
  else entryAtRank (current.cursorPosition - 1) current.cursorSnapshot

def cursorPeekNext (current : MerkleCursor k v) : Option (MerkleEntry k v) :=
  entryAtRank current.cursorPosition current.cursorSnapshot

def cursorInsert (key : k) (value : v) (current : MerkleCursor k v) :
    Except MerkleCursorEditError (MerkleCursor k v) :=
  let (expected, found) := lowerBoundRank key current.cursorSnapshot
  if found then .error .MerkleCursorDuplicateKey
  else if expected ≠ current.cursorPosition then
    .error (.MerkleCursorWrongGap expected current.cursorPosition)
  else do
    let edited ← (Hamt.insert key value current.cursorSnapshot).mapError .MerkleCursorTreeError
    .ok ⟨edited, current.cursorPosition + 1⟩

def cursorPut (key : k) (value : v) (current : MerkleCursor k v) :
    Except MerkleCursorEditError (MerkleCursor k v) :=
  let (expected, found) := lowerBoundRank key current.cursorSnapshot
  if expected ≠ current.cursorPosition then
    .error (.MerkleCursorWrongGap expected current.cursorPosition)
  else do
    let edited ← (Hamt.insert key value current.cursorSnapshot).mapError .MerkleCursorTreeError
    .ok ⟨edited, current.cursorPosition + if found then 0 else 1⟩

def cursorSetNextValue (value : v) (current : MerkleCursor k v) :
    Except MerkleTreeError (Option (MerkleCursor k v)) :=
  match cursorPeekNext current with
  | none => .ok none
  | some entry =>
      (fun edited => some ⟨edited, current.cursorPosition⟩) <$>
        Hamt.insert entry.entryKey value current.cursorSnapshot

def cursorDeletePrevious (current : MerkleCursor k v) :
    Except MerkleTreeError (Option (MerkleCursor k v)) :=
  match cursorPeekPrevious current with
  | none => .ok none
  | some entry =>
      (fun edited => some ⟨edited, current.cursorPosition - 1⟩) <$>
        Hamt.delete entry.entryKey current.cursorSnapshot

def cursorDeleteNext (current : MerkleCursor k v) :
    Except MerkleTreeError (Option (MerkleCursor k v)) :=
  match cursorPeekNext current with
  | none => .ok none
  | some entry =>
      (fun edited => some ⟨edited, current.cursorPosition⟩) <$>
        Hamt.delete entry.entryKey current.cursorSnapshot

/-! ## Sessions -/

inductive CursorStep (k v : Type) where
  | edit (operation : MapOperation k v)
  | seek (position : Int)
  | cursorInsert (key : k) (value : v)
  | cursorPut (key : k) (value : v)
  | cursorSetNextValue (value : v)
  | cursorDeletePrevious
  | cursorDeleteNext

/-- Why a step gives no cursor. -/
inductive CursorFailure where
  | tree (problem : MerkleTreeError)
  | edit (problem : MerkleCursorEditError)
  | nothing
  deriving DecidableEq

namespace CursorFailure

/-- The tree error inside a failure. -/
def treeError : CursorFailure → Option MerkleTreeError
  | .tree problem => some problem
  | .edit (.MerkleCursorTreeError problem) => some problem
  | .edit _ => none
  | .nothing => none

def ofOption {α : Type} : Option α → Except CursorFailure α
  | none => .error .nothing
  | some value => .ok value

end CursorFailure

namespace CursorStep

/-- An edit of the tree starts over at its first gap. -/
def apply (current : MerkleCursor k v) : CursorStep k v → Except CursorFailure (MerkleCursor k v)
  | .edit operation => do
      let edited ← (operation.apply current.cursorSnapshot).mapError .tree
      .ok (cursor edited)
  | .seek position => CursorFailure.ofOption (cursorSeek position current)
  | .cursorInsert key value => (Hamt.cursorInsert key value current).mapError .edit
  | .cursorPut key value => (Hamt.cursorPut key value current).mapError .edit
  | .cursorSetNextValue value => do
      let moved ← (Hamt.cursorSetNextValue value current).mapError .tree
      CursorFailure.ofOption moved
  | .cursorDeletePrevious => do
      let moved ← (Hamt.cursorDeletePrevious current).mapError .tree
      CursorFailure.ofOption moved
  | .cursorDeleteNext => do
      let moved ← (Hamt.cursorDeleteNext current).mapError .tree
      CursorFailure.ofOption moved

end CursorStep

def runSession (policy : MerkleSearchTreePolicy k v) (steps : List (CursorStep k v)) :
    Except CursorFailure (MerkleCursor k v) :=
  steps.foldlM CursorStep.apply (cursor (emptyTree policy))

/-- An ordered map with a gap. -/
structure MapGap (k v : Type) where
  pairs : List (k × v)
  position : Nat

/-- What a step does to the map: edits at the gap are edits of its list there. -/
def CursorStep.meaning (compare : k → k → Ordering) (gap : MapGap k v) : CursorStep k v → MapGap k v
  | .edit operation => ⟨operation.pairs compare gap.pairs, 0⟩
  | .seek position => ⟨gap.pairs, position.toNat⟩
  | .cursorInsert key value => ⟨gap.pairs.insertIdx gap.position (key, value), gap.position + 1⟩
  | .cursorPut key value =>
      ⟨putPair compare key value gap.pairs, gap.position +
        if (findKey compare Prod.fst key gap.pairs).isSome then 0 else 1⟩
  | .cursorSetNextValue value =>
      ⟨gap.pairs.modify gap.position fun pair => (pair.1, value), gap.position⟩
  | .cursorDeletePrevious => ⟨gap.pairs.eraseIdx (gap.position - 1), gap.position - 1⟩
  | .cursorDeleteNext => ⟨gap.pairs.eraseIdx gap.position, gap.position⟩

def sessionMeaning (compare : k → k → Ordering) (steps : List (CursorStep k v)) : MapGap k v :=
  steps.foldl (CursorStep.meaning compare) ⟨[], 0⟩

/-! ## Every step follows its meaning -/

variable {policy : MerkleSearchTreePolicy k v}

/-- The cursor shows the map at its gap. -/
structure AtGap (policy : MerkleSearchTreePolicy k v) (gap : MapGap k v)
    (current : MerkleCursor k v) : Prop where
  policy_eq : current.cursorSnapshot.policy = policy
  canonical : CanonicalTree current.cursorSnapshot
  pairs_eq : current.cursorSnapshot.toAscList = gap.pairs
  position_eq : current.cursorPosition = gap.position
  position_le : gap.position ≤ gap.pairs.length

theorem cursorSeek_eq (position : Int) (current : MerkleCursor k v) :
    cursorSeek position current = cursorAt position current.cursorSnapshot := by
  rw [cursorSeek, cursorAt]
  split
  · rfl
  · split
    · rename_i hsame
      rw [hsame]
      rfl
    · rfl

theorem CanonicalTree.size_eq {tree : MerkleSearchTree k v} (h : CanonicalTree tree) :
    tree.size = tree.toAscList.length := by
  rw [MerkleSearchTree.toAscList, length_map]
  exact h.root.count_eq

namespace AtGap

variable {gap : MapGap k v} {current next : MerkleCursor k v}

theorem start (policy : MerkleSearchTreePolicy k v) :
    AtGap policy ⟨[], 0⟩ (cursor (emptyTree policy)) where
  policy_eq := rfl
  canonical := ⟨canonicalChild_none _, OrderedEntries.nil _⟩
  pairs_eq := rfl
  position_eq := rfl
  position_le := le_refl _

theorem peekNext (h : AtGap policy gap current) :
    (cursorPeekNext current).map MerkleEntry.pair = gap.pairs[gap.position]? := by
  have hnonneg : ¬ ((current.cursorPosition : Int) < 0) := by omega
  rw [cursorPeekNext, h.canonical.entryAtRank_eq, if_neg hnonneg, ← h.pairs_eq, ← h.position_eq,
    MerkleSearchTree.toAscList, List.getElem?_map, Int.toNat_natCast]

theorem peekPrevious (h : AtGap policy gap current) {entry : MerkleEntry k v}
    (hentry : cursorPeekPrevious current = some entry) :
    0 < gap.position ∧ gap.pairs[gap.position - 1]? = some entry.pair := by
  rw [cursorPeekPrevious] at hentry
  split at hentry
  · cases hentry
  · rename_i hposition
    have hnonneg : ¬ ((current.cursorPosition : Int) - 1 < 0) := by omega
    have hrank : ((current.cursorPosition : Int) - 1).toNat = current.cursorPosition - 1 := by omega
    rw [h.canonical.entryAtRank_eq, if_neg hnonneg, hrank] at hentry
    rw [← h.pairs_eq, ← h.position_eq, MerkleSearchTree.toAscList, List.getElem?_map, hentry]
    exact ⟨by omega, rfl⟩

theorem lowerBound (hlaw : LawfulPolicy policy) (h : AtGap policy gap current) (key : k) :
    lowerBoundRank key current.cursorSnapshot =
      ((gap.pairs.filter fun pair => policy.compareMerkleKeys pair.1 key == .lt).length,
        (findKey policy.compareMerkleKeys Prod.fst key gap.pairs).isSome) := by
  have hlaw' : LawfulPolicy current.cursorSnapshot.policy := h.policy_eq ▸ hlaw
  rw [(h.canonical.refinesMap hlaw').lowerBoundRank_eq, h.pairs_eq, h.policy_eq]

theorem sorted (h : AtGap policy gap current) :
    StrictlySorted policy.compareMerkleKeys Prod.fst gap.pairs := by
  have hsorted := h.canonical.ordered.sorted
  rw [← h.pairs_eq, ← h.policy_eq]
  exact pairwise_map.mpr hsorted

theorem edit (hlaw : LawfulWirePolicy policy) (h : AtGap policy gap current)
    (operation : MapOperation k v) {edited : MerkleSearchTree k v}
    (hedit : operation.apply current.cursorSnapshot = .ok edited) (position : Nat)
    (hposition : position ≤ (operation.pairs policy.compareMerkleKeys gap.pairs).length) :
    AtGap policy ⟨operation.pairs policy.compareMerkleKeys gap.pairs, position⟩
      ⟨edited, position⟩ := by
  obtain ⟨hpolicy, hcanonical, hpairs, -, -⟩ := h
  rw [← hpolicy] at hlaw
  obtain ⟨hresult, hpolicy', hpairs'⟩ := hcanonical.apply_pairs hlaw operation hedit
  rw [hpolicy, hpairs] at hpairs'
  exact ⟨hpolicy'.trans hpolicy, hresult, hpairs', rfl, hposition⟩

theorem seek (h : AtGap policy gap current) {position : Int}
    (hseek : cursorSeek position current = some next) :
    AtGap policy ⟨gap.pairs, position.toNat⟩ next := by
  rw [cursorSeek_eq, cursorAt, h.canonical.size_eq, h.pairs_eq] at hseek
  split at hseek
  · cases hseek
  · cases hseek
    exact ⟨h.policy_eq, h.canonical, h.pairs_eq, rfl, by
      change position.toNat ≤ gap.pairs.length
      omega⟩

section

variable (hlaw : LawfulWirePolicy policy) (h : AtGap policy gap current)
include hlaw h

theorem cursorInsert {key : k}
    {value : v} (hinsert : Hamt.cursorInsert key value current = .ok next) :
    AtGap policy ⟨gap.pairs.insertIdx gap.position (key, value), gap.position + 1⟩ next := by
  rw [Hamt.cursorInsert, h.lowerBound hlaw.toLawfulPolicy] at hinsert
  simp only at hinsert
  have := hlaw.compare_total
  split at hinsert
  · cases hinsert
  rename_i hfound
  split at hinsert
  · cases hinsert
  rename_i hposition
  have hgap : (gap.pairs.filter fun pair =>
      policy.compareMerkleKeys pair.1 key == .lt).length = gap.position := by
    rw [← h.position_eq]
    exact not_not.mp hposition
  have habsent : ∀ pair ∈ gap.pairs, policy.compareMerkleKeys pair.1 key ≠ .eq := by
    apply findKey_eq_none.mp
    simpa using hfound
  obtain ⟨edited, hedited, hnext⟩ := bind_eq_ok.mp hinsert
  cases hnext
  rw [mapError_eq_ok] at hedited
  have hput : putPair policy.compareMerkleKeys key value gap.pairs =
      gap.pairs.insertIdx gap.position (key, value) := by
    rw [putPair_lowerBound h.sorted habsent, hgap]
  rw [← hput, h.position_eq]
  apply h.edit hlaw (.insert key value) hedited
  rw [MapOperation.pairs, length_putPair_absent habsent]
  exact succ_le_succ h.position_le

theorem cursorPut {key : k} {value : v} (hput : Hamt.cursorPut key value current = .ok next) :
    AtGap policy ⟨putPair policy.compareMerkleKeys key value gap.pairs, gap.position +
      if (findKey policy.compareMerkleKeys Prod.fst key gap.pairs).isSome then 0 else 1⟩
      next := by
  rw [Hamt.cursorPut, h.lowerBound hlaw.toLawfulPolicy] at hput
  simp only at hput
  split at hput
  · cases hput
  obtain ⟨edited, hedited, hnext⟩ := bind_eq_ok.mp hput
  cases hnext
  rw [mapError_eq_ok] at hedited
  rw [h.position_eq]
  apply h.edit hlaw (.insert key value) hedited
  have hle := h.position_le
  have hlonger : gap.pairs.length ≤
      (putPair policy.compareMerkleKeys key value gap.pairs).length := length_putPair gap.pairs
  cases hfound : findKey policy.compareMerkleKeys Prod.fst key gap.pairs with
  | none =>
      rw [MapOperation.pairs, length_putPair_absent (findKey_eq_none.mp hfound)]
      exact succ_le_succ hle
  | some pair => exact hle.trans hlonger

theorem cursorSetNextValue
    {value : v} (hset : Hamt.cursorSetNextValue value current = .ok (some next)) :
    AtGap policy ⟨gap.pairs.modify gap.position fun pair => (pair.1, value), gap.position⟩
      next := by
  have := hlaw.compare_total
  have hnext := h.peekNext
  rw [Hamt.cursorSetNextValue] at hset
  split at hset
  · cases hset
  rename_i entry hentry
  rw [hentry] at hnext
  obtain ⟨hindex, hpair⟩ := List.getElem?_eq_some_iff.mp hnext.symm
  obtain ⟨edited, hedited, hmoved⟩ := map_eq_ok.mp hset
  cases hmoved
  have hkey : entry.entryKey = gap.pairs[gap.position].1 := by
    rw [hpair]
    rfl
  rw [hkey] at hedited
  rw [← putPair_getElem h.sorted hindex, h.position_eq]
  exact h.edit hlaw (.insert _ value) hedited _ (h.position_le.trans (length_putPair _))

theorem deleteAt
    {entry : MerkleEntry k v} {index : Nat} (hentry : gap.pairs[index]? = some entry.pair)
    {edited : MerkleSearchTree k v}
    (hdelete : Hamt.delete entry.entryKey current.cursorSnapshot = .ok edited)
    (position : Nat) (hposition : position < gap.pairs.length) :
    AtGap policy ⟨gap.pairs.eraseIdx index, position⟩ ⟨edited, position⟩ := by
  have := hlaw.compare_total
  obtain ⟨hindex, hpair⟩ := List.getElem?_eq_some_iff.mp hentry
  have hkey : entry.entryKey = gap.pairs[index].1 := by
    rw [hpair]
    rfl
  rw [hkey] at hdelete
  have herase := erasePair_getElem h.sorted hindex
  rw [← herase]
  apply h.edit hlaw (.delete _) hdelete
  rw [MapOperation.pairs, herase, length_eraseIdx_of_lt hindex]
  omega

theorem cursorDeletePrevious (hdelete : Hamt.cursorDeletePrevious current = .ok (some next)) :
    AtGap policy ⟨gap.pairs.eraseIdx (gap.position - 1), gap.position - 1⟩ next := by
  rw [Hamt.cursorDeletePrevious] at hdelete
  split at hdelete
  · cases hdelete
  rename_i entry hentry
  obtain ⟨hpositive, hpair⟩ := h.peekPrevious hentry
  obtain ⟨edited, hedited, hmoved⟩ := map_eq_ok.mp hdelete
  cases hmoved
  have hle := h.position_le
  rw [h.position_eq]
  exact h.deleteAt hlaw hpair hedited _ (by omega)

theorem cursorDeleteNext (hdelete : Hamt.cursorDeleteNext current = .ok (some next)) :
    AtGap policy ⟨gap.pairs.eraseIdx gap.position, gap.position⟩ next := by
  have hnext := h.peekNext
  rw [Hamt.cursorDeleteNext] at hdelete
  split at hdelete
  · cases hdelete
  rename_i entry hentry
  rw [hentry] at hnext
  obtain ⟨hindex, -⟩ := List.getElem?_eq_some_iff.mp hnext.symm
  obtain ⟨edited, hedited, hmoved⟩ := map_eq_ok.mp hdelete
  cases hmoved
  rw [h.position_eq]
  exact h.deleteAt hlaw hnext.symm hedited _ hindex

theorem step (step : CursorStep k v) (hstep : step.apply current = .ok next) :
    AtGap policy (step.meaning policy.compareMerkleKeys gap) next := by
  have hpresent : ∀ {found : Option (MerkleCursor k v)},
      CursorFailure.ofOption found = .ok next → found = some next := by
    intro found hfound
    cases found with
    | none => cases hfound
    | some moved =>
        cases hfound
        rfl
  cases step with
  | edit operation =>
      obtain ⟨edited, hedited, hnext⟩ := bind_eq_ok.mp hstep
      cases hnext
      exact h.edit hlaw operation (mapError_eq_ok.mp hedited) 0 (zero_le _)
  | seek position => exact h.seek (hpresent hstep)
  | cursorInsert key value => exact h.cursorInsert hlaw (mapError_eq_ok.mp hstep)
  | cursorPut key value => exact h.cursorPut hlaw (mapError_eq_ok.mp hstep)
  | cursorSetNextValue value =>
      obtain ⟨moved, hmoved, hnext⟩ := bind_eq_ok.mp hstep
      obtain rfl := hpresent hnext
      exact h.cursorSetNextValue hlaw (mapError_eq_ok.mp hmoved)
  | cursorDeletePrevious =>
      obtain ⟨moved, hmoved, hnext⟩ := bind_eq_ok.mp hstep
      obtain rfl := hpresent hnext
      exact h.cursorDeletePrevious hlaw (mapError_eq_ok.mp hmoved)
  | cursorDeleteNext =>
      obtain ⟨moved, hmoved, hnext⟩ := bind_eq_ok.mp hstep
      obtain rfl := hpresent hnext
      exact h.cursorDeleteNext hlaw (mapError_eq_ok.mp hmoved)

end

end AtGap

/-! ## The only tree error is an overflow -/

/-- The only failure is an overflow. -/
def OnlyOverflow {α : Type} (result : Except MerkleTreeError α) : Prop :=
  ∀ problem, result = .error problem → problem = .MerkleTreeSizeOverflow

namespace OnlyOverflow

variable {α β : Type}

theorem ok (value : α) : OnlyOverflow (.ok value) := by
  intro problem h
  cases h

theorem map {first : Except MerkleTreeError α} (hfirst : OnlyOverflow first)
    (f : α → β) : OnlyOverflow (f <$> first) := by
  cases first with
  | error problem =>
      intro other h
      cases h
      exact hfirst _ rfl
  | ok value => exact ok _

end OnlyOverflow

theorem Gives.onlyOverflow {α : Type} {holds : α → Prop} {result : Except MerkleTreeError α}
    (h : Gives holds result) : OnlyOverflow result := by
  rintro problem rfl
  cases h
  rfl

theorem fromList_onlyOverflow (hlaw : LawfulPolicy policy)
    (source : List (k × v)) : OnlyOverflow (fromList source policy) := by
  obtain ⟨entries, hordered, -, hbuild⟩ := fromList_eq hlaw source
  have houtcome := buildCanonical_ordered hordered
  rw [hbuild]
  cases hresult : buildCanonical policy entries with
  | ok root =>
      intro problem hproblem
      cases hproblem
  | error problem =>
      rw [hresult] at houtcome
      rintro other ⟨⟩
      exact houtcome.1

/-- A failed step carries no tree error but an overflow. -/
def OnlyOverflowFailure {α : Type} (result : Except CursorFailure α) : Prop :=
  ∀ failure problem, result = .error failure → failure.treeError = some problem →
    problem = .MerkleTreeSizeOverflow

namespace OnlyOverflowFailure

variable {α β : Type}

theorem ok (value : α) : OnlyOverflowFailure (.ok value) := by
  intro failure problem h
  cases h

theorem ofOption (found : Option α) : OnlyOverflowFailure (CursorFailure.ofOption found) := by
  intro failure problem h hproblem
  cases found with
  | none =>
      cases h
      cases hproblem
  | some value => cases h

theorem tree {result : Except MerkleTreeError α} (h : OnlyOverflow result) :
    OnlyOverflowFailure (result.mapError .tree) := by
  intro failure problem hresult hproblem
  cases result with
  | ok value => cases hresult
  | error other =>
      cases hresult
      cases hproblem
      exact h _ rfl

theorem bind {first : Except CursorFailure α} {next : α → Except CursorFailure β}
    (hfirst : OnlyOverflowFailure first) (hnext : ∀ value, OnlyOverflowFailure (next value)) :
    OnlyOverflowFailure (first >>= next) := by
  cases first with
  | ok value => exact hnext value
  | error failure =>
      intro other problem h hproblem
      cases h
      exact hfirst _ _ rfl hproblem

theorem edit {result : Except MerkleTreeError (MerkleSearchTree k v)}
    (h : OnlyOverflow result) (next : MerkleSearchTree k v → MerkleCursor k v) :
    OnlyOverflowFailure ((result.mapError MerkleCursorEditError.MerkleCursorTreeError >>=
      fun edited => .ok (next edited)).mapError .edit) := by
  intro failure problem hresult hproblem
  cases result with
  | ok value => cases hresult
  | error other =>
      cases hresult
      cases hproblem
      exact h _ rfl

end OnlyOverflowFailure

theorem CursorStep.apply_onlyOverflow {current : MerkleCursor k v}
    (hlaw : LawfulPolicy current.cursorSnapshot.policy)
    (h : CanonicalTree current.cursorSnapshot) (step : CursorStep k v) :
    OnlyOverflowFailure (step.apply current) := by
  cases step with
  | edit operation =>
      refine OnlyOverflowFailure.bind (OnlyOverflowFailure.tree ?_)
        fun _ => OnlyOverflowFailure.ok _
      cases operation with
      | insert key value => exact (insert_gives hlaw h key value).onlyOverflow
      | delete key => exact (delete_gives hlaw h key).onlyOverflow
      | clear => exact OnlyOverflow.ok _
      | fromList source => exact fromList_onlyOverflow hlaw source
  | seek position => exact OnlyOverflowFailure.ofOption _
  | cursorInsert key value =>
      rw [CursorStep.apply, Hamt.cursorInsert]
      split
      split
      · intro failure problem hresult hproblem
        cases hresult
        cases hproblem
      split
      · intro failure problem hresult hproblem
        cases hresult
        cases hproblem
      · exact OnlyOverflowFailure.edit (insert_gives hlaw h key value).onlyOverflow _
  | cursorPut key value =>
      rw [CursorStep.apply, Hamt.cursorPut]
      split
      split
      · intro failure problem hresult hproblem
        cases hresult
        cases hproblem
      · exact OnlyOverflowFailure.edit (insert_gives hlaw h key value).onlyOverflow _
  | cursorSetNextValue value =>
      refine OnlyOverflowFailure.bind (OnlyOverflowFailure.tree ?_)
        fun _ => OnlyOverflowFailure.ofOption _
      rw [Hamt.cursorSetNextValue]
      split
      · exact OnlyOverflow.ok _
      · exact (insert_gives hlaw h _ value).onlyOverflow.map _
  | cursorDeletePrevious =>
      refine OnlyOverflowFailure.bind (OnlyOverflowFailure.tree ?_)
        fun _ => OnlyOverflowFailure.ofOption _
      rw [Hamt.cursorDeletePrevious]
      split
      · exact OnlyOverflow.ok _
      · exact (delete_gives hlaw h _).onlyOverflow.map _
  | cursorDeleteNext =>
      refine OnlyOverflowFailure.bind (OnlyOverflowFailure.tree ?_)
        fun _ => OnlyOverflowFailure.ofOption _
      rw [Hamt.cursorDeleteNext]
      split
      · exact OnlyOverflow.ok _
      · exact (delete_gives hlaw h _).onlyOverflow.map _

theorem runSession_atGap (hlaw : LawfulWirePolicy policy) (steps : List (CursorStep k v)) :
    (∀ reached, runSession policy steps = .ok reached →
      AtGap policy (sessionMeaning policy.compareMerkleKeys steps) reached) ∧
      OnlyOverflowFailure (runSession policy steps) := by
  have hrun : ∀ (steps : List (CursorStep k v)) gap current, AtGap policy gap current →
      (∀ reached, steps.foldlM CursorStep.apply current = .ok reached →
        AtGap policy (steps.foldl (CursorStep.meaning policy.compareMerkleKeys) gap) reached) ∧
        OnlyOverflowFailure (steps.foldlM CursorStep.apply current) := by
    intro steps
    induction steps with
    | nil =>
        intro gap current h
        refine ⟨fun reached hreached => ?_, OnlyOverflowFailure.ok _⟩
        cases hreached
        exact h
    | cons step steps ih =>
        intro gap current h
        rw [foldlM_cons, foldl_cons]
        cases hstep : step.apply current with
        | error failure =>
            refine ⟨fun reached hreached => (nomatch hreached), ?_⟩
            have hlaw' : LawfulPolicy current.cursorSnapshot.policy :=
              h.policy_eq ▸ hlaw.toLawfulPolicy
            have hfailure := CursorStep.apply_onlyOverflow hlaw' h.canonical step
            rw [hstep] at hfailure
            intro other problem hother
            cases hother
            exact hfailure _ _ rfl
        | ok next => exact ih _ next (h.step hlaw step hstep)
  exact hrun steps _ _ (AtGap.start policy)

/--
A session of tree edits and cursor edits keeps the tree in step with an ordered
map: where it succeeds, the tree is sound, its pairs are those of the map, and its
queries answer from them; where it fails, no failure is about the representation.
-/
theorem runSession_refines (hlaw : LawfulWirePolicy policy) (steps : List (CursorStep k v)) :
    (∀ reached, runSession policy steps = .ok reached →
      RefinesMap (sessionMeaning policy.compareMerkleKeys steps).pairs reached.cursorSnapshot ∧
        reached.cursorSnapshot.policy = policy ∧
        reached.cursorPosition = (sessionMeaning policy.compareMerkleKeys steps).position ∧
        reached.cursorPosition ≤ reached.cursorSnapshot.size) ∧
      ∀ failure message, runSession policy steps = .error failure →
        failure.treeError ≠ some (.InvalidMerkleRepresentation message) := by
  obtain ⟨hreached, hfailure⟩ := runSession_atGap hlaw steps
  refine ⟨fun reached hrun => ?_, fun failure message hrun htree => ?_⟩
  · have h := hreached reached hrun
    have hlaw' : LawfulPolicy reached.cursorSnapshot.policy := h.policy_eq ▸ hlaw.toLawfulPolicy
    have hrefines := h.canonical.refinesMap hlaw'
    rw [h.pairs_eq] at hrefines
    refine ⟨hrefines, h.policy_eq, h.position_eq, ?_⟩
    rw [h.position_eq, h.canonical.size_eq, h.pairs_eq]
    exact h.position_le
  · cases hfailure failure _ hrun htree

theorem runSession_refines_bytes :
    runSession bytesPolicy [.cursorInsert (some [1]) none, .seek 0, .cursorInsert none none] =
        .ok ⟨bytesTree, 1⟩ ∧
      RefinesMap [(none, none), (some [1], none)] bytesTree := by
  have hfirst : cursorInsert (some [1]) none (cursor (emptyTree bytesPolicy)) =
      .ok ⟨⟨some (soleNode upperEntry none), bytesPolicy⟩, 1⟩ := by
    rw [cursorInsert, cursor, show lowerBoundRank (some [1]) (emptyTree bytesPolicy) = (0, false) by
      rw [lowerBoundRank, emptyTree, lowerBoundNode]]
    simp only [insert_upper]
    rfl
  have hbound : lowerBoundRank none
      (⟨some (soleNode upperEntry none), bytesPolicy⟩ : MerkleSearchTree _ _) = (0, false) := by
    rw [lowerBoundRank, lowerBoundNode]
    change (match findPosition bytesPolicy [upperEntry] none with
      | (position, found) => if found then _ else lowerBoundNode bytesPolicy none
          (0 + ((List.range position).map _).sum) ((soleNode upperEntry none).child position)) = _
    rw [findPosition_upper]
    exact lowerBoundNode.eq_1 _ _ _
  have hsecond : cursorInsert none none
      (⟨⟨some (soleNode upperEntry none), bytesPolicy⟩, 0⟩ : MerkleCursor _ _) =
        .ok ⟨bytesTree, 1⟩ := by
    rw [cursorInsert, hbound]
    simp only [insert_over (show (encodedValue bytesPolicy none).length ≤ maxInt32 by decide)]
    rfl
  have hrun : runSession bytesPolicy [.cursorInsert (some [1]) none, .seek 0,
      .cursorInsert none none] = .ok ⟨bytesTree, 1⟩ := by
    simp only [runSession, foldlM_cons, CursorStep.apply, hfirst]
    change ((cursorInsert none none ⟨⟨some (soleNode upperEntry none), bytesPolicy⟩, 0⟩).mapError
      _ >>= _) = _
    rw [hsecond]
    rfl
  exact ⟨hrun, ((runSession_refines bytesPolicy_lawful _).1 _ hrun).1⟩

end Durable7.Hamt
