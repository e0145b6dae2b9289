import Durable7.Hamt.MerkleSearchTree.Digests

/-!
# Three-way merge

The merge walks base, left, and right in step, always at the least key that is
left in any of them.  At every key it decides from the three sides alone, so its
result is a table over the keys of the three trees.
-/

namespace Durable7.Hamt

open Foundation List MerkleEntry Std.TransCmp Std.OrientedCmp

variable {k v : Type}

inductive MerkleMergeValue (v : Type) where
  | MergeAbsent
  | MergePresent (value : v)
  deriving DecidableEq

structure MerkleThreeWayMergeConflict (k v : Type) where
  mergeConflictKey : k
  mergeConflictBase : MerkleMergeValue v
  mergeConflictLeft : MerkleMergeValue v
  mergeConflictRight : MerkleMergeValue v

inductive MerkleMergeResolution (v : Type) where
  | MergeUnresolved
  | MergeUseBase
  | MergeUseLeft
  | MergeUseRight
  | MergeSetValue (value : v)
  | MergeDelete

inductive MerkleThreeWayMergeResult (k v : Type) where
  | MerkleMergeSucceeded (tree : MerkleSearchTree k v)
  | MerkleMergeConflicted (conflicts : List (MerkleThreeWayMergeConflict k v))

/-! ## The walk -/

/-- The least of the first keys; `none` stands for Haskell's `error`. -/
def minimumEntryKey (policy : MerkleSearchTreePolicy k v)
    (base left right : List (MerkleEntry k v)) : Option k :=
  match [base, left, right].filterMap fun entries => entries.head?.map entryKey with
  | [] => none
  | first :: rest => some (rest.foldl (fun current candidate =>
      if policy.compareMerkleKeys candidate current = .lt then candidate else current)
      first)

def takeMergeSide (policy : MerkleSearchTreePolicy k v) (key : k) :
    List (MerkleEntry k v) → Option (MerkleEntry k v) × List (MerkleEntry k v)
  | [] => (none, [])
  | entry :: rest =>
      if policy.compareMerkleKeys entry.entryKey key = .eq then (some entry, rest)
      else (none, entry :: rest)

def mergeSidesEqual (valuesEqual : v → v → Bool) :
    Option (MerkleEntry k v) → Option (MerkleEntry k v) → Bool
  | none, none => true
  | some left, some right => valuesEqual left.entryValue right.entryValue
  | _, _ => false

def mergeValue : Option (MerkleEntry k v) → MerkleMergeValue v
  | none => .MergeAbsent
  | some entry => .MergePresent entry.entryValue

/-- What the merge makes of one key. -/
inductive MergeDecision (k v : Type) where
  | output (pair : Option (k × v))
  | conflict (conflict : MerkleThreeWayMergeConflict k v)

def takeSide (side : Option (MerkleEntry k v)) : MergeDecision k v := .output (side.map pair)

/-- The resolver's answer to one conflict; no resolver leaves it unresolved. -/
def resolveConflict (resolver : Option (MerkleThreeWayMergeConflict k v → MerkleMergeResolution v))
    (representative : MerkleEntry k v) (base left right : Option (MerkleEntry k v)) :
    MergeDecision k v :=
  let conflict : MerkleThreeWayMergeConflict k v :=
    ⟨representative.entryKey, mergeValue base, mergeValue left, mergeValue right⟩
  match resolver.elim .MergeUnresolved (fun resolve => resolve conflict) with
  | .MergeUnresolved => .conflict conflict
  | .MergeUseBase => takeSide base
  | .MergeUseLeft => takeSide left
  | .MergeUseRight => takeSide right
  | .MergeDelete => .output none
  | .MergeSetValue value => .output (some (representative.entryKey, value))

/-- The branches of the walk at one key. -/
def mergeDecision (valuesEqual : v → v → Bool)
    (resolver : Option (MerkleThreeWayMergeConflict k v → MerkleMergeResolution v))
    (base left right : Option (MerkleEntry k v)) : MergeDecision k v :=
  if mergeSidesEqual valuesEqual left base then takeSide right
  else if mergeSidesEqual valuesEqual right base || mergeSidesEqual valuesEqual left right then
    takeSide left
  else
    match left.or (right.or base) with
    -- three absent sides are equal, so the first branch has taken them
    | none => .output none
    | some representative => resolveConflict resolver representative base left right

namespace MergeDecision

def pair? : MergeDecision k v → Option (k × v)
  | .output pair => pair
  | .conflict _ => none

def conflict? : MergeDecision k v → Option (MerkleThreeWayMergeConflict k v)
  | .output _ => none
  | .conflict found => some found

end MergeDecision

/-- Merged pairs and conflicts, each in reverse. -/
structure MergeState (k v : Type) where
  output : List (k × v)
  conflicts : List (MerkleThreeWayMergeConflict k v)

namespace MergeState

def record (state : MergeState k v) : MergeDecision k v → MergeState k v
  | .output none => state
  | .output (some pair) => ⟨pair :: state.output, state.conflicts⟩
  | .conflict conflict => ⟨state.output, conflict :: state.conflicts⟩

end MergeState

/-- The walk over three entry lists, bounded by the number of its steps. -/
def walkMerge (policy : MerkleSearchTreePolicy k v) (valuesEqual : v → v → Bool)
    (resolver : Option (MerkleThreeWayMergeConflict k v → MerkleMergeResolution v)) :
    Nat → List (MerkleEntry k v) → List (MerkleEntry k v) → List (MerkleEntry k v) →
      MergeState k v → Option (MergeState k v)
  | _, [], [], [], state => some state
  | 0, _, _, _, _ => none
  | steps + 1, base, left, right, state => do
      let key ← minimumEntryKey policy base left right
      let (baseSide, baseTail) := takeMergeSide policy key base
      let (leftSide, leftTail) := takeMergeSide policy key left
      let (rightSide, rightTail) := takeMergeSide policy key right
      walkMerge policy valuesEqual resolver steps baseTail leftTail rightTail
        (state.record (mergeDecision valuesEqual resolver baseSide leftSide rightSide))

/-- `finish`: a tree of the merged pairs, unless a conflict remains. -/
def finishMerge (policy : MerkleSearchTreePolicy k v) (state : MergeState k v) :
    Except MerkleTreeError (MerkleThreeWayMergeResult k v) :=
  match state.conflicts with
  | [] => .MerkleMergeSucceeded <$> fromList state.output.reverse policy
  | conflicts => .ok (.MerkleMergeConflicted conflicts.reverse)

/-- The entry-by-entry merge, whatever the root digests. -/
def mergeEntries (valuesEqual : v → v → Bool)
    (resolver : Option (MerkleThreeWayMergeConflict k v → MerkleMergeResolution v))
    (base left right : MerkleSearchTree k v) :
    Option (Except MerkleTreeError (MerkleThreeWayMergeResult k v)) := do
  let state ← walkMerge base.policy valuesEqual resolver
    (base.entries.length + left.entries.length + right.entries.length)
    base.entries left.entries right.entries ⟨[], []⟩
  some (finishMerge base.policy state)

def mergeThreeWayWith (valuesEqual : v → v → Bool)
    (resolver : Option (MerkleThreeWayMergeConflict k v → MerkleMergeResolution v))
    (base left right : MerkleSearchTree k v) :
    Option (Except MerkleTreeError (MerkleThreeWayMergeResult k v)) :=
  if ¬ compatibleMerklePolicies base.policy left.policy ∨
      ¬ compatibleMerklePolicies base.policy right.policy then
    some (.error .IncompatibleMerklePolicy)
  else if left.rootDigest = base.rootDigest then some (.ok (.MerkleMergeSucceeded right))
  else if right.rootDigest = base.rootDigest ∨ left.rootDigest = right.rootDigest then
    some (.ok (.MerkleMergeSucceeded left))
  else mergeEntries valuesEqual resolver base left right

/-! ## One step of the walk -/

variable {policy : MerkleSearchTreePolicy k v}

/-- A side taken at a key: the list's entry there, with the entries above the key left over. -/
structure TakenSide (policy : MerkleSearchTreePolicy k v) (key : k)
    (side : Option (MerkleEntry k v)) (entries tail : List (MerkleEntry k v)) : Prop where
  split : entries = side.toList ++ tail
  found : findKey policy.compareMerkleKeys entryKey key entries = side
  above : ∀ entry ∈ tail, policy.compareMerkleKeys key entry.entryKey = .lt

namespace TakenSide

variable {key : k} {side : Option (MerkleEntry k v)} {entries tail : List (MerkleEntry k v)}
  (h : TakenSide policy key side entries tail)
include h

theorem sorted_tail (hsorted : StrictlySorted policy.compareMerkleKeys entryKey entries) :
    StrictlySorted policy.compareMerkleKeys entryKey tail :=
  hsorted.sublist (h.split ▸ sublist_append_right _ _)

variable {entry : MerkleEntry k v}

theorem side_key (hentry : entry ∈ side.toList) :
    policy.compareMerkleKeys entry.entryKey key = .eq :=
  (findKey_mem (h.found.trans (Option.mem_toList.mp hentry))).2

theorem key_or_tail (hentry : entry ∈ entries) :
    policy.compareMerkleKeys entry.entryKey key = .eq ∨ entry ∈ tail := by
  rw [h.split] at hentry
  exact (mem_append.mp hentry).imp_left h.side_key

theorem length_le : tail.length ≤ entries.length := by
  simp [h.split]

theorem length_lt [Std.ReflCmp policy.compareMerkleKeys] (hentry : entry ∈ entries)
    (hkey : entry.entryKey = key) : tail.length < entries.length := by
  have hside : entry ∉ tail := by
    intro htail
    have hlt := h.above entry htail
    have hself : policy.compareMerkleKeys key key = .eq := Std.ReflCmp.compare_self
    rw [hkey, hself] at hlt
    cases hlt
  rw [h.split] at hentry ⊢
  have := length_pos_of_mem ((mem_append.mp hentry).resolve_right hside)
  rw [length_append]
  omega

theorem findKey_tail [Std.TransCmp policy.compareMerkleKeys] {other : k}
    (hother : policy.compareMerkleKeys key other = .lt) :
    findKey policy.compareMerkleKeys entryKey other entries =
      findKey policy.compareMerkleKeys entryKey other tail := by
  conv_lhs => rw [h.split]
  refine findKey_append_of_ne fun entry hentry heq => ?_
  rw [congr_left (h.side_key hentry), hother] at heq
  cases heq

end TakenSide

section Step

variable [Std.TransCmp policy.compareMerkleKeys]

private theorem foldl_least (first : k) (rest : List k) :
    rest.foldl (fun current candidate =>
      if policy.compareMerkleKeys candidate current = .lt then candidate else current)
      first ∈ first :: rest ∧
    ∀ key ∈ first :: rest, (policy.compareMerkleKeys (rest.foldl (fun current candidate =>
      if policy.compareMerkleKeys candidate current = .lt then candidate else current)
      first) key).isLE := by
  have hself : ∀ key, (policy.compareMerkleKeys key key).isLE := by
    intro key
    rw [show policy.compareMerkleKeys key key = .eq from Std.ReflCmp.compare_self]
    rfl
  induction rest generalizing first with
  | nil => simpa using hself first
  | cons candidate rest ih =>
      rw [foldl_cons]
      split
      · rename_i hlt
        obtain ⟨hmem, hleast⟩ := ih candidate
        refine ⟨mem_cons_of_mem _ hmem, fun key hkey => ?_⟩
        rcases mem_cons.mp hkey with rfl | hkey
        · exact isLE_trans (hleast candidate mem_cons_self) (by rw [hlt]; rfl)
        · exact hleast key hkey
      · rename_i hge
        obtain ⟨hmem, hleast⟩ := ih first
        refine ⟨?_, fun key hkey => ?_⟩
        · rcases mem_cons.mp hmem with heq | hmem
          · rw [heq]
            exact mem_cons_self
          · exact mem_cons_of_mem _ (mem_cons_of_mem _ hmem)
        · rcases mem_cons.mp hkey with rfl | hkey
          · exact hleast key mem_cons_self
          · rcases mem_cons.mp hkey with rfl | hkey
            · refine isLE_trans (hleast first mem_cons_self) ?_
              rw [← isGE_iff_isLE]
              exact Ordering.isGE_iff_ne_lt.mpr hge
            · exact hleast key (mem_cons_of_mem _ hkey)

/-- Nothing in the list is below the key. -/
def NoneBelow (policy : MerkleSearchTreePolicy k v) (key : k)
    (entries : List (MerkleEntry k v)) : Prop :=
  ∀ entry ∈ entries, (policy.compareMerkleKeys key entry.entryKey).isLE

theorem noneBelow_of_head {key : k} {entries : List (MerkleEntry k v)}
    (hsorted : StrictlySorted policy.compareMerkleKeys entryKey entries)
    (h : ∀ entry, entries.head? = some entry → (policy.compareMerkleKeys key entry.entryKey).isLE) :
    NoneBelow policy key entries := by
  intro entry hentry
  cases entries with
  | nil => cases hentry
  | cons first rest =>
      have hfirst := h first rfl
      rcases mem_cons.mp hentry with rfl | hrest
      · exact hfirst
      · have hlt := (pairwise_cons.mp hsorted).1 entry hrest
        exact isLE_trans hfirst (by rw [hlt]; rfl)

theorem minimumEntryKey_spec {base left right : List (MerkleEntry k v)}
    (hbase : StrictlySorted policy.compareMerkleKeys entryKey base)
    (hleft : StrictlySorted policy.compareMerkleKeys entryKey left)
    (hright : StrictlySorted policy.compareMerkleKeys entryKey right)
    (hne : ¬ (base = [] ∧ left = [] ∧ right = [])) :
    ∃ key, minimumEntryKey policy base left right = some key ∧
      (∃ entry ∈ base ++ left ++ right, entry.entryKey = key) ∧
      NoneBelow policy key base ∧ NoneBelow policy key left ∧
      NoneBelow policy key right := by
  rw [minimumEntryKey]
  have hheads : ∀ entries ∈ [base, left, right], ∀ entry, entries.head? = some entry →
      entry.entryKey ∈ [base, left, right].filterMap fun entries => entries.head?.map entryKey := by
    intro entries hentries entry hentry
    exact mem_filterMap.mpr ⟨entries, hentries, by rw [hentry]; rfl⟩
  have hback : ∀ key ∈ [base, left, right].filterMap (fun entries =>
      entries.head?.map entryKey),
      ∃ entry ∈ base ++ left ++ right, entry.entryKey = key := by
    intro key hkey
    obtain ⟨entries, hentries, hkey⟩ := mem_filterMap.mp hkey
    obtain ⟨entry, hentry, rfl⟩ := Option.map_eq_some_iff.mp hkey
    have hmem := mem_of_head? hentry
    refine ⟨entry, ?_, rfl⟩
    simp only [mem_cons, not_mem_nil, or_false] at hentries
    rcases hentries with rfl | rfl | rfl <;> simp [hmem]
  cases hcandidates : [base, left, right].filterMap fun entries => entries.head?.map entryKey with
  | nil =>
      refine absurd ?_ hne
      have hnone : ∀ entries ∈ [base, left, right], entries = [] := by
        intro entries hentries
        cases entries with
        | nil => rfl
        | cons entry rest =>
            have hmem := hheads _ hentries entry rfl
            rw [hcandidates] at hmem
            cases hmem
      exact ⟨hnone _ (by simp), hnone _ (by simp), hnone _ (by simp)⟩
  | cons first rest =>
      rw [hcandidates] at hheads hback
      obtain ⟨hmem, hleast⟩ := @foldl_least k v policy _ first rest
      refine ⟨_, rfl, hback _ hmem, noneBelow_of_head hbase fun entry hentry => ?_,
        noneBelow_of_head hleft fun entry hentry => ?_,
        noneBelow_of_head hright fun entry hentry => ?_⟩
      · exact hleast _ (hheads base (by simp) entry hentry)
      · exact hleast _ (hheads left (by simp) entry hentry)
      · exact hleast _ (hheads right (by simp) entry hentry)

theorem takeMergeSide_spec {key : k} {entries : List (MerkleEntry k v)}
    (hsorted : StrictlySorted policy.compareMerkleKeys entryKey entries)
    (hbelow : NoneBelow policy key entries) :
    ∃ side tail, takeMergeSide policy key entries = (side, tail) ∧
      TakenSide policy key side entries tail := by
  cases entries with
  | nil => exact ⟨none, [], rfl, rfl, rfl, by simp⟩
  | cons first rest =>
      obtain ⟨hfirst, hrest⟩ := pairwise_cons.mp hsorted
      rw [takeMergeSide]
      split
      · rename_i heq
        refine ⟨some first, rest, rfl, rfl,
          hsorted.findKey_eq_some.mpr ⟨mem_cons_self, heq⟩, fun entry hentry => ?_⟩
        rw [← congr_left heq]
        exact hfirst entry hentry
      · rename_i hne
        have habove : ∀ entry ∈ first :: rest,
            policy.compareMerkleKeys key entry.entryKey = .lt := by
          have hlt : policy.compareMerkleKeys key first.entryKey = .lt := by
            have hle := hbelow first mem_cons_self
            cases hcompare : policy.compareMerkleKeys key first.entryKey with
            | lt => rfl
            | eq => exact absurd (eq_symm hcompare) hne
            | gt =>
                rw [hcompare] at hle
                cases hle
          intro entry hentry
          rcases mem_cons.mp hentry with rfl | hentry
          · exact hlt
          · exact lt_trans hlt (hfirst entry hentry)
        refine ⟨none, first :: rest, rfl, rfl, findKey_eq_none.mpr fun entry hentry heq => ?_,
          habove⟩
        have hlt := habove entry hentry
        rw [eq_symm heq] at hlt
        cases hlt

end Step

/-- The table of the merge: what three lists of entries decide at a key. -/
def decisionAt (policy : MerkleSearchTreePolicy k v) (valuesEqual : v → v → Bool)
    (resolver : Option (MerkleThreeWayMergeConflict k v → MerkleMergeResolution v))
    (base left right : List (MerkleEntry k v)) (key : k) : MergeDecision k v :=
  mergeDecision valuesEqual resolver
    (findKey policy.compareMerkleKeys entryKey key base)
    (findKey policy.compareMerkleKeys entryKey key left)
    (findKey policy.compareMerkleKeys entryKey key right)

theorem MergeState.record_eq (state : MergeState k v) (decision : MergeDecision k v) :
    state.record decision = ⟨decision.pair?.toList ++ state.output,
      decision.conflict?.toList ++ state.conflicts⟩ := by
  match decision with
  | .output none => rfl
  | .output (some pair) => rfl
  | .conflict conflict => rfl

/-- The keys at which a walk over three lists decides. -/
structure WalkedKeys (policy : MerkleSearchTreePolicy k v)
    (base left right : List (MerkleEntry k v)) (keys : List k) : Prop where
  sorted : StrictlySorted policy.compareMerkleKeys id keys
  occurs : ∀ key ∈ keys, ∃ entry ∈ base ++ left ++ right, entry.entryKey = key
  covers : ∀ entry ∈ base ++ left ++ right, ∃ key ∈ keys,
    policy.compareMerkleKeys key entry.entryKey = .eq

theorem WalkedKeys.cons [Std.TransCmp policy.compareMerkleKeys] {key : k} {keys : List k}
    {baseSide leftSide rightSide : Option (MerkleEntry k v)}
    {base baseTail left leftTail right rightTail : List (MerkleEntry k v)}
    (h : WalkedKeys policy baseTail leftTail rightTail keys)
    (hbase : TakenSide policy key baseSide base baseTail)
    (hleft : TakenSide policy key leftSide left leftTail)
    (hright : TakenSide policy key rightSide right rightTail)
    (hkey : ∃ entry ∈ base ++ left ++ right, entry.entryKey = key) :
    WalkedKeys policy base left right (key :: keys) := by
  simp only [mem_append] at hkey
  refine ⟨pairwise_cons.mpr ⟨fun other hother => ?_, h.sorted⟩, fun other hother => ?_,
    fun entry hentry => ?_⟩
  · obtain ⟨entry, hentry, rfl⟩ := h.occurs other hother
    simp only [mem_append] at hentry
    rcases hentry with (hentry | hentry) | hentry
    · exact hbase.above entry hentry
    · exact hleft.above entry hentry
    · exact hright.above entry hentry
  · simp only [hbase.split, hleft.split, hright.split, mem_append] at hkey ⊢
    rcases mem_cons.mp hother with rfl | hother
    · exact hkey
    · obtain ⟨entry, hentry, hsame⟩ := h.occurs other hother
      simp only [mem_append] at hentry
      exact ⟨entry, by tauto, hsame⟩
  · have hcases : policy.compareMerkleKeys entry.entryKey key = .eq ∨
        entry ∈ baseTail ++ leftTail ++ rightTail := by
      simp only [mem_append] at hentry ⊢
      rcases hentry with (hentry | hentry) | hentry
      · exact (hbase.key_or_tail hentry).imp_right fun h => .inl (.inl h)
      · exact (hleft.key_or_tail hentry).imp_right fun h => .inl (.inr h)
      · exact (hright.key_or_tail hentry).imp_right .inr
    rcases hcases with heq | htail
    · exact ⟨key, mem_cons_self, eq_symm heq⟩
    · obtain ⟨other, hother, heq⟩ := h.covers entry htail
      exact ⟨other, mem_cons_of_mem _ hother, heq⟩

section Walk

variable [Std.TransCmp policy.compareMerkleKeys] (valuesEqual : v → v → Bool)
  (resolver : Option (MerkleThreeWayMergeConflict k v → MerkleMergeResolution v))

theorem walkMerge_spec : ∀ (steps : Nat) {base left right : List (MerkleEntry k v)}
    (state : MergeState k v),
    StrictlySorted policy.compareMerkleKeys entryKey base →
    StrictlySorted policy.compareMerkleKeys entryKey left →
    StrictlySorted policy.compareMerkleKeys entryKey right →
    base.length + left.length + right.length ≤ steps →
    ∃ keys, WalkedKeys policy base left right keys ∧
      walkMerge policy valuesEqual resolver steps base left right state = some
        ⟨(keys.filterMap fun key => (decisionAt policy valuesEqual resolver base left
            right key).pair?).reverse ++ state.output,
          (keys.filterMap fun key => (decisionAt policy valuesEqual resolver base left
            right key).conflict?).reverse ++ state.conflicts⟩ := by
  intro steps
  induction steps with
  | zero =>
      intro base left right state _ _ _ hsteps
      obtain rfl : base = [] := length_eq_zero_iff.mp (by omega)
      obtain rfl : left = [] := length_eq_zero_iff.mp (by omega)
      obtain rfl : right = [] := length_eq_zero_iff.mp (by omega)
      exact ⟨[], ⟨.nil, by simp, by simp⟩, rfl⟩
  | succ steps ih =>
      intro base left right state hbase hleft hright hsteps
      by_cases hempty : base = [] ∧ left = [] ∧ right = []
      · obtain ⟨rfl, rfl, rfl⟩ := hempty
        exact ⟨[], ⟨.nil, by simp, by simp⟩, rfl⟩
      obtain ⟨key, hkey, hoccurs, hbaseBelow, hleftBelow, hrightBelow⟩ :=
        minimumEntryKey_spec hbase hleft hright hempty
      obtain ⟨baseSide, baseTail, hbaseTake, hbaseTaken⟩ := takeMergeSide_spec hbase hbaseBelow
      obtain ⟨leftSide, leftTail, hleftTake, hleftTaken⟩ := takeMergeSide_spec hleft hleftBelow
      obtain ⟨rightSide, rightTail, hrightTake, hrightTaken⟩ :=
        takeMergeSide_spec hright hrightBelow
      -- the least key is a side of the list it comes from, so that list gets shorter
      have hshorter : baseTail.length + leftTail.length + rightTail.length <
          base.length + left.length + right.length := by
        have := hbaseTaken.length_le
        have := hleftTaken.length_le
        have := hrightTaken.length_le
        obtain ⟨least, hleast, hleastKey⟩ := hoccurs
        simp only [mem_append] at hleast
        rcases hleast with (hmem | hmem) | hmem
        · have := hbaseTaken.length_lt hmem hleastKey
          omega
        · have := hleftTaken.length_lt hmem hleastKey
          omega
        · have := hrightTaken.length_lt hmem hleastKey
          omega
      obtain ⟨keys, hkeys, hwalk⟩ := ih
        (state.record (mergeDecision valuesEqual resolver baseSide leftSide rightSide))
        (hbaseTaken.sorted_tail hbase) (hleftTaken.sorted_tail hleft)
        (hrightTaken.sorted_tail hright) (by omega)
      have hwalked := hkeys.cons hbaseTaken hleftTaken hrightTaken hoccurs
      have hdecisions : ∀ other ∈ keys,
          decisionAt policy valuesEqual resolver base left right other =
            decisionAt policy valuesEqual resolver baseTail leftTail rightTail other := by
        intro other hother
        have habove : policy.compareMerkleKeys key other = .lt :=
          (pairwise_cons.mp hwalked.sorted).1 other hother
        rw [decisionAt, hbaseTaken.findKey_tail habove, hleftTaken.findKey_tail habove,
          hrightTaken.findKey_tail habove, decisionAt]
      have hhere : decisionAt policy valuesEqual resolver base left right key =
          mergeDecision valuesEqual resolver baseSide leftSide rightSide := by
        rw [decisionAt, hbaseTaken.found, hleftTaken.found, hrightTaken.found]
      refine ⟨key :: keys, hwalked, ?_⟩
      have hrewrite : ∀ {β : Type} (f : MergeDecision k v → Option β),
          (keys.filterMap fun other =>
            f (decisionAt policy valuesEqual resolver base left right other)) =
          keys.filterMap fun other =>
            f (decisionAt policy valuesEqual resolver baseTail leftTail rightTail other) :=
        fun f => filterMap_congr fun other hother => by rw [hdecisions other hother]
      rw [walkMerge.eq_3 _ _ _ _ _ _ _ _ (by simpa using hempty), hkey]
      simp only [Option.bind_eq_bind, Option.bind_some, hbaseTake, hleftTake, hrightTake]
      rw [hwalk, ← hhere, MergeState.record_eq, filterMap_cons, filterMap_cons,
        hrewrite MergeDecision.pair?, hrewrite MergeDecision.conflict?]
      cases decisionAt policy valuesEqual resolver base left right key with
      | output pair => cases pair <;> simp [MergeDecision.pair?, MergeDecision.conflict?]
      | conflict found => simp [MergeDecision.pair?, MergeDecision.conflict?]

end Walk

end Durable7.Hamt
