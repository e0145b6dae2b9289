import Durable7.Hamt.HashMap.Insertion

/-!
# Removal and adjustment

A removal may leave a single entry or a single bucket below a branch.  The branch takes
the entry inline, or gives way to the bucket.
-/

namespace Durable7.Hamt.HashMap

open Foundation

section

open List

universe z

variable {k : Type} {v : Type z} {hashPolicy : HashPolicy k}

/-! ## Removal -/

def RemoveResult.map (change : Node k v → Node k v) : RemoveResult k v → RemoveResult k v
  | .missing => .missing
  | .removed node value => .removed (change node) value

/-- What a removal does to the class of its key. -/
inductive Removes (hashPolicy : HashPolicy k) (shift : Nat) (key : k) (node : Node k v) :
    RemoveResult k v → Prop where
  | missing (habsent : entryAt hashPolicy.equalKeys key (nodeEntries node) = none) :
      Removes hashPolicy shift key node .missing
  | removed {after : Node k v} {stored : k} {value : v}
      (hstored : entryAt hashPolicy.equalKeys key (nodeEntries node) = some (stored, value))
      (hafter : Written hashPolicy shift key none node after) :
      Removes hashPolicy shift key node (.removed after value)

variable {key : k}

theorem removeCollision_absent {entries : List (k × v)}
    (h : entryAt hashPolicy.equalKeys key entries = none) :
    removeCollision hashPolicy key entries = none := by
  induction entries with
  | nil => rfl
  | cons entry entries ih =>
      rw [entryAt_eq_none] at h
      rw [removeCollision, h entry mem_cons_self, if_neg (by simp),
        ih (entryAt_eq_none.mpr fun other hother => h other (mem_cons_of_mem _ hother))]

theorem removeCollision_present {front back : List (k × v)} {entry : k × v}
    (hfront : ∀ passed ∈ front, hashPolicy.equalKeys key passed.1 = false)
    (hentry : hashPolicy.equalKeys key entry.1 = true) :
    removeCollision hashPolicy key (front ++ entry :: back) = some (entry.2, front ++ back) := by
  induction front with
  | nil => rw [nil_append, removeCollision, if_pos hentry, nil_append]
  | cons passed front ih =>
      rw [cons_append, removeCollision, hfront passed mem_cons_self, if_neg (by simp),
        ih fun other hother => hfront other (mem_cons_of_mem _ hother)]
      rfl

variable {shift : Nat} {node : Node k v}

theorem Canonical.singletonPayload_eq (h : Canonical hashPolicy shift node) :
    singletonPayload node = payload? node := by
  cases h with
  | emptyNode => rfl
  | leaf hhash => rfl
  | @collision _ _ _ entries hcount hlength hhash hdistinct =>
      match entries, hlength with
      | first :: second :: rest, _ => rfl
  | @branch _ count dataMap nodeMap payloads children slots hcount hshift hpacked hslots hroutes
      hspread =>
      change singletonPayload (.branch count dataMap nodeMap payloads children) = none
      unfold singletonPayload
      split
      · rename_i heq
        cases heq
      · rename_i heq
        cases heq
      · rename_i heq
        cases heq
        obtain ⟨left, hleft, right, hright, hne⟩ :=
          hspread.mono fun _ => (hpacked.entries_perm 0).mem_iff.mpr
        simp only [nodeEntries, nodesEntries, map_cons, map_nil, append_nil,
          mem_singleton] at hleft hright
        rw [hleft, hright] at hne
        exact absurd rfl hne
      · rfl

variable {children : List (Node k v)} {dataMap nodeMap : BitVec 32}
  {payloads : List (BitVec 32 × k × v)} {slots : Nat → Node k v}

theorem removeNode_branch {count : Nat} (hpacked : Packed slots dataMap nodeMap payloads children)
    (hashValue : BitVec 32) (key : k)
    (hsingle : ∀ {node value}, removeNode hashPolicy hashValue key (shift + bitsPerLevel)
      (slots (hashIndex hashValue shift)) = .removed node value →
      singletonPayload node = payload? node) :
    removeNode hashPolicy hashValue key shift (.branch count dataMap nodeMap payloads children) =
      (removeNode hashPolicy hashValue key (shift + bitsPerLevel)
        (slots (hashIndex hashValue shift))).map fun node =>
          exchangedBranch normalizeBranch (hashIndex hashValue shift)
            (slots (hashIndex hashValue shift)) node dataMap nodeMap payloads children := by
  have hplace := hashIndex_lt hashValue shift
  rw [removeNode]
  rcases hpacked.slot_cases hplace with ⟨hslot, hdata, hnodes⟩ |
    ⟨leafHash, leafKey, leafValue, hslot, hdata, hitem⟩ | ⟨hpart, hdata, hnodes, hitem⟩
  · simp [bitFor, hdata, hnodes, hslot, removeNode, RemoveResult.map]
  · simp only [bitFor, hdata, hitem, hslot, removeNode, ne_eq, not_false_eq_true, if_true,
      eq_comm (a := leafHash)]
    split
    · rfl
    · rfl
  · simp only [bitFor, hdata, hnodes, ne_eq, not_true_eq_false, if_false]
    split
    · simp_all only [reduceCtorEq]
    · rename_i child hchild
      obtain rfl := Option.some.inj (hitem.symm.trans hchild)
      generalize removeNode hashPolicy hashValue key (shift + bitsPerLevel)
        (slots (hashIndex hashValue shift)) = result at hsingle ⊢
      cases result with
      | missing => rfl
      | removed node value =>
          have hpayload := hsingle rfl
          simp only [RemoveResult.map, exchangedBranch, hpart.1, hpart.2]
          cases node with
          | emptyNode => rfl
          | leaf leafHash leafKey leafValue => rfl
          | collision count collisionHash entries =>
              simp only [hpayload]
              rfl
          | branch count dataMap nodeMap payloads children =>
              simp only [hpayload]
              rfl

theorem branch_normalized (hlawful : hashPolicy.Lawful) {entry : Option (k × v)}
    (hshift : shift < hashBits) (hpacked : Packed slots dataMap nodeMap payloads children)
    (hrouted : Routed hashPolicy shift slots)
    (hnode : Written hashPolicy (shift + bitsPerLevel) key entry
      (slots (hashIndex (hashFor hashPolicy key) shift)) node) (count : Nat) :
    Written hashPolicy shift key entry
      (.branch count dataMap nodeMap payloads children)
      (exchangedBranch normalizeBranch (hashIndex (hashFor hashPolicy key) shift)
        (slots (hashIndex (hashFor hashPolicy key) shift)) node dataMap nodeMap payloads
        children) := by
  have hexchanged := hpacked.exchange (hashIndex_lt (hashFor hashPolicy key) shift) node
  have hwritten := hrouted.write hlawful hnode
  obtain ⟨hcanonical, hperm⟩ := normalizeBranch_spec hshift hexchanged hwritten
  refine ⟨hcanonical, ?_⟩
  intro other
  have hafter := entryAt_perm hlawful.equivalence (hcanonical.distinct hlawful) hperm other
  rw [hpacked.entryAt_eq hlawful hrouted, ← hrouted.entryAt_eq hlawful]
  exact hafter.trans (hrouted.write_entryAt hlawful hnode other)

theorem removeNode_spec (hlawful : hashPolicy.Lawful) (h : Canonical hashPolicy shift node)
    (key : k) :
    Removes hashPolicy shift key node
      (removeNode hashPolicy (hashFor hashPolicy key) key shift node) := by
  induction h with
  | emptyNode =>
      rw [removeNode]
      exact .missing rfl
  | @leaf shift hashValue leafKey leafValue hhash =>
      have hstored := entryAt_leaf hashPolicy key hashValue leafKey leafValue
      rw [removeNode]
      simp only [leaf_test hlawful hhash]
      by_cases hkey : hashPolicy.equalKeys key leafKey = true
      · rw [if_pos hkey] at hstored ⊢
        refine .removed hstored ⟨.emptyNode, ?_⟩
        exact @sets_removed _ _ _ _ (leafKey, leafValue) hlawful.equivalence [] [] (by simp) hkey
          (pairwise_singleton _ _)
      · rw [if_neg hkey] at hstored ⊢
        exact .missing hstored
  | @collision shift count hashValue entries hcount hlength hhash hdistinct =>
      rw [removeNode]
      split
      · rename_i hne
        exact .missing (entryAt_other_hash hlawful hhash hne)
      · cases hstored : entryAt hashPolicy.equalKeys key entries with
        | none =>
            rw [removeCollision_absent hstored]
            exact .missing hstored
        | some stored =>
            obtain ⟨hkey, front, back, rfl, hfront⟩ := entryAt_split hstored
            rw [removeCollision_present hfront hkey]
            have hremaining : ∀ entry ∈ front ++ back, hashFor hashPolicy entry.1 = hashValue := by
              intro entry hentry
              apply hhash entry
              rcases mem_append.mp hentry with hentry | hentry
              · exact mem_append_left _ hentry
              · exact mem_append_right _ (mem_cons_of_mem _ hentry)
            obtain ⟨hcanonical, hentries⟩ :=
              @entriesToNode_spec _ _ hashPolicy shift hashValue _ hremaining hdistinct.removed
            refine .removed hstored ⟨hcanonical, ?_⟩
            rw [hentries]
            exact sets_removed hlawful.equivalence hfront hkey hdistinct
  | @branch shift count dataMap nodeMap payloads children slots hcount hshift hpacked hslots
      hroutes hspread ih =>
      have hrouted : Routed hashPolicy shift slots := ⟨hslots, hroutes⟩
      have hslot := ih _ (hashIndex_lt (hashFor hashPolicy key) shift)
      have hentry := hpacked.entryAt_eq hlawful hrouted count key
      rw [removeNode_branch hpacked _ _ (by
        intro node value hresult
        rw [hresult] at hslot
        cases hslot with
        | removed hstored hafter => exact hafter.canonical.singletonPayload_eq)]
      generalize removeNode hashPolicy (hashFor hashPolicy key) key (shift + bitsPerLevel)
        (slots (hashIndex (hashFor hashPolicy key) shift)) = result at hslot ⊢
      cases hslot with
      | missing habsent => exact .missing (hentry.trans habsent)
      | removed hstored hafter =>
          exact .removed (hentry.trans hstored)
            (branch_normalized hlawful hshift hpacked hrouted hafter count)

/-! ## Adjustment -/

def AdjustResult.map (change : Node k v → Node k v) : AdjustResult k v → AdjustResult k v
  | .notFound => .notFound
  | .adjusted node => .adjusted (change node)

def AdjustResult.All (holds : Node k v → Prop) : AdjustResult k v → Prop
  | .notFound => True
  | .adjusted node => holds node

/-- What an adjustment does to the class of its key. -/
inductive Adjusts (hashPolicy : HashPolicy k) (updater : v → v) (shift : Nat) (key : k)
    (node : Node k v) : AdjustResult k v → Prop where
  | notFound (habsent : entryAt hashPolicy.equalKeys key (nodeEntries node) = none) :
      Adjusts hashPolicy updater shift key node .notFound
  | adjusted {after : Node k v} {stored : k × v}
      (hstored : entryAt hashPolicy.equalKeys key (nodeEntries node) = some stored)
      (hafter : Written hashPolicy shift key (some (stored.1, updater stored.2)) node after) :
      Adjusts hashPolicy updater shift key node (.adjusted after)

theorem adjustCollision_absent {entries : List (k × v)} (updater : v → v)
    (h : entryAt hashPolicy.equalKeys key entries = none) :
    adjustCollision hashPolicy updater key entries = none := by
  induction entries with
  | nil => rfl
  | cons entry entries ih =>
      rw [entryAt_eq_none] at h
      rw [adjustCollision, h entry mem_cons_self, if_neg (by simp),
        ih (entryAt_eq_none.mpr fun other hother => h other (mem_cons_of_mem _ hother))]
      rfl

theorem adjustCollision_present {front back : List (k × v)} {entry : k × v} (updater : v → v)
    (hfront : ∀ passed ∈ front, hashPolicy.equalKeys key passed.1 = false)
    (hentry : hashPolicy.equalKeys key entry.1 = true) :
    adjustCollision hashPolicy updater key (front ++ entry :: back) =
      some (front ++ (entry.1, updater entry.2) :: back) := by
  induction front with
  | nil => rw [nil_append, adjustCollision, if_pos hentry, nil_append]
  | cons passed front ih =>
      rw [cons_append, adjustCollision, hfront passed mem_cons_self, if_neg (by simp),
        ih fun other hother => hfront other (mem_cons_of_mem _ hother)]
      rfl

theorem adjustNode_part (hnode : IsPart node) (updater : v → v) (hashValue : BitVec 32) (key : k)
    (shift : Nat) :
    (adjustNode hashPolicy updater hashValue key shift node).All IsPart := by
  cases node with
  | emptyNode => cases hnode.2
  | leaf leafHash leafKey leafValue => cases hnode.2
  | collision count collisionHash entries =>
      rw [adjustNode]
      repeat' split
      all_goals trivial
  | branch count dataMap nodeMap payloads children =>
      rw [adjustNode]
      dsimp only
      repeat' split
      all_goals trivial

theorem adjustNode_branch {count : Nat} (hpacked : Packed slots dataMap nodeMap payloads children)
    (updater : v → v) (hashValue : BitVec 32) (key : k) :
    adjustNode hashPolicy updater hashValue key shift
        (.branch count dataMap nodeMap payloads children) =
      (adjustNode hashPolicy updater hashValue key (shift + bitsPerLevel)
        (slots (hashIndex hashValue shift))).map fun node =>
          exchangedBranch makeBranchNode (hashIndex hashValue shift)
            (slots (hashIndex hashValue shift)) node dataMap nodeMap payloads children := by
  have hplace := hashIndex_lt hashValue shift
  rw [adjustNode]
  rcases hpacked.slot_cases hplace with ⟨hslot, hdata, hnodes⟩ |
    ⟨leafHash, leafKey, leafValue, hslot, hdata, hitem⟩ | ⟨hpart, hdata, hnodes, hitem⟩
  · simp [bitFor, hdata, hnodes, hslot, adjustNode, AdjustResult.map]
  · simp only [bitFor, hdata, hitem, hslot, adjustNode, ne_eq, not_false_eq_true, if_true,
      eq_comm (a := leafHash)]
    split
    · rfl
    · rfl
  · simp only [bitFor, hdata, hnodes, ne_eq, not_true_eq_false, if_false, not_false_eq_true,
      if_true]
    split
    · simp_all only [reduceCtorEq]
    · rename_i child hchild
      obtain rfl := Option.some.inj (hitem.symm.trans hchild)
      have hafter := @adjustNode_part _ _ hashPolicy _ hpart updater hashValue key
        (shift + bitsPerLevel)
      generalize adjustNode hashPolicy updater hashValue key (shift + bitsPerLevel)
        (slots (hashIndex hashValue shift)) = result at hafter ⊢
      cases result with
      | notFound => rfl
      | adjusted after =>
          simp only [AdjustResult.map, exchangedBranch, hpart.1, hpart.2, hafter.1, hafter.2]
          rfl

theorem adjustNode_spec (hlawful : hashPolicy.Lawful) (h : Canonical hashPolicy shift node)
    (updater : v → v) (key : k) :
    Adjusts hashPolicy updater shift key node
      (adjustNode hashPolicy updater (hashFor hashPolicy key) key shift node) := by
  induction h with
  | emptyNode =>
      rw [adjustNode]
      exact .notFound rfl
  | @leaf shift hashValue leafKey leafValue hhash =>
      have hstored := entryAt_leaf hashPolicy key hashValue leafKey leafValue
      rw [adjustNode]
      simp only [leaf_test hlawful hhash]
      by_cases hkey : hashPolicy.equalKeys key leafKey = true
      · rw [if_pos hkey] at hstored ⊢
        exact .adjusted hstored (leaf_changed hlawful hhash hkey leafValue _)
      · rw [if_neg hkey] at hstored ⊢
        exact .notFound hstored
  | @collision shift count hashValue entries hcount hlength hhash hdistinct =>
      rw [adjustNode]
      split
      · rename_i hne
        exact .notFound (entryAt_other_hash hlawful hhash hne)
      · cases hstored : entryAt hashPolicy.equalKeys key entries with
        | none =>
            rw [adjustCollision_absent updater hstored]
            exact .notFound hstored
        | some stored =>
            obtain ⟨hkey, front, back, rfl, hfront⟩ := entryAt_split hstored
            rw [adjustCollision_present updater hfront hkey]
            exact .adjusted hstored ⟨collision_changed hlength hhash hdistinct _,
              sets_middle hlawful.equivalence hfront hkey _⟩
  | @branch shift count dataMap nodeMap payloads children slots hcount hshift hpacked hslots
      hroutes hspread ih =>
      have hrouted : Routed hashPolicy shift slots := ⟨hslots, hroutes⟩
      have hslot := ih _ (hashIndex_lt (hashFor hashPolicy key) shift)
      have hentry := hpacked.entryAt_eq hlawful hrouted count key
      rw [adjustNode_branch hpacked]
      generalize adjustNode hashPolicy updater (hashFor hashPolicy key) key (shift + bitsPerLevel)
        (slots (hashIndex (hashFor hashPolicy key) shift)) = result at hslot ⊢
      cases hslot with
      | notFound habsent => exact .notFound (hentry.trans habsent)
      | adjusted hstored hafter =>
          exact .adjusted (hentry.trans hstored)
            (branch_written hlawful hshift hpacked hrouted hspread hafter count)

end

/-!
## Factory updates

One descent finds the class of the key before it runs one of two effects.  The value of the
effect is put where an insertion puts it.
-/

variable {k : Type} {v : Type z} {hashPolicy : HashPolicy k}

/-- A descent ends at a missing class or at a stored value, before any effect. -/
inductive Planned (valueEquality : v → v → Bool) (hashPolicy : HashPolicy k) (key : k) (shift : Nat)
    (node : Node k v) : Prop where
  | missing (rebuild : v → Node k v)
      (habsent : entryAt hashPolicy.equalKeys key (nodeEntries node) = none)
      (hinsert :
        ∀ value, insertNode hashPolicy false (hashFor hashPolicy key) key value shift node =
        .inserted (rebuild value))
      (h : ∀ {m : Type z → Type z} [Monad m] [LawfulMonad m] (addFactory : k → m v)
        (updateFactory : Option (k → v → m v)),
        factoryUpdateNode valueEquality hashPolicy addFactory updateFactory
            (hashFor hashPolicy key) key shift node = do
          let selected ← addFactory key
          pure (.factoryChanged true (rebuild selected) selected))
  | found (stored : k × v) (rebuild : v → Node k v)
      (hstored : entryAt hashPolicy.equalKeys key (nodeEntries node) = some stored)
      (hinsert :
        ∀ value, insertNode hashPolicy false (hashFor hashPolicy key) key value shift node =
        .replaced (rebuild value))
      (h : ∀ {m : Type z → Type z} [Monad m] [LawfulMonad m] (addFactory : k → m v)
        (updateFactory : Option (k → v → m v)),
        factoryUpdateNode valueEquality hashPolicy addFactory updateFactory
            (hashFor hashPolicy key) key shift node = do
          let result ← selectFactoryValue valueEquality key stored.2 updateFactory
          pure (if result.1 then .factoryChanged false (rebuild result.2) result.2
            else .factoryUnchanged result.2))

theorem findIdx?_present {key : k} {front : List (k × v)} {entry : k × v}
    (hfront : ∀ passed ∈ front, hashPolicy.equalKeys key passed.1 = false)
    (hentry : hashPolicy.equalKeys key entry.1 = true) (back : List (k × v)) :
    (front ++ entry :: back).findIdx? (fun stored => hashPolicy.equalKeys key stored.1) =
      some front.length := by
  rw [List.findIdx?_append, List.findIdx?_eq_none_iff.mpr hfront, List.findIdx?_cons, if_pos hentry]
  simp

theorem planned_branch (hlawful : hashPolicy.Lawful) {valueEquality : v → v → Bool} {key : k}
    {shift count : Nat} {slots : Nat → Node k v} {dataMap nodeMap : BitVec 32}
    {payloads : List (BitVec 32 × k × v)} {children : List (Node k v)}
    (hpacked : Packed slots dataMap nodeMap payloads children)
    (hrouted : Routed hashPolicy shift slots)
    (hchild : Planned valueEquality hashPolicy key (shift + bitsPerLevel)
      (slots (hashIndex (hashFor hashPolicy key) shift))) :
    Planned valueEquality hashPolicy key shift
      (.branch count dataMap nodeMap payloads children) := by
  have hplace := hashIndex_lt (hashFor hashPolicy key) shift
  have hentry := hpacked.entryAt_eq hlawful hrouted count key
  rcases hpacked.slot_cases hplace with ⟨hslot, hdata, hnodes⟩ |
    ⟨leafHash, leafKey, leafValue, hslot, hdata, hitem⟩ | ⟨hpart, hdata, hnodes, hitem⟩
  · rw [hslot] at hentry
    refine .missing (fun value => makeBranchNode
      (dataMap ||| bitFor (hashFor hashPolicy key) shift) nodeMap
      (insertAt (childIndex dataMap (bitFor (hashFor hashPolicy key) shift))
        (hashFor hashPolicy key, key, value) payloads) children) hentry ?_ ?_
    · simp [insertNode, bitFor, hdata, hnodes]
    · intros
      simp [factoryUpdateNode, bitFor, hdata, hnodes]
  · have hleaf := hrouted.canonical _ hplace
    rw [hslot] at hentry hleaf
    rw [entryAt_leaf] at hentry
    cases hleaf with
    | leaf hhash =>
    by_cases hkey : hashPolicy.equalKeys key leafKey = true
    · rw [if_pos hkey] at hentry
      obtain rfl : hashFor hashPolicy key = leafHash := (hashFor_eq hlawful hkey).trans hhash
      refine .found _ (fun value => makeBranchNode dataMap nodeMap
        (replaceAt (childIndex dataMap (bitFor (hashFor hashPolicy key) shift))
          (hashFor hashPolicy key, leafKey, value) payloads) children) hentry ?_ ?_
      · simp [insertNode, bitFor, hdata, hitem, hkey]
      · intros
        simp [factoryUpdateNode, bitFor, hdata, hitem, hkey]
    · rw [if_neg hkey] at hentry
      refine .missing (fun value => makeBranchNode
        (dataMap &&& ~~~bitFor (hashFor hashPolicy key) shift)
        (nodeMap ||| bitFor (hashFor hashPolicy key) shift)
        (removeAt (childIndex dataMap (bitFor (hashFor hashPolicy key) shift)) payloads)
        (insertAt (childIndex nodeMap (bitFor (hashFor hashPolicy key) shift))
          (mergeTwo (shift + bitsPerLevel) leafHash (.leaf leafHash leafKey leafValue)
            (hashFor hashPolicy key) (.leaf (hashFor hashPolicy key) key value)) children))
        hentry ?_ ?_
      · simp [insertNode, bitFor, hdata, hitem, hkey]
      · intros
        simp [factoryUpdateNode, bitFor, hdata, hitem, hkey]
  · cases hchild with
    | missing rebuild habsent hinsert hrun =>
        refine .missing (fun value => makeBranchNode dataMap nodeMap payloads
          (replaceAt (childIndex nodeMap (bitFor (hashFor hashPolicy key) shift)) (rebuild value)
            children)) (hentry.trans habsent) ?_ ?_
        · intro value
          have := hinsert value
          simp [insertNode, bitFor, hdata, hnodes]
          split <;> simp_all
        · intro m _ _ addFactory updateFactory
          have := hrun addFactory updateFactory
          simp [factoryUpdateNode, bitFor, hdata, hnodes]
          split <;> simp_all
    | found stored rebuild hstored hinsert hrun =>
        refine .found stored (fun value => makeBranchNode dataMap nodeMap payloads
          (replaceAt (childIndex nodeMap (bitFor (hashFor hashPolicy key) shift)) (rebuild value)
            children)) (hentry.trans hstored) ?_ ?_
        · intro value
          have := hinsert value
          simp [insertNode, bitFor, hdata, hnodes]
          split <;> simp_all
        · intro m _ _ addFactory updateFactory
          have := hrun addFactory updateFactory
          simp [factoryUpdateNode, bitFor, hdata, hnodes]
          split <;> simp_all
          congr 1
          funext result
          obtain ⟨changed, selected⟩ := result
          cases changed <;> rfl

theorem factoryUpdateNode_planned (hlawful : hashPolicy.Lawful) (valueEquality : v → v → Bool)
    (key : k) {shift : Nat} {node : Node k v} (h : Canonical hashPolicy shift node) :
    Planned valueEquality hashPolicy key shift node := by
  induction h with
  | emptyNode =>
      refine .missing (fun value => .leaf (hashFor hashPolicy key) key value) rfl ?_ ?_
      · simp [insertNode]
      · intros
        simp [factoryUpdateNode]
  | @leaf shift hashValue leafKey leafValue hhash =>
      have hentry := entryAt_leaf hashPolicy key hashValue leafKey leafValue
      by_cases hkey : hashPolicy.equalKeys key leafKey = true
      · rw [if_pos hkey] at hentry
        obtain rfl : hashFor hashPolicy key = hashValue := (hashFor_eq hlawful hkey).trans hhash
        refine .found _ (fun value => .leaf (hashFor hashPolicy key) leafKey value) hentry ?_ ?_
        · simp [insertNode, hkey]
        · intros
          simp [factoryUpdateNode, hkey]
      · rw [if_neg hkey] at hentry
        refine .missing (fun value => mergeTwo shift hashValue (.leaf hashValue leafKey leafValue)
          (hashFor hashPolicy key) (.leaf (hashFor hashPolicy key) key value)) hentry ?_ ?_
        · simp [insertNode, hkey]
        · intros
          simp [factoryUpdateNode, hkey]
  | @collision shift count hashValue entries hcount hlength hhash hdistinct =>
      by_cases hne : hashFor hashPolicy key ≠ hashValue
      · refine .missing (fun value => mergeTwo shift hashValue (.collision count hashValue entries)
          (hashFor hashPolicy key) (.leaf (hashFor hashPolicy key) key value))
          (entryAt_other_hash hlawful hhash hne) ?_ ?_
        · simp [insertNode, hne, hcount, makeCollision]
        · intros
          simp [factoryUpdateNode, hne]
      cases hstored : entryAt hashPolicy.equalKeys key entries with
      | none =>
          have hindex : entries.findIdx? (fun entry => hashPolicy.equalKeys key entry.1) = none :=
            List.findIdx?_eq_none_iff.mpr (entryAt_eq_none.mp hstored)
          refine .missing (fun value => makeCollision hashValue (entries ++ [(key, value)]))
            hstored ?_ ?_
          · simp [insertNode, not_not.mp hne, insertCollision_absent hstored]
          · intros
            simp [factoryUpdateNode, not_not.mp hne, -List.findIdx?_eq_none_iff, hindex]
      | some stored =>
          obtain ⟨hkey, front, back, rfl, hfront⟩ := entryAt_split hstored
          have hindex := findIdx?_present hfront hkey back
          refine .found stored (fun value => makeCollision hashValue
            (front ++ (stored.1, value) :: back)) hstored ?_ ?_
          · simp [insertNode, not_not.mp hne, insertCollision_present hfront hkey]
          · intros
            simp [factoryUpdateNode, not_not.mp hne, hindex, replaceAt_length]
  | branch hcount hshift hpacked hslots hroutes hspread ih =>
      exact planned_branch hlawful hpacked ⟨hslots, hroutes⟩ (ih _ (hashIndex_lt _ _))

end Durable7.Hamt.HashMap
