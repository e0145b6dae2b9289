import Durable7.Hamt.MerkleSearchTree.Canonical

/-!
# What the tree algorithms do to the traversal

Each algorithm is described by the traversal of its result: a split cuts the
traversal at the key, a join concatenates two traversals, and the edits change
one entry between the entries below and the entries above the key.
-/

namespace Durable7.Hamt

open Foundation List Nat

variable {k v : Type}

/-! ## Canonical intervals after an edit -/

variable {index : Nat}

section Lists

variable {α : Type} {holds : α → Prop} {value : α} {source : List α}

theorem forall_replaceAt (hvalue : holds value) (hsource : ∀ item ∈ source, holds item) :
    ∀ item ∈ replaceAt index value source, holds item := by
  simp only [replaceAt, mem_append, mem_singleton]
  rintro item ((h | rfl) | h)
  · exact hsource item (mem_of_mem_take h)
  · exact hvalue
  · exact hsource item (mem_of_mem_drop h)

theorem forall_insertAt (hvalue : holds value) (hsource : ∀ item ∈ source, holds item) :
    ∀ item ∈ insertAt index value source, holds item := by
  simp only [insertAt, mem_append, mem_singleton]
  rintro item ((h | rfl) | h)
  · exact hsource item (mem_of_mem_take h)
  · exact hvalue
  · exact hsource item (mem_of_mem_drop h)

theorem forall_removeAt (hsource : ∀ item ∈ source, holds item) :
    ∀ item ∈ removeAt index source, holds item := by
  simp only [removeAt, mem_append]
  rintro item (h | h)
  · exact hsource item (mem_of_mem_take h)
  · exact hsource item (mem_of_mem_drop h)

end Lists

variable {policy : MerkleSearchTreePolicy k v}

variable {node : MerkleNode k v}

theorem CanonicalNode.intervals (h : CanonicalNode policy node) :
    ∀ interval ∈ node.nodeChildren, CanonicalChild policy interval := by
  rintro interval hinterval child rfl
  exact h.children child hinterval

theorem newNode_spec {level : UInt8} {entries : List (MerkleEntry k v)}
    {children : List (Option (MerkleNode k v))}
    (h : newNode policy level entries children = .ok node)
    (hlevels : ∀ entry ∈ entries, entry.entryLevel = level)
    (hchildren : ∀ interval ∈ children, CanonicalChild policy interval) :
    CanonicalNode policy node ∧
      enumerateNode node = interleave entries (children.map enumerateChild) := by
  obtain ⟨hblock, rfl, rfl, rfl⟩ := newNode_eq_ok.mp h
  refine ⟨⟨hblock, hlevels, fun child hchild => ?_⟩, enumerateNode_eq node⟩
  exact hchildren (some child) hchild child rfl

theorem CanonicalNode.exists_entryLevel (h : CanonicalNode policy node) :
    ∃ entry ∈ enumerateNode node, entry.entryLevel = node.nodeLevel := by
  obtain ⟨entry, hentry⟩ := exists_mem_of_ne_nil _ h.block.nonempty
  exact ⟨entry, h.block.mem_enumerateNode.mpr (.inl hentry), h.levels entry hentry⟩

variable {children : List (Option (MerkleNode k v))} {entries : List (MerkleEntry k v)}
    {level : UInt8}

theorem encodeBlock_eq_error {subtreeCount : Nat} {problem : MerkleTreeError}
    (h : encodeBlock policy level subtreeCount entries children = .error problem) :
    problem = .MerkleTreeSizeOverflow ∧ ∃ entry ∈ entries,
      ¬ (entry.entryKeyBytes.length ≤ maxInt32 ∧ entry.entryValueBytes.length ≤ maxInt32) := by
  rw [encodeBlock] at h
  cases hcheck : entries.forM checkEntryLength with
  | ok done =>
      rw [hcheck, except_ok_bind] at h
      cases h
  | error first =>
      rw [hcheck, except_error_bind] at h
      cases h
      obtain ⟨entry, hentry, heq⟩ := forM_eq_error hcheck
      refine ⟨?_, entry, hentry, fun hfits => ?_⟩
      · unfold checkEntryLength at heq
        split at heq
        · cases heq
          rfl
        split at heq
        · cases heq
          rfl
        · cases heq
      · rw [checkEntryLength_eq_ok.mpr hfits] at heq
        cases heq

theorem newNode_eq_error {problem : MerkleTreeError} (hlevel : level ≤ 64) (hne : entries ≠ [])
    (harity : children.length = entries.length + 1)
    (hdescend : ∀ child, some child ∈ children → child.nodeLevel < level)
    (h : newNode policy level entries children = .error problem) :
    problem = .MerkleTreeSizeOverflow ∧
      (maxInt32 < entries.length + ((children.filterMap id).map MerkleNode.nodeCount).sum ∨
        ∃ entry ∈ entries, ¬ (entry.entryKeyBytes.length ≤ maxInt32 ∧
          entry.entryValueBytes.length ≤ maxInt32)) := by
  have hchildren : ¬ ∃ child ∈ children.filterMap id, child.nodeLevel ≥ level := by
    rintro ⟨child, hmem, hge⟩
    exact absurd hge (UInt8.not_le.mpr (hdescend child (by simpa using hmem)))
  obtain ⟨first, rest, hentries⟩ := exists_cons_of_ne_nil hne
  obtain ⟨child, tail, hlist⟩ := exists_cons_of_ne_nil
    (l := children) (by rintro rfl; simp at harity)
  obtain ⟨last, front, hlast⟩ := exists_cons_of_ne_nil (reverse_ne_nil_iff.mpr hne)
  obtain ⟨lastChild, frontChildren, hlastChild⟩ := exists_cons_of_ne_nil
    (l := children.reverse) (by simp [hlist])
  unfold newNode at h
  simp only at h
  rw [if_neg (by simp [hlevel, hne, harity]), if_neg hchildren] at h
  split at h
  · rename_i hcount
    cases h
    refine ⟨rfl, .inl ?_⟩
    omega
  · cases hencode : encodeBlock policy level (entries.length +
        ((children.filterMap id).map MerkleNode.nodeCount).sum)
        entries children with
    | error first =>
        rw [hencode, except_error_bind] at h
        cases h
        obtain ⟨hproblem, hentry⟩ := encodeBlock_eq_error hencode
        exact ⟨hproblem, .inr hentry⟩
    | ok bytes =>
        rw [hencode, except_ok_bind] at h
        split at h
        · cases h
        · rename_i hcontra
          exact absurd hlastChild
            (hcontra first rest child tail last front lastChild frontChildren hentries hlist hlast)

/-- The result has the property, or a count or a length overflows the fields of a block. -/
inductive Gives {α : Type} (holds : α → Prop) : Except MerkleTreeError α → Prop
  | ok {value : α} (h : holds value) : Gives holds (.ok value)
  | overflow : Gives holds (.error .MerkleTreeSizeOverflow)

namespace Gives

variable {α β : Type} {holds : α → Prop} {after : β → Prop} {result : Except MerkleTreeError α}

section

variable (h : Gives holds result)
include h

theorem of_ok {value : α} (hresult : result = .ok value) : holds value := by
  cases h with
  | ok h =>
      cases hresult
      exact h
  | overflow => cases hresult

theorem bind {next : α → Except MerkleTreeError β}
    (hnext : ∀ value, holds value → Gives after (next value)) : Gives after (result >>= next) := by
  cases h with
  | ok h => exact hnext _ h
  | overflow => exact .overflow

theorem imp {other : α → Prop} (himp : ∀ value, holds value → other value) :
    Gives other result := by
  cases h with
  | ok h => exact .ok (himp _ h)
  | overflow => exact .overflow

theorem map {f : α → β} (hf : ∀ value, holds value → after (f value)) :
    Gives after (f <$> result) := by
  cases h with
  | ok h => exact .ok (hf _ h)
  | overflow => exact .overflow

end

end Gives

variable {interval : Option (MerkleNode k v)}

/-- A canonical interval with all its entries below a level. -/
structure Below (policy : MerkleSearchTreePolicy k v) (level : UInt8)
    (interval : Option (MerkleNode k v)) : Prop where
  canonical : CanonicalChild policy interval
  lower : ∀ entry ∈ enumerateChild interval, entry.entryLevel < level

theorem Below.of_mem {other : Option (MerkleNode k v)} (h : Below policy level interval)
    (hcanonical : CanonicalChild policy other)
    (hmem : ∀ entry ∈ enumerateChild other, entry ∈ enumerateChild interval) :
    Below policy level other :=
  ⟨hcanonical, fun entry hentry => h.lower entry (hmem entry hentry)⟩

theorem below_none : Below policy level none := ⟨by simp, by simp⟩

theorem CanonicalNode.intervals_below (h : CanonicalNode policy node) :
    ∀ interval ∈ node.nodeChildren, Below policy node.nodeLevel interval := by
  refine fun interval hinterval => ⟨h.intervals interval hinterval, fun entry hentry => ?_⟩
  cases interval with
  | none => cases hentry
  | some child => exact h.entryLevel_lt_of_child hinterval entry hentry

theorem CanonicalNode.child_below (h : CanonicalNode policy node) (position : Nat) :
    Below policy node.nodeLevel (node.child position) := by
  cases hchild : node.child position with
  | none => exact below_none
  | some child => exact h.intervals_below _ (MerkleNode.child_eq_some hchild)

theorem newNode_gives (hlevel : level ≤ 64) (hne : entries ≠ [])
    (harity : children.length = entries.length + 1)
    (hlevels : ∀ entry ∈ entries, entry.entryLevel = level)
    (hchildren : ∀ interval ∈ children, Below policy level interval) :
    Gives (fun node => CanonicalNode policy node ∧
        enumerateNode node = interleave entries (children.map enumerateChild))
      (newNode policy level entries children) := by
  cases hnode : newNode policy level entries children with
  | ok node =>
      exact .ok (newNode_spec hnode hlevels fun interval h => (hchildren interval h).canonical)
  | error problem =>
      obtain ⟨rfl, -⟩ := newNode_eq_error hlevel hne harity (fun child hchild => by
        have hbelow := hchildren _ hchild
        obtain ⟨entry, hentry, hsame⟩ := (canonicalChild_some.mp hbelow.canonical).exists_entryLevel
        exact hsame ▸ hbelow.lower entry hentry) hnode
      exact .overflow

theorem createOrCollapse_gives (hlevel : level ≤ 64) (harity : children.length = entries.length + 1)
    (hlevels : ∀ entry ∈ entries, entry.entryLevel = level)
    (hchildren : ∀ interval ∈ children, Below policy level interval) :
    Gives (fun interval => CanonicalChild policy interval ∧
        enumerateChild interval = interleave entries (children.map enumerateChild))
      (createOrCollapse policy level entries children) := by
  unfold createOrCollapse
  split
  · exact .ok ⟨(hchildren _ (by simp)).canonical, by simp⟩
  · rename_i hnot
    refine (newNode_gives hlevel ?_ harity hlevels hchildren).map fun node hnode =>
      ⟨canonicalChild_some.mpr hnode.1, hnode.2⟩
    rintro rfl
    obtain ⟨child, rfl⟩ := length_eq_one_iff.mp harity
    exact hnot child rfl rfl

theorem CanonicalNode.replaceChild_gives (h : CanonicalNode policy node) {position : Nat}
    (hposition : position ≤ node.nodeEntries.length)
    (hinterval : Below policy node.nodeLevel interval) :
    Gives (fun made => CanonicalNode policy made ∧ enumerateNode made =
        node.before position ++ enumerateChild interval ++ node.after position)
      (newNode policy node.nodeLevel node.nodeEntries
        (replaceAt position interval node.nodeChildren)) := by
  have harity := h.block.arity
  rw [← traversal_replaceAt h.block.arity hposition]
  exact newNode_gives h.block.level_le h.block.nonempty (by simp [replaceAt]; omega) h.levels
    (forall_replaceAt hinterval h.intervals_below)

theorem searchable_child (harity : node.nodeChildren.length = node.nodeEntries.length + 1)
    {probe : MerkleEntry k v → Ordering} (hsearch : Searchable probe (enumerateNode node))
    {position : Nat} (hposition : position ≤ node.nodeEntries.length) :
    Searchable probe (enumerateChild (node.child position)) := by
  rw [enumerateNode_focus harity hposition] at hsearch
  simp only [Searchable, pairwise_append] at hsearch
  exact hsearch.1.2.1

variable {key : k}

theorem focus_found (harity : node.nodeChildren.length = node.nodeEntries.length + 1)
    (hsearch : Searchable (probeKey policy key) (enumerateNode node)) {position : Nat}
    (hfind : findPosition policy node.nodeEntries key = (position, true)) :
    ∃ entry, node.nodeEntries[position]? = some entry ∧
      probeKey policy key entry = .eq ∧
      position < node.nodeEntries.length ∧
      enumerateNode node =
        (node.before position ++ enumerateChild (node.child position)) ++
          entry :: (enumerateChild (node.child (position + 1)) ++ node.after (position + 1)) := by
  obtain ⟨hposition, -⟩ := findPosition_spec harity hsearch hfind
  obtain ⟨entry, hentry, heq⟩ := hposition.atPosition
  obtain ⟨hlt, -⟩ := List.getElem?_eq_some_iff.mp hentry
  refine ⟨entry, hentry, heq, hlt, ?_⟩
  rw [enumerateNode_focus harity hposition.le, after_eq_cons harity hentry]

theorem Shaped.lookupNode_eq (h : ∀ node, interval = some node → Shaped node)
    (hsearch : Searchable (probeKey policy key) (enumerateChild interval)) :
    lookupNode policy key interval =
      (enumerateChild interval).find? fun entry => probeKey policy key entry == .eq := by
  induction interval using lookupNode.induct policy key with
  | case1 => rw [lookupNode]; rfl
  | case2 node position hfind =>
      obtain ⟨harity, -⟩ := h node rfl
      rw [lookupNode, hfind]
      obtain ⟨entry, hentry, heq, -, htraversal⟩ := focus_found harity hsearch hfind
      rw [enumerateChild_some] at hsearch ⊢
      have hbelow : (node.before position ++
          enumerateChild (node.child position)).find?
            (fun entry => probeKey policy key entry == .eq) = none := by
        rw [List.find?_eq_none]
        intro other hother
        rw [htraversal] at hsearch
        simp [hsearch.below_of_match heq other hother]
      rw [htraversal, List.find?_append, hbelow, List.find?_cons_of_pos (by simp [heq])]
      simp [hentry]
  | case3 node position found hfind hfound ih =>
      rw [lookupNode, hfind]
      obtain rfl : found = false := by simpa using hfound
      obtain ⟨harity, hchildren⟩ := h node rfl
      rw [enumerateChild_some] at hsearch ⊢
      obtain ⟨hposition, hbelow, -, habove⟩ := findPosition_spec harity hsearch hfind
      rw [enumerateNode_focus harity hposition.le, List.find?_append, List.find?_append]
      have hbefore : (node.before position).find?
          (fun entry => probeKey policy key entry == .eq) = none := by
        rw [List.find?_eq_none]
        intro other hother
        simp [hbelow other hother]
      have hafter : (node.after position).find?
          (fun entry => probeKey policy key entry == .eq) = none := by
        rw [List.find?_eq_none]
        intro other hother
        simp [habove rfl other hother]
      simp [hbefore, hafter,
        ih (fun child hchild => hchildren child (MerkleNode.child_eq_some hchild))
          (searchable_child harity hsearch hposition.le)]

theorem lookupNode_spec (h : CanonicalChild policy interval)
    (hsearch : Searchable (probeKey policy key) (enumerateChild interval)) :
    lookupNode policy key interval =
      (enumerateChild interval).find? fun entry => probeKey policy key entry == .eq :=
  Shaped.lookupNode_eq (fun node hnode => (h node hnode).shaped) hsearch

/-- A cut of a traversal in front of a key. -/
structure Cuts (policy : MerkleSearchTreePolicy k v) (key : k) (interval : Option (MerkleNode k v))
    (cut : Option (MerkleNode k v) × Option (MerkleNode k v)) : Prop where
  left : CanonicalChild policy cut.1
  right : CanonicalChild policy cut.2
  traversal : enumerateChild interval = enumerateChild cut.1 ++ enumerateChild cut.2
  before : ∀ entry ∈ enumerateChild cut.1, probeKey policy key entry = .lt
  after : ∀ entry ∈ enumerateChild cut.2, probeKey policy key entry ≠ .lt

theorem Cuts.below {cut : Option (MerkleNode k v) × Option (MerkleNode k v)}
    (hcut : Cuts policy key interval cut) (h : Below policy level interval) :
    Below policy level cut.1 ∧ Below policy level cut.2 :=
  ⟨h.of_mem hcut.left fun _ hentry => hcut.traversal ▸ mem_append_left _ hentry,
    h.of_mem hcut.right fun _ hentry => hcut.traversal ▸ mem_append_right _ hentry⟩

theorem splitNode_gives (h : CanonicalChild policy interval)
    (hsearch : Searchable (probeKey policy key) (enumerateChild interval)) :
    Gives (Cuts policy key interval) (splitNode policy key interval) := by
  induction interval using splitNode.induct policy key with
  | case1 =>
      rw [splitNode]
      exact .ok ⟨by simp, by simp, by simp, by simp, by simp⟩
  | case2 node position found hfind ih =>
      have hnode := canonicalChild_some.mp h
      rw [enumerateChild_some] at hsearch
      obtain ⟨hposition, hbelow, habove, -⟩ := findPosition_spec hnode.block.arity hsearch hfind
      have harity := hnode.block.arity
      have hle := hposition.le
      rw [splitNode, hfind]
      refine (ih (hnode.child position)
        (searchable_child hnode.block.arity hsearch hle)).bind fun cut hcut => ?_
      obtain ⟨hcutLeft, hcutRight⟩ := hcut.below (hnode.child_below position)
      refine (createOrCollapse_gives hnode.block.level_le (by simp [replaceAt]; omega)
        (fun entry hentry => hnode.levels entry (mem_of_mem_take hentry))
        (forall_replaceAt hcutLeft fun child hmem =>
          hnode.intervals_below child (mem_of_mem_take hmem))).bind fun left hleft => ?_
      refine (createOrCollapse_gives hnode.block.level_le (by simp [replaceAt]; omega)
        (fun entry hentry => hnode.levels entry (mem_of_mem_drop hentry))
        (forall_replaceAt hcutRight fun child hmem =>
          hnode.intervals_below child (mem_of_mem_drop hmem))).bind fun right hright => ?_
      have hleftEq : enumerateChild left = node.before position ++ enumerateChild cut.1 := by
        rw [hleft.2, replaceAt, take_take, min_eq_left (by omega),
          drop_eq_nil_of_le (length_take_le _ _), append_nil,
          map_append]
        exact interleave_eq_leading (by simp; omega) _
      have hrightEq : enumerateChild right = enumerateChild cut.2 ++ node.after position := by
        rw [hright.2, replaceAt, take_zero, nil_append, singleton_append, drop_drop, map_cons]
        exact interleave_eq_trailing (by simp; omega) _
      refine .ok ⟨hleft.1, hright.1, ?_, ?_, ?_⟩
      · rw [enumerateChild_some, enumerateNode_focus hnode.block.arity hle, hcut.traversal, hleftEq,
          hrightEq]
        simp
      · simp only [hleftEq, mem_append]
        exact fun entry hentry => hentry.elim (hbelow entry) (hcut.before entry)
      · simp only [hrightEq, mem_append]
        exact fun entry hentry => hentry.elim (hcut.after entry) (habove entry)

/-- A canonical interval with the traversals of two others. -/
def Joins (policy : MerkleSearchTreePolicy k v) (left right joined : Option (MerkleNode k v)) :
    Prop :=
  CanonicalChild policy joined ∧ enumerateChild joined = enumerateChild left ++ enumerateChild right

theorem Joins.below {left right joined : Option (MerkleNode k v)}
    (h : Joins policy left right joined) (hleft : Below policy level left)
    (hright : Below policy level right) : Below policy level joined := by
  refine ⟨h.1, fun entry hentry => ?_⟩
  rw [h.2] at hentry
  exact (mem_append.mp hentry).elim (hleft.lower entry) (hright.lower entry)

theorem CanonicalNode.below_of_lt (h : CanonicalNode policy node) (hlt : node.nodeLevel < level) :
    Below policy level (some node) :=
  ⟨canonicalChild_some.mpr h, fun entry hentry =>
    UInt8.lt_of_le_of_lt (h.entryLevel_le entry hentry) hlt⟩

theorem joinNodes_gives {left right : Option (MerkleNode k v)}
    (hleft : CanonicalChild policy left) (hright : CanonicalChild policy right) :
    Gives (Joins policy left right) (joinNodes policy left right) := by
  induction left, right using joinNodes.induct with
  | case1 =>
      rw [joinNodes]
      exact .ok ⟨by simp, by simp⟩
  | case2 node =>
      rw [joinNodes]
      exact .ok ⟨hleft, by simp⟩
  | case3 node =>
      rw [joinNodes]
      exact .ok ⟨hright, by simp⟩
  | case4 left right hgt lastIndex =>
      rename_i ih
      have hleftNode := canonicalChild_some.mp hleft
      have hlast : lastIndex = left.nodeEntries.length := by
        have := hleftNode.block.arity
        omega
      rw [joinNodes, if_pos hgt]
      refine (ih (hleftNode.child _) hright).bind fun joined hjoined => ?_
      refine (hleftNode.replaceChild_gives (le_of_eq hlast) (hjoined.below
        (hleftNode.child_below _) ((canonicalChild_some.mp hright).below_of_lt hgt))).map
        fun made hmade => ⟨canonicalChild_some.mpr hmade.1, ?_⟩
      rw [enumerateChild_some, hmade.2, hjoined.2, hlast, enumerateChild_some left,
        enumerateNode_focus hleftNode.block.arity (le_refl _)]
      simp [MerkleNode.after]
  | case5 left right hge hlt ih =>
      have hrightNode := canonicalChild_some.mp hright
      rw [joinNodes, if_neg hge, if_pos hlt]
      refine (ih hleft (hrightNode.child 0)).bind fun joined hjoined => ?_
      refine (hrightNode.replaceChild_gives (zero_le _) (hjoined.below
        ((canonicalChild_some.mp hleft).below_of_lt hlt) (hrightNode.child_below 0))).map
        fun made hmade => ⟨canonicalChild_some.mpr hmade.1, ?_⟩
      rw [enumerateChild_some, hmade.2, hjoined.2, enumerateChild_some right,
        enumerateNode_focus hrightNode.block.arity (zero_le _)]
      simp [MerkleNode.before]
  | case6 left right hge hle ih =>
      have hleftNode := canonicalChild_some.mp hleft
      have hrightNode := canonicalChild_some.mp hright
      have hlevel : left.nodeLevel = right.nodeLevel :=
        UInt8.le_antisymm (UInt8.not_lt.mp hge) (UInt8.not_lt.mp hle)
      have harityLeft := hleftNode.block.arity
      have harityRight := hrightNode.block.arity
      rw [joinNodes, if_neg hge, if_neg hle]
      refine (ih (hleftNode.child _) (hrightNode.child 0)).bind fun middle hmiddle => ?_
      refine (newNode_gives hleftNode.block.level_le
        (append_ne_nil_of_left_ne_nil hleftNode.block.nonempty _) (by simp; omega)
        (fun entry hentry => ?_) fun interval hmem => ?_).map
        fun made hmade => ⟨canonicalChild_some.mpr hmade.1, ?_⟩
      · exact (mem_append.mp hentry).elim (hleftNode.levels entry)
          (hlevel ▸ hrightNode.levels entry)
      · simp only [mem_append, mem_singleton] at hmem
        rcases hmem with (hmem | rfl) | hmem
        · exact hleftNode.intervals_below interval (mem_of_mem_take hmem)
        · exact hmiddle.below (hleftNode.child_below _) (hlevel ▸ hrightNode.child_below 0)
        · exact hlevel ▸ hrightNode.intervals_below interval (mem_of_mem_drop hmem)
      · simp only [enumerateChild_some]
        rw [hmade.2, append_assoc, map_append, singleton_append, map_cons,
          interleave_split (by simp; omega) (by simp; omega), hmiddle.2,
          enumerateNode_focus hleftNode.block.arity (le_refl _),
          enumerateNode_focus hrightNode.block.arity (zero_le _)]
        simp [MerkleNode.before, MerkleNode.after]

/-- The entry of a key in a traversal, replaced in another. -/
def Replaces (policy : MerkleSearchTreePolicy k v) (key : k) (replacement : MerkleEntry k v)
    (source updated : List (MerkleEntry k v)) : Prop :=
  ∃ below entry above, source = below ++ entry :: above ∧ probeKey policy key entry = .eq ∧
    updated = below ++ replacement :: above

theorem updateValue_gives {replacement : MerkleEntry k v} (h : CanonicalNode policy node)
    (hsearch : Searchable (probeKey policy key) (enumerateNode node))
    (hpresent : ∃ entry ∈ enumerateNode node, probeKey policy key entry = .eq)
    (hlevel : ∀ entry ∈ enumerateNode node, probeKey policy key entry = .eq →
      replacement.entryLevel = entry.entryLevel) :
    Gives (fun updated => CanonicalNode policy updated ∧
        Replaces policy key replacement (enumerateNode node) (enumerateNode updated))
      (updateValue policy node key replacement) := by
  induction node using updateValue.induct policy key with
  | case1 node position hfind =>
      obtain ⟨entry, hentry, heq, hlt, htraversal⟩ := focus_found h.block.arity hsearch hfind
      have harity := h.block.arity
      have hreplacement : replacement.entryLevel = node.nodeLevel := by
        rw [hlevel entry (by rw [htraversal]; simp) heq]
        exact h.levels entry (mem_of_getElem? hentry)
      rw [updateValue, hfind]
      simp only [if_true]
      refine (newNode_gives h.block.level_le (by simp [replaceAt]) (by simp [replaceAt]; omega)
        (forall_replaceAt hreplacement h.levels) h.intervals_below).imp fun updated hupdated =>
          ⟨hupdated.1, _, entry, _, htraversal, heq, ?_⟩
      have hchildren := nodeChildren_eq h.block.arity hlt.le
      have hnext : node.nodeChildren.drop (position + 1) =
          node.child (position + 1) :: node.nodeChildren.drop (position + 2) := by
        have hlt' : position + 1 < node.nodeChildren.length := by omega
        rw [drop_eq_getElem_cons hlt']
        simp [MerkleNode.child, hlt']
      rw [hupdated.2, hchildren, hnext, replaceAt, append_assoc,
        singleton_append, map_append,
        leading_interleave (by simp; omega)]
      simp only [map_cons, interleave_cons]
      rw [interleave_eq_trailing (by simp; omega)]
      simp [MerkleNode.before, MerkleNode.after]
  | case2 node position found hfind hfound hnone =>
      obtain rfl : found = false := by simpa using hfound
      obtain ⟨hposition, hbefore, -, hafter⟩ := findPosition_spec h.block.arity hsearch hfind
      obtain ⟨entry, hentry, heq⟩ := hpresent
      rw [enumerateNode_focus h.block.arity hposition.le, hnone, enumerateChild_none,
        append_nil] at hentry
      rcases mem_append.mp hentry with hentry | hentry
      · simp [hbefore entry hentry] at heq
      · simp [hafter rfl entry hentry] at heq
  | case3 node position found hfind hfound child hchild ih =>
      obtain rfl : found = false := by simpa using hfound
      obtain ⟨hposition, hbefore, -, hafter⟩ := findPosition_spec h.block.arity hsearch hfind
      have hinner := searchable_child h.block.arity hsearch hposition.le
      have hfocus := enumerateNode_focus h.block.arity hposition.le
      have hbelow := h.child_below position
      rw [hchild] at hinner hfocus hbelow
      rw [enumerateChild_some] at hinner hfocus
      have hinnerPresent : ∃ entry ∈ enumerateNode child, probeKey policy key entry = .eq := by
        obtain ⟨entry, hentry, heq⟩ := hpresent
        simp only [hfocus, mem_append] at hentry
        rcases hentry with (hentry | hentry) | hentry
        · simp [hbefore entry hentry] at heq
        · exact ⟨entry, hentry, heq⟩
        · simp [hafter rfl entry hentry] at heq
      have hinnerLevel : ∀ entry ∈ enumerateNode child, probeKey policy key entry = .eq →
          replacement.entryLevel = entry.entryLevel :=
        fun entry hentry => hlevel entry (by rw [hfocus]; simp [hentry])
      rw [updateValue, hfind]
      simp only [Bool.false_eq_true, if_false]
      split
      · rename_i hnone
        rw [hnone] at hchild
        cases hchild
      · rename_i other hother
        obtain rfl : child = other := Option.some.inj (hchild.symm.trans hother)
        refine (ih (canonicalChild_some.mp hbelow.canonical) hinner hinnerPresent
          hinnerLevel).bind fun updated hupdated => ?_
        obtain ⟨hcanonical, below, entry, above, htraversal, heq, hresult⟩ := hupdated
        have hentry : entry ∈ enumerateNode child := by simp [htraversal]
        refine (h.replaceChild_gives hposition.le ⟨canonicalChild_some.mpr hcanonical,
          fun stored hstored => ?_⟩).imp fun made hmade => ⟨hmade.1,
            node.before position ++ below, entry, above ++ node.after position, ?_, heq, ?_⟩
        · simp only [enumerateChild_some, hresult, mem_append, mem_cons] at hstored
          rcases hstored with hstored | rfl | hstored
          · exact hbelow.lower stored (by simp [htraversal, hstored])
          · exact hinnerLevel entry hentry heq ▸ hbelow.lower entry hentry
          · exact hbelow.lower stored (by simp [htraversal, hstored])
        · simp [hfocus, htraversal]
        · simp [hmade.2, hresult]

/-- An entry put between the entries below its key and the others. -/
def Adds (policy : MerkleSearchTreePolicy k v) (entry : MerkleEntry k v)
    (source updated : List (MerkleEntry k v)) : Prop :=
  ∃ below above, source = below ++ above ∧
    (∀ other ∈ below, probeKey policy entry.entryKey other = .lt) ∧
    (∀ other ∈ above, probeKey policy entry.entryKey other ≠ .lt) ∧
    updated = below ++ entry :: above

theorem insertNode_gives {entry : MerkleEntry k v} (hentry : entry.entryLevel ≤ 64)
    (h : CanonicalChild policy interval)
    (hsearch : Searchable (probeKey policy entry.entryKey) (enumerateChild interval)) :
    Gives (fun node => CanonicalNode policy node ∧
        Adds policy entry (enumerateChild interval) (enumerateNode node))
      (insertNode policy entry interval) := by
  have hlevels : ∀ other ∈ [entry], other.entryLevel = entry.entryLevel := by simp
  induction interval using insertNode.induct policy entry with
  | case1 =>
      rw [insertNode]
      exact (newNode_gives hentry (by simp) rfl hlevels (by simp [below_none])).imp
        fun node hnode => ⟨hnode.1, [], [], by simp, by simp, by simp, by simpa using hnode.2⟩
  | case2 old hgt =>
      rw [insertNode, if_pos hgt]
      refine (splitNode_gives h hsearch).bind fun cut hcut => ?_
      have hbelow := hcut.below ((canonicalChild_some.mp h).below_of_lt hgt)
      exact (newNode_gives hentry (by simp) rfl hlevels (by simp [hbelow])).imp
        fun node hnode => ⟨hnode.1, _, _, hcut.traversal, hcut.before, hcut.after,
          by simpa using hnode.2⟩
  | case3 old hge hlt position found hfind ih =>
      have hnode := canonicalChild_some.mp h
      rw [enumerateChild_some] at hsearch ⊢
      obtain ⟨hposition, hbefore, hafter, -⟩ := findPosition_spec hnode.block.arity hsearch hfind
      have hbelow := hnode.child_below position
      rw [insertNode, if_neg hge, if_pos hlt]
      simp only [hfind]
      refine (ih (hnode.child position)
        (searchable_child hnode.block.arity hsearch hposition.le)).bind
        fun child hchild => ?_
      obtain ⟨hcanonical, below, above, hcut, hlower, hupper, hresult⟩ := hchild
      refine (hnode.replaceChild_gives hposition.le ⟨canonicalChild_some.mpr hcanonical,
        fun stored hstored => ?_⟩).imp fun made hmade => ⟨hmade.1,
          old.before position ++ below, above ++ old.after position, ?_, ?_, ?_, ?_⟩
      · simp only [enumerateChild_some, hresult, mem_append, mem_cons] at hstored
        rcases hstored with hstored | rfl | hstored
        · exact hbelow.lower stored (by simp [hcut, hstored])
        · exact hlt
        · exact hbelow.lower stored (by simp [hcut, hstored])
      · simp [enumerateNode_focus hnode.block.arity hposition.le, hcut]
      · exact fun other hother => (mem_append.mp hother).elim (hbefore other) (hlower other)
      · exact fun other hother => (mem_append.mp hother).elim (hupper other) (hafter other)
      · simp [hmade.2, hresult]
  | case4 old hge hle position found hfind =>
      have hnode := canonicalChild_some.mp h
      rw [enumerateChild_some] at hsearch ⊢
      obtain ⟨hposition, hbefore, hafter, -⟩ := findPosition_spec hnode.block.arity hsearch hfind
      have hpos := hposition.le
      have harity := hnode.block.arity
      have hlevel : entry.entryLevel = old.nodeLevel :=
        UInt8.le_antisymm (UInt8.not_lt.mp hge) (UInt8.not_lt.mp hle)
      rw [insertNode, if_neg hge, if_neg hle]
      simp only [hfind]
      refine (splitNode_gives (hnode.child position)
        (searchable_child hnode.block.arity hsearch hpos)).bind
        fun cut hcut => ?_
      obtain ⟨hleft, hright⟩ := hcut.below (hnode.child_below position)
      refine (newNode_gives hnode.block.level_le (by simp [insertAt])
        (by simp [insertAt, replaceAt]; omega) (forall_insertAt hlevel hnode.levels)
        (forall_insertAt hright (forall_replaceAt hleft hnode.intervals_below))).imp
        fun made hmade => ⟨hmade.1, old.before position ++ enumerateChild cut.1,
          enumerateChild cut.2 ++ old.after position, ?_, ?_, ?_, ?_⟩
      · simp [enumerateNode_focus hnode.block.arity hpos, hcut.traversal]
      · exact fun other hother => (mem_append.mp hother).elim (hbefore other) (hcut.before other)
      · exact fun other hother => (mem_append.mp hother).elim (hcut.after other) (hafter other)
      · have hchildren : insertAt (position + 1) cut.2
            (replaceAt position cut.1 old.nodeChildren) =
              old.nodeChildren.take position ++
                cut.1 :: cut.2 :: old.nodeChildren.drop (position + 1) := by
          have hlen : (old.nodeChildren.take position ++ [cut.1]).length = position + 1 := by
            simp
            omega
          rw [insertAt, replaceAt, take_left' hlen, drop_left' hlen]
          simp
        rw [hmade.2, hchildren, insertAt, append_assoc,
          singleton_append, map_append,
          leading_interleave (by simp; omega)]
        simp only [map_cons, interleave_cons]
        rw [interleave_eq_trailing (by simp; omega)]
        simp [MerkleNode.before, MerkleNode.after]

/-- The traversal without the entry of a key, which it has exactly when something is removed. -/
structure Removes (policy : MerkleSearchTreePolicy k v) (key : k)
    (interval : Option (MerkleNode k v)) (outcome : Option (MerkleNode k v) × Bool) : Prop where
  canonical : CanonicalChild policy outcome.1
  missing : outcome.2 = false → ∀ entry ∈ enumerateChild interval, probeKey policy key entry ≠ .eq
  present : outcome.2 = true → ∃ below entry above,
    enumerateChild interval = below ++ entry :: above ∧ probeKey policy key entry = .eq ∧
      enumerateChild outcome.1 = below ++ above

theorem removeNode_gives (h : CanonicalChild policy interval)
    (hsearch : Searchable (probeKey policy key) (enumerateChild interval)) :
    Gives (Removes policy key interval) (removeNode policy key interval) := by
  induction interval using removeNode.induct policy key with
  | case1 =>
      rw [removeNode]
      exact .ok ⟨by simp, by simp, by simp⟩
  | case2 node position found hfind hfound ih =>
      obtain rfl : found = false := by simpa using hfound
      have hnode := canonicalChild_some.mp h
      rw [enumerateChild_some] at hsearch
      obtain ⟨hposition, hbefore, -, hafter⟩ := findPosition_spec hnode.block.arity hsearch hfind
      have hfocus := enumerateNode_focus hnode.block.arity hposition.le
      rw [removeNode, hfind]
      simp only [Bool.false_eq_true, not_false_eq_true, if_true]
      refine (ih (hnode.child position)
        (searchable_child hnode.block.arity hsearch hposition.le)).bind
        fun outcome houtcome => ?_
      obtain ⟨child, removed⟩ := outcome
      cases removed with
      | false =>
          refine .ok ⟨h, fun _ entry hentry => ?_, by simp⟩
          simp only [enumerateChild_some, hfocus, mem_append] at hentry
          rcases hentry with (hentry | hentry) | hentry
          · simp [hbefore entry hentry]
          · exact houtcome.missing rfl entry hentry
          · simp [hafter rfl entry hentry]
      | true =>
          obtain ⟨below, entry, above, hcut, heq, hresult⟩ := houtcome.present rfl
          refine (hnode.replaceChild_gives hposition.le ((hnode.child_below position).of_mem
            houtcome.canonical fun stored hstored => ?_)).bind fun rebuilt hrebuilt => .ok
              ⟨canonicalChild_some.mpr hrebuilt.1, by simp, fun _ => ⟨node.before position ++ below,
                entry, above ++ node.after position, ?_, heq, ?_⟩⟩
          · rw [hresult] at hstored
            rw [hcut]
            rcases mem_append.mp hstored with hstored | hstored <;> simp [hstored]
          · simp [hfocus, hcut]
          · simp [hrebuilt.2, hresult]
  | case3 node position found hfind hfound =>
      obtain rfl : found = true := by simpa using hfound
      have hnode := canonicalChild_some.mp h
      rw [enumerateChild_some] at hsearch
      obtain ⟨entry, hentry, heq, hlt, htraversal⟩ := focus_found hnode.block.arity hsearch hfind
      have harity := hnode.block.arity
      rw [removeNode, hfind]
      simp only [not_true_eq_false, if_false]
      refine (joinNodes_gives (hnode.child _) (hnode.child _)).bind fun joined hjoined => ?_
      refine (createOrCollapse_gives hnode.block.level_le (by simp [removeAt, replaceAt]; omega)
        (forall_removeAt hnode.levels) (forall_removeAt (forall_replaceAt
          (hjoined.below (hnode.child_below _) (hnode.child_below _))
          hnode.intervals_below))).bind fun rebuilt hrebuilt => .ok
            ⟨hrebuilt.1, by simp, fun _ => ⟨_, entry, _, htraversal, heq, ?_⟩⟩
      have hchildren : removeAt (position + 1)
          (replaceAt position joined node.nodeChildren) =
            node.nodeChildren.take position ++ joined :: node.nodeChildren.drop (position + 2) := by
        have hlen : (node.nodeChildren.take position ++ [joined]).length = position + 1 := by
          simp
          omega
        rw [removeAt, replaceAt, take_left' hlen, drop_append,
          drop_eq_nil_of_le (by omega), hlen, drop_drop]
        simp
      rw [hrebuilt.2, removeAt, hchildren, map_append, map_cons,
        interleave_split (by simp; omega) (by simp; omega), hjoined.2]
      simp [MerkleNode.before, MerkleNode.after]

end Durable7.Hamt
