import Durable7.Hamt.HashMultimap
import Durable7.Hamt.HashMap.Equality

/-!
# Operations on relations

A relation is indexed from both sides.  A count past its bound is an error here.
-/

namespace Durable7.Hamt

structure Relation (a b : Type) where
  forward : HashMultimap a b
  reverseMap : HashMultimap b a

namespace Relation

variable {a b : Type}

def emptyWith (left : HashPolicy a) (right : HashPolicy b) : Relation a b :=
  ⟨HashMultimap.emptyWith left right, HashMultimap.emptyWith right left⟩

def size (relation : Relation a b) : Int := relation.forward.size

def member (left : a) (right : b) (relation : Relation a b) : Bool :=
  HashMultimap.member left right relation.forward

def lookupRights (left : a) (relation : Relation a b) : Option (HashSet b) :=
  HashMultimap.lookupValues left relation.forward

def lookupLefts (right : b) (relation : Relation a b) : Option (HashSet a) :=
  HashMultimap.lookupValues right relation.reverseMap

def insert (left : a) (right : b) (relation : Relation a b) : Except String (Relation a b) :=
  if HashMultimap.member left right relation.forward then .ok relation
  else do
    let forward ← HashMultimap.insert left right relation.forward
    let reverseMap ← HashMultimap.insert right left relation.reverseMap
    .ok ⟨forward, reverseMap⟩

def delete (left : a) (right : b) (relation : Relation a b) : Relation a b :=
  if !HashMultimap.member left right relation.forward then relation
  else ⟨HashMultimap.delete left right relation.forward,
    HashMultimap.delete right left relation.reverseMap⟩

def deleteLeft (left : a) (relation : Relation a b) : Relation a b :=
  match lookupRights left relation with
  | none => relation
  | some rights =>
      (HashSet.toList rights).foldl (fun current right => delete left right current) relation

def deleteRight (right : b) (relation : Relation a b) : Relation a b :=
  match lookupLefts right relation with
  | none => relation
  | some lefts =>
      (HashSet.toList lefts).foldl (fun current left => delete left right current) relation

def inverse (relation : Relation a b) : Relation b a := ⟨relation.reverseMap, relation.forward⟩

def toList (relation : Relation a b) : List (a × b) := HashMultimap.toList relation.forward

def validStructure (relation : Relation a b) : Bool :=
  HashMultimap.validStructure relation.forward &&
    HashMultimap.validStructure relation.reverseMap &&
    relation.forward.size == relation.reverseMap.size &&
    (toList relation).all (fun pair => HashMultimap.member pair.2 pair.1 relation.reverseMap) &&
    (HashMultimap.toList relation.reverseMap).all
      (fun pair => HashMultimap.member pair.2 pair.1 relation.forward)

end Relation

end Durable7.Hamt

/-!
## Relations as sets of pairs of classes

Both indexes have the same pairs of classes and the same count.  An edit writes one pair in each.
-/

namespace Durable7.Hamt.Relation

open Foundation

section

open List

variable {a b : Type}

/-- The relation under two policies has exactly the given pairs. -/
structure Holds (left : HashPolicy a) (right : HashPolicy b) (pairs : a → b → Prop)
    (relation : Relation a b) : Prop where
  forward : relation.forward.Valid
  reverseMap : relation.reverseMap.Valid
  left_eq : relation.forward.keyPolicy = left ∧ relation.reverseMap.valuePolicy = left
  right_eq : relation.forward.valuePolicy = right ∧ relation.reverseMap.keyPolicy = right
  forward_iff : ∀ x y, HashMultimap.member x y relation.forward = true ↔ pairs x y
  reverse_iff : ∀ x y, HashMultimap.member y x relation.reverseMap = true ↔ pairs x y
  count_eq : relation.forward.pairCount = relation.reverseMap.pairCount

theorem emptyWith_holds {left : HashPolicy a} {right : HashPolicy b} (hleft : left.Lawful)
    (hright : right.Lawful) : Holds left right (fun _ _ => False) (emptyWith left right) := by
  have hforward := HashMultimap.emptyWith_valid hleft hright
  have hreverse := HashMultimap.emptyWith_valid hright hleft
  refine ⟨hforward, hreverse, ⟨rfl, rfl⟩, ⟨rfl, rfl⟩, ?_, ?_, rfl⟩
  · intro x y
    exact iff_false_intro (HashMultimap.emptyWith_member hleft hright x y)
  · intro x y
    exact iff_false_intro (HashMultimap.emptyWith_member hright hleft y x)

/-- One pair of classes is there or not, the others stay. -/
def written (left : HashPolicy a) (right : HashPolicy b) (x : a) (y : b) (present : Prop)
    (pairs : a → b → Prop) (x' : a) (y' : b) : Prop :=
  if left.equalKeys x' x = true ∧ right.equalKeys y' y = true then present else pairs x' y'

section Holding

variable {left : HashPolicy a} {right : HashPolicy b} {pairs : a → b → Prop}
  {relation : Relation a b} (h : Holds left right pairs relation)

include h

theorem Holds.inverse : Holds right left (fun y x => pairs x y) relation.inverse :=
  ⟨h.reverseMap, h.forward, ⟨h.right_eq.2, h.right_eq.1⟩, ⟨h.left_eq.2, h.left_eq.1⟩,
    fun y x => h.reverse_iff x y, fun y x => h.forward_iff x y, h.count_eq.symm⟩

theorem Holds.congr {others : a → b → Prop} (hpairs : ∀ x y, pairs x y ↔ others x y) :
    Holds left right others relation :=
  ⟨h.forward, h.reverseMap, h.left_eq, h.right_eq,
    fun x y => (h.forward_iff x y).trans (hpairs x y),
    fun x y => (h.reverse_iff x y).trans (hpairs x y), h.count_eq⟩

theorem Holds.pairs_congr {x x' : a} {y y' : b} (hx : left.equalKeys x x' = true)
    (hy : right.equalKeys y y' = true) : pairs x y ↔ pairs x' y' := by
  rw [← h.forward_iff, ← h.forward_iff]
  rw [← h.left_eq.1] at hx
  rw [← h.right_eq.1] at hy
  rw [h.forward.member_congr hx hy]

theorem Holds.edited {x : a} {y : b} {forward : HashMultimap a b} {reverseMap : HashMultimap b a}
    {inForward : Option b} {inReverse : Option a}
    (hforward : HashMultimap.Writes relation.forward forward x y inForward)
    (hreverse : HashMultimap.Writes relation.reverseMap reverseMap y x inReverse)
    (hsame : inForward.isSome = inReverse.isSome) :
    Holds left right (written left right x y (inForward.isSome = true) pairs)
      ⟨forward, reverseMap⟩ := by
  have hstored : ∀ x y, (HashMultimap.elementAt relation.forward x y).isSome =
      (HashMultimap.elementAt relation.reverseMap y x).isSome := by
    intro x y
    rw [← h.forward.member_eq, ← h.reverseMap.member_eq, Bool.eq_iff_iff, h.forward_iff,
      h.reverse_iff]
  have hlength : ∀ {α β : Type} {one : Option α} {other : Option β},
      one.isSome = other.isSome → one.toList.length = other.toList.length := by
    intro α β one other hsome
    cases one <;> cases other <;> first | rfl | cases hsome
  refine ⟨hforward.valid, hreverse.valid, ⟨hforward.keyPolicy_eq.trans h.left_eq.1,
    hreverse.valuePolicy_eq.trans h.left_eq.2⟩, ⟨hforward.valuePolicy_eq.trans h.right_eq.1,
    hreverse.keyPolicy_eq.trans h.right_eq.2⟩, ?_, ?_, ?_⟩
  · intro x' y'
    rw [hforward.member_iff h.forward, h.left_eq.1, h.right_eq.1, h.forward_iff]
    rfl
  · intro x' y'
    rw [hreverse.member_iff h.reverseMap, h.left_eq.2, h.right_eq.2, h.reverse_iff, ← hsame,
      written]
    simp only [and_comm]
  · have hold := hlength (hstored x y)
    have hnew := hlength hsame
    have hbefore := h.count_eq
    have hcount := hforward.pairCount_eq
    have hother := hreverse.pairCount_eq
    change forward.pairCount = reverseMap.pairCount
    omega

theorem Holds.written_present {x : a} {y : b} (hpair : pairs x y) :
    Holds left right (written left right x y True pairs) relation := by
  apply h.congr
  intro x' y'
  unfold written
  split
  · rename_i hboth
    exact iff_of_true ((h.pairs_congr hboth.1 hboth.2).mpr hpair) trivial
  · rfl

theorem Holds.written_absent {x : a} {y : b} (hpair : ¬pairs x y) :
    Holds left right (written left right x y False pairs) relation := by
  apply h.congr
  intro x' y'
  unfold written
  split
  · rename_i hboth
    exact iff_of_false (fun hother => hpair ((h.pairs_congr hboth.1 hboth.2).mp hother)) id
  · rfl

theorem insert_cases (x : a) (y : b) :
    (¬pairs x y ∧ relation.size = HashMultimap.maxBound ∧
      insert x y relation = .error "HashMultimap pair count overflow") ∨
    ((pairs x y ∨ relation.size ≠ HashMultimap.maxBound) ∧ ∃ after,
      insert x y relation = .ok after ∧
        Holds left right (written left right x y True pairs) after) := by
  unfold insert
  by_cases hpair : pairs x y
  · rw [if_pos ((h.forward_iff x y).mpr hpair)]
    exact .inr ⟨.inl hpair, relation, rfl, h.written_present hpair⟩
  · have habsent : ¬HashMultimap.member x y relation.forward = true :=
      fun hmember => hpair ((h.forward_iff x y).mp hmember)
    have hother : ¬HashMultimap.member y x relation.reverseMap = true :=
      fun hmember => hpair ((h.reverse_iff x y).mp hmember)
    rw [if_neg habsent]
    have hforward := h.forward.insert_cases x y
    have hreverse := h.reverseMap.insert_cases y x
    generalize HashMultimap.insert x y relation.forward = first at hforward ⊢
    generalize HashMultimap.insert y x relation.reverseMap = second at hreverse ⊢
    cases hforward with
    | present hmember => exact absurd hmember habsent
    | overflow _ hcount => exact .inl ⟨hpair, hcount, rfl⟩
    | inserted _ hcount hafter hkeys =>
        cases hreverse with
        | present hmember => exact absurd hmember hother
        | overflow _ hfull =>
            rw [← h.count_eq] at hfull
            exact absurd hfull hcount
        | inserted _ _ hreversed _ =>
            exact .inr ⟨.inr hcount, _, rfl, (h.edited hafter hreversed rfl).congr fun x' y' => by
              rw [Option.isSome_some, eq_self_iff_true]⟩

theorem delete_holds (x : a) (y : b) :
    Holds left right (written left right x y False pairs) (delete x y relation) := by
  unfold delete
  by_cases hpair : pairs x y
  · rw [(h.forward_iff x y).mpr hpair]
    rcases h.forward.delete_cases x y with ⟨habsent, -⟩ | ⟨-, hforward, -⟩
    · exact absurd ((h.forward_iff x y).mpr hpair) habsent
    rcases h.reverseMap.delete_cases y x with ⟨habsent, -⟩ | ⟨-, hreverse, -⟩
    · exact absurd ((h.reverse_iff x y).mpr hpair) habsent
    exact (h.edited hforward hreverse rfl).congr fun x' y' => by
      rw [Option.isSome_none, Bool.false_eq_true]
  · have habsent : HashMultimap.member x y relation.forward = false := by
      rw [← Bool.not_eq_true, h.forward_iff]
      exact hpair
    rw [habsent]
    exact h.written_absent hpair

omit h in
theorem deleteAll_holds (targets : List (a × b)) (h : Holds left right pairs relation) :
    Holds left right (fun x y => pairs x y ∧ ¬∃ target ∈ targets,
        left.equalKeys x target.1 = true ∧ right.equalKeys y target.2 = true)
      (targets.foldl (fun current target => delete target.1 target.2 current) relation) := by
  induction targets generalizing relation pairs with
  | nil =>
      apply h.congr
      intro x y
      simp
  | cons target targets ih =>
      apply (ih (delete_holds h target.1 target.2)).congr
      intro x y
      unfold written
      simp only [exists_mem_cons_iff]
      by_cases hboth : left.equalKeys x target.1 = true ∧ right.equalKeys y target.2 = true
      · simp [hboth]
      · simp [hboth]

theorem deleteLeft_holds (x : a) :
    Holds left right (fun x' y' => pairs x' y' ∧ ¬left.equalKeys x' x = true)
      (deleteLeft x relation) := by
  unfold deleteLeft lookupRights
  rcases h.forward.lookupValues_cases x with ⟨hresult, -, hnone⟩ |
    ⟨rep, group, hresult, -, -, hgroup, hpolicy, helements, -⟩
  · rw [hresult]
    apply h.congr
    intro x' y'
    constructor
    · intro hpair
      refine ⟨hpair, fun hsame => ?_⟩
      have hmember := (h.forward_iff x y').mpr ((h.pairs_congr hsame
        (same_refl (h.right_eq.1 ▸ h.forward.valueEquivalence) y')).mp hpair)
      rw [h.forward.member_eq, hnone] at hmember
      cases hmember
    · exact And.left
  · rw [hresult]
    have hall := deleteAll_holds ((HashSet.toList group).map fun y => (x, y)) h
    rw [foldl_map] at hall
    apply hall.congr
    intro x' y'
    refine and_congr_right fun hpair => not_congr ?_
    constructor
    · rintro ⟨target, htarget, hsame, -⟩
      obtain ⟨y, -, rfl⟩ := mem_map.mp htarget
      exact hsame
    · intro hsame
      have hmember := (h.forward_iff x y').mpr ((h.pairs_congr hsame
        (same_refl (h.right_eq.1 ▸ h.forward.valueEquivalence) y')).mp hpair)
      rw [h.forward.member_eq, ← helements, ← hgroup.member_eq, hgroup.member_iff] at hmember
      obtain ⟨y, hy, hvalue⟩ := hmember
      refine ⟨(x, y), mem_map_of_mem hy, hsame, ?_⟩
      rw [← h.right_eq.1]
      rwa [hpolicy] at hvalue

theorem deleteRight_holds (y : b) :
    Holds left right (fun x' y' => pairs x' y' ∧ ¬right.equalKeys y' y = true)
      (deleteRight y relation) := by
  unfold deleteRight lookupLefts
  rcases h.reverseMap.lookupValues_cases y with ⟨hresult, -, hnone⟩ |
    ⟨rep, group, hresult, -, -, hgroup, hpolicy, helements, -⟩
  · rw [hresult]
    apply h.congr
    intro x' y'
    constructor
    · intro hpair
      refine ⟨hpair, fun hsame => ?_⟩
      have hmember := (h.reverse_iff x' y).mpr ((h.pairs_congr
        (same_refl (h.left_eq.1 ▸ h.forward.keyEquivalence) x') hsame).mp hpair)
      rw [h.reverseMap.member_eq, hnone] at hmember
      cases hmember
    · exact And.left
  · rw [hresult]
    have hall := deleteAll_holds ((HashSet.toList group).map fun x => (x, y)) h
    rw [foldl_map] at hall
    apply hall.congr
    intro x' y'
    refine and_congr_right fun hpair => not_congr ?_
    constructor
    · rintro ⟨target, htarget, -, hsame⟩
      obtain ⟨x, -, rfl⟩ := mem_map.mp htarget
      exact hsame
    · intro hsame
      have hmember := (h.reverse_iff x' y).mpr ((h.pairs_congr
        (same_refl (h.left_eq.1 ▸ h.forward.keyEquivalence) x') hsame).mp hpair)
      rw [h.reverseMap.member_eq, ← helements, ← hgroup.member_eq, hgroup.member_iff] at hmember
      obtain ⟨x, hx, hvalue⟩ := hmember
      refine ⟨(x, y), mem_map_of_mem hx, ?_, hsame⟩
      rw [← h.left_eq.2]
      rwa [hpolicy] at hvalue

theorem Holds.mem_pairs {pair : a × b} (hpair : pair ∈ toList relation) : pairs pair.1 pair.2 := by
  rw [← h.forward_iff]
  exact h.forward.member_toList.mpr ⟨pair, hpair, same_refl h.forward.keyEquivalence pair.1,
    same_refl h.forward.valueEquivalence pair.2⟩

theorem Holds.pairs_iff (x : a) (y : b) : pairs x y ↔
    ∃ pair ∈ toList relation, left.equalKeys x pair.1 = true ∧ right.equalKeys y pair.2 = true := by
  rw [← h.forward_iff, h.forward.member_toList, h.left_eq.1, h.right_eq.1]
  rfl

theorem Holds.toList_distinct : (toList relation).Pairwise fun one other =>
    ¬(left.equalKeys one.1 other.1 = true ∧ right.equalKeys one.2 other.2 = true) := by
  have hdistinct := h.forward.toList_distinct
  rwa [h.left_eq.1, h.right_eq.1] at hdistinct

theorem Holds.validStructure_eq : validStructure relation = true := by
  have hforward : (toList relation).all
      (fun pair => HashMultimap.member pair.2 pair.1 relation.reverseMap) = true :=
    all_eq_true.mpr fun pair hpair => (h.reverse_iff pair.1 pair.2).mpr (h.mem_pairs hpair)
  have hreverse : (HashMultimap.toList relation.reverseMap).all
      (fun pair => HashMultimap.member pair.2 pair.1 relation.forward) = true :=
    all_eq_true.mpr fun pair hpair => (h.forward_iff pair.2 pair.1).mpr (h.inverse.mem_pairs hpair)
  have hsize : (relation.forward.size == relation.reverseMap.size) = true :=
    beq_iff_eq.mpr h.count_eq
  rw [validStructure, h.forward.validStructure_eq, h.reverseMap.validStructure_eq, hsize, hforward,
    hreverse]
  rfl

end Holding

end

/-!
## Histories of a relation

A version stands beside the pairs that its history calls for.  An inversion exchanges the policies.
-/

open HashMap (LawfulPolicy)

inductive Reached : {a b : Type} → LawfulPolicy a → LawfulPolicy b → (a → b → Prop) →
    Relation a b → Prop where
  | emptyWith {a b : Type} (left : LawfulPolicy a) (right : LawfulPolicy b) :
      Reached left right (fun _ _ => False) (emptyWith left.toHashPolicy right.toHashPolicy)
  | insert {a b : Type} {left : LawfulPolicy a} {right : LawfulPolicy b} {pairs : a → b → Prop}
      {relation after : Relation a b} (x : a) (y : b) (h : Reached left right pairs relation)
      (hstep : insert x y relation = .ok after) :
      Reached left right (fun x' y' =>
        (left.equalKeys x' x = true ∧ right.equalKeys y' y = true) ∨ pairs x' y') after
  | delete {a b : Type} {left : LawfulPolicy a} {right : LawfulPolicy b} {pairs : a → b → Prop}
      {relation : Relation a b} (x : a) (y : b) (h : Reached left right pairs relation) :
      Reached left right (fun x' y' =>
        pairs x' y' ∧ ¬(left.equalKeys x' x = true ∧ right.equalKeys y' y = true))
        (delete x y relation)
  | deleteLeft {a b : Type} {left : LawfulPolicy a} {right : LawfulPolicy b}
      {pairs : a → b → Prop} {relation : Relation a b} (x : a)
      (h : Reached left right pairs relation) :
      Reached left right (fun x' y' => pairs x' y' ∧ ¬left.equalKeys x' x = true)
        (deleteLeft x relation)
  | deleteRight {a b : Type} {left : LawfulPolicy a} {right : LawfulPolicy b}
      {pairs : a → b → Prop} {relation : Relation a b} (y : b)
      (h : Reached left right pairs relation) :
      Reached left right (fun x' y' => pairs x' y' ∧ ¬right.equalKeys y' y = true)
        (deleteRight y relation)
  | inverse {a b : Type} {left : LawfulPolicy a} {right : LawfulPolicy b} {pairs : a → b → Prop}
      {relation : Relation a b} (h : Reached left right pairs relation) :
      Reached right left (fun y x => pairs x y) (inverse relation)

section

variable {a b : Type} (left : HashPolicy a) (right : HashPolicy b) (x : a) (y : b)
  (pairs : a → b → Prop) (x' : a) (y' : b)

theorem written_true : written left right x y True pairs x' y' ↔
      (left.equalKeys x' x = true ∧ right.equalKeys y' y = true) ∨ pairs x' y' := by
  unfold written
  split
  · rename_i hboth
    exact iff_of_true trivial (.inl hboth)
  · rename_i hother
    exact ⟨.inr, fun hpair => hpair.resolve_left hother⟩

theorem written_false : written left right x y False pairs x' y' ↔
      pairs x' y' ∧ ¬(left.equalKeys x' x = true ∧ right.equalKeys y' y = true) := by
  unfold written
  split
  · rename_i hboth
    exact iff_of_false id fun hpair => hpair.2 hboth
  · rename_i hother
    exact ⟨fun hpair => ⟨hpair, hother⟩, And.left⟩

end

theorem Reached.holds {a b : Type} {left : LawfulPolicy a} {right : LawfulPolicy b}
    {pairs : a → b → Prop} {relation : Relation a b} (h : Reached left right pairs relation) :
    Holds left.toHashPolicy right.toHashPolicy pairs relation := by
  induction h with
  | emptyWith left right => exact emptyWith_holds left.lawful right.lawful
  | insert x y _ hstep ih =>
      rcases insert_cases ih x y with ⟨-, -, hresult⟩ | ⟨-, after, hresult, hafter⟩
      · rw [hresult] at hstep
        cases hstep
      · rw [hresult] at hstep
        cases hstep
        exact hafter.congr (written_true _ _ x y _)
  | delete x y _ ih => exact (delete_holds ih x y).congr (written_false _ _ x y _)
  | deleteLeft x _ ih => exact deleteLeft_holds ih x
  | deleteRight y _ ih => exact deleteRight_holds ih y
  | inverse _ ih => exact ih.inverse

variable {a b : Type}

structure Version (left : LawfulPolicy a) (right : LawfulPolicy b) where
  pairs : a → b → Prop
  relation : Relation a b
  reached : Reached left right pairs relation

/-- Both indexes hold exactly the given pairs, each of them once. -/
structure Exact (left : HashPolicy a) (right : HashPolicy b) (pairs : a → b → Prop)
    (relation : Relation a b) : Prop where
  validStructure_eq : validStructure relation = true
  member_iff : ∀ x y, member x y relation = true ↔ pairs x y
  mirrored : ∀ x y, HashMultimap.member x y relation.forward = true ↔
    HashMultimap.member y x relation.reverseMap = true
  forward_full : ∀ entry ∈ HashMap.toList relation.forward.groups, HashSet.toList entry.2 ≠ []
  reverse_full : ∀ entry ∈ HashMap.toList relation.reverseMap.groups, HashSet.toList entry.2 ≠ []
  pairs_iff : ∀ x y, pairs x y ↔
    ∃ pair ∈ toList relation, left.equalKeys x pair.1 = true ∧ right.equalKeys y pair.2 = true
  distinct : (toList relation).Pairwise fun one other =>
    ¬(left.equalKeys one.1 other.1 = true ∧ right.equalKeys one.2 other.2 = true)
  forward_count : relation.forward.size = ((toList relation).length : Int)
  reverse_count : relation.reverseMap.size = ((toList relation).length : Int)

theorem full_groups {k v : Type} {values : HashMultimap k v} (h : values.Valid)
    {entry : k × HashSet v} (hentry : entry ∈ HashMap.toList values.groups) :
    HashSet.toList entry.2 ≠ [] := by
  obtain ⟨hvalid, -, hfull⟩ := h.group entry hentry
  intro hempty
  apply hfull
  rw [HashSet.null, hvalid.size_toList, hempty]
  rfl

theorem Holds.exact {left : HashPolicy a} {right : HashPolicy b} {pairs : a → b → Prop}
    {relation : Relation a b} (h : Holds left right pairs relation) :
    Exact left right pairs relation where
  validStructure_eq := h.validStructure_eq
  member_iff := h.forward_iff
  mirrored x y := (h.forward_iff x y).trans (h.reverse_iff x y).symm
  forward_full _ hentry := full_groups h.forward hentry
  reverse_full _ hentry := full_groups h.reverseMap hentry
  pairs_iff := h.pairs_iff
  distinct := h.toList_distinct
  forward_count := h.forward.toList_length.symm
  reverse_count := h.count_eq.symm.trans h.forward.toList_length.symm

end Durable7.Hamt.Relation
