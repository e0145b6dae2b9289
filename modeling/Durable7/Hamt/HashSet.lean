import Durable7.Hamt.HashMap.Validation
import Durable7.Hamt.HashMap.Assignments

/-!
# Hash sets

A set is a map to the unit value.  Adding an element that is there changes nothing, so that the
first representative stays.
-/

namespace Durable7.Hamt

open Foundation List

structure HashSet (a : Type) where
  values : HashMap a Unit

namespace HashSet

open HashMap (Becomes entryOf)

variable {a : Type}

def emptyWith (hashPolicy : HashPolicy a) : HashSet a := ⟨HashMap.emptyWith hashPolicy⟩

def size (setValue : HashSet a) : Nat := setValue.values.size

def policy (setValue : HashSet a) : HashPolicy a := setValue.values.policy

def null (setValue : HashSet a) : Bool := setValue.size == 0

def member (value : a) (setValue : HashSet a) : Bool := HashMap.member value setValue.values

def actualValue (value : a) (setValue : HashSet a) : Option a :=
  HashMap.actualKey value setValue.values

def insert (value : a) (setValue : HashSet a) : HashSet a :=
  if HashMap.member value setValue.values then setValue
  else ⟨HashMap.insert value () setValue.values⟩

def singletonWith (hashPolicy : HashPolicy a) (value : a) : HashSet a :=
  insert value (emptyWith hashPolicy)

def delete (value : a) (setValue : HashSet a) : HashSet a := ⟨HashMap.delete value setValue.values⟩

def tryRemove (value : a) (setValue : HashSet a) : Option (HashSet a) :=
  match HashMap.tryRemove value setValue.values with
  | some (_, rest) => some ⟨rest⟩
  | none => none

def toList (setValue : HashSet a) : List a := (HashMap.toList setValue.values).map Prod.fst

/-! ## Membership -/

structure Valid (setValue : HashSet a) : Prop where
  values : setValue.values.WellFormed

theorem emptyWith_valid {hashPolicy : HashPolicy a} (hlawful : hashPolicy.Lawful) :
    (emptyWith hashPolicy).Valid :=
  ⟨HashMap.emptyWith_wellFormed hlawful⟩

/-- The element of one class is there or not, the other classes stay. -/
structure Writes (before after : HashSet a) (value : a) (element : Option a) : Prop where
  valid : after.Valid
  policy_eq : after.policy = before.policy
  actualValue_eq : ∀ other, actualValue other after =
    if before.policy.equalKeys other value = true then element else actualValue other before
  size_eq : after.size + (actualValue value before).toList.length =
    before.size + element.toList.length

section Spec

variable {setValue : HashSet a} (h : setValue.Valid)

include h

theorem Valid.equivalence :
    Equivalence fun left right => setValue.policy.equalKeys left right = true :=
  h.values.lawful.equivalence

theorem Valid.actualValue_eq (value : a) :
    actualValue value setValue = (entryOf setValue.values value).map Prod.fst :=
  h.values.actualKey_eq value

theorem Valid.member_eq (value : a) :
    member value setValue = (actualValue value setValue).isSome := by
  rw [h.actualValue_eq, Option.isSome_map]
  exact h.values.member_eq value

section

variable {left right : a} (hsame : setValue.policy.equalKeys left right = true)
include hsame

theorem Valid.actualValue_congr : actualValue left setValue = actualValue right setValue := by
  rw [h.actualValue_eq, h.actualValue_eq, h.values.entryOf_congr hsame]

theorem Valid.member_congr : member left setValue = member right setValue := by
  rw [h.member_eq, h.member_eq, h.actualValue_congr hsame]

end

theorem Valid.same_of_actualValue {value element : a}
    (helement : actualValue value setValue = some element) :
    setValue.policy.equalKeys value element = true := by
  rw [h.actualValue_eq] at helement
  obtain ⟨entry, hentry, rfl⟩ := Option.map_eq_some_iff.mp helement
  exact (mem_of_entryAt hentry).2

theorem Valid.mem_toList {element : a} :
    element ∈ toList setValue ↔ actualValue element setValue = some element := by
  rw [toList, mem_map, h.actualValue_eq, Option.map_eq_some_iff]
  constructor
  · rintro ⟨⟨key, stored⟩, hmem, rfl⟩
    exact ⟨_, h.values.mem_iff.mp hmem, rfl⟩
  · rintro ⟨entry, hentry, hkey⟩
    exact ⟨entry, (mem_of_entryAt hentry).1, hkey⟩

theorem Valid.member_iff {value : a} : member value setValue = true ↔
    ∃ element ∈ toList setValue, setValue.policy.equalKeys value element = true := by
  rw [h.member_eq, Option.isSome_iff_exists]
  constructor
  · rintro ⟨element, helement⟩
    have hsame := h.same_of_actualValue helement
    refine ⟨element, h.mem_toList.mpr ?_, hsame⟩
    rw [← h.actualValue_congr hsame, helement]
  · rintro ⟨element, hmem, hsame⟩
    exact ⟨element, (h.actualValue_congr hsame).trans (h.mem_toList.mp hmem)⟩

theorem Valid.size_toList : setValue.size = (toList setValue).length := by
  rw [toList, length_map]
  exact h.values.size_toList

theorem Valid.null_iff : null setValue = true ↔ ∀ value, actualValue value setValue = none := by
  rw [null, beq_iff_eq, h.size_toList, length_eq_zero_iff]
  constructor
  · intro hempty value
    cases helement : actualValue value setValue with
    | none => rfl
    | some element =>
        obtain ⟨other, hmem, -⟩ := h.member_iff.mp (by rw [h.member_eq, helement]; rfl)
        rw [hempty] at hmem
        cases hmem
  · intro hnone
    cases hlist : toList setValue with
    | nil => rfl
    | cons first rest =>
        have hfirst := h.mem_toList.mp (hlist ▸ mem_cons_self : first ∈ toList setValue)
        rw [hnone] at hfirst
        cases hfirst

theorem Valid.writes {after : HashMap a Unit} {value : a} {entry : Option (a × Unit)}
    (hafter : Becomes setValue.values after value entry) :
    Writes setValue ⟨after⟩ value (entry.map Prod.fst) := by
  have hvalid : Valid ⟨after⟩ := ⟨hafter.wellFormed⟩
  refine ⟨hvalid, hafter.policy_eq, ?_, ?_⟩
  · intro other
    rw [hvalid.actualValue_eq, h.actualValue_eq, hafter.entryOf_eq, apply_ite (Option.map _)]
    rfl
  · have hsize := hafter.size_eq h.values
    rw [h.actualValue_eq]
    cases hstored : entryOf setValue.values value <;> rw [hstored] at hsize <;>
      cases entry <;> exact hsize

omit h in
theorem insert_present {value : a} (hmember : member value setValue = true) :
    insert value setValue = setValue :=
  if_pos hmember

omit h in
theorem emptyWith_actualValue {hashPolicy : HashPolicy a} (hlawful : hashPolicy.Lawful)
    (value : a) : actualValue value (emptyWith hashPolicy) = none := by
  rw [(emptyWith_valid hlawful).actualValue_eq]
  rfl

theorem insert_writes {value : a} (habsent : ¬member value setValue = true) :
    Writes setValue (insert value setValue) value (some value) := by
  have hentry : entryOf setValue.values value = none := by
    rw [h.member_eq, h.actualValue_eq, Option.isSome_map] at habsent
    simpa using habsent
  have hinsert := HashMap.insert_becomes h.values value ()
  rw [hentry] at hinsert
  have hresult : insert value setValue = ⟨HashMap.insert value () setValue.values⟩ := if_neg habsent
  rw [hresult]
  exact h.writes hinsert

theorem delete_writes (value : a) : Writes setValue (delete value setValue) value none :=
  h.writes (HashMap.delete_becomes h.values value)

theorem tryRemove_cases (value : a) :
    (¬member value setValue = true ∧ tryRemove value setValue = none) ∨
    (member value setValue = true ∧ ∃ after, tryRemove value setValue = some after ∧
      Writes setValue after value none) := by
  unfold tryRemove
  rw [h.member_eq, h.actualValue_eq, Option.isSome_map]
  rcases HashMap.tryRemove_becomes h.values value with ⟨habsent, hresult⟩ |
    ⟨stored, after, hstored, hresult, hafter⟩
  · rw [habsent, hresult]
    exact .inl ⟨Bool.false_ne_true, rfl⟩
  · rw [hstored, hresult]
    exact .inr ⟨rfl, _, rfl, h.writes hafter⟩

end Spec

section Writing

variable {before after : HashSet a} {value : a} {element : Option a}

theorem Writes.member_iff (h : Writes before after value element) (hbefore : before.Valid)
    {other : a} : member other after = true ↔
      if before.policy.equalKeys other value = true then element.isSome = true
      else member other before = true := by
  rw [h.valid.member_eq, h.actualValue_eq, hbefore.member_eq]
  split <;> rfl

theorem insert_member (h : before.Valid) (value other : a) :
    member other (insert value before) = true ↔
      before.policy.equalKeys other value = true ∨ member other before = true := by
  by_cases hmember : member value before = true
  · rw [insert_present hmember]
    constructor
    · exact Or.inr
    · rintro (hsame | hother)
      · rw [h.member_congr hsame, hmember]
      · exact hother
  · rw [(insert_writes h hmember).member_iff h]
    split
    · rename_i hsame
      simp [hsame]
    · rename_i hsame
      simp [hsame]

theorem insert_valid (h : before.Valid) (value : a) :
    (insert value before).Valid ∧ (insert value before).policy = before.policy := by
  by_cases hmember : member value before = true
  · rw [insert_present hmember]
    exact ⟨h, rfl⟩
  · have hwrites := insert_writes h hmember
    exact ⟨hwrites.valid, hwrites.policy_eq⟩

end Writing

end HashSet

end Durable7.Hamt
