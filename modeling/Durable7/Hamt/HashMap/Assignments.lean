import Durable7.Hamt.HashMap.Maps
import Durable7.Foundation.Occurrences

/-!
# Assignments to classes of keys

One assignment stores a value under the class of a key or removes the class.  Assignments that are
true of a target turn every map into it that differs only in their classes.
-/

namespace Durable7.Hamt.HashMap

open Foundation List

variable {k v : Type}

section

theorem WellFormed.mem_iff {map : HashMap k v} (h : map.WellFormed) {key : k} {value : v} :
    (key, value) ∈ toList map ↔ entryOf map key = some (key, value) := by
  rw [entryOf, entryAt_eq_some h.lawful.equivalence h.distinct]
  exact ⟨fun hmem => ⟨hmem, same_refl h.lawful.equivalence key⟩, fun hmem => hmem.1⟩

variable {map : HashMap k v}

theorem WellFormed.entryOf_congr (h : map.WellFormed) {left right : k}
    (hsame : map.policy.equalKeys left right = true) : entryOf map left = entryOf map right :=
  entryAt_congr h.lawful.equivalence hsame _

theorem WellFormed.entry_unique (h : map.WellFormed) {left right : k × v}
    (hleft : left ∈ toList map) (hright : right ∈ toList map)
    (hsame : map.policy.equalKeys left.1 right.1 = true) : left = right := by
  have hentry := h.entryOf_congr hsame
  rw [h.mem_iff.mp hleft, h.mem_iff.mp hright] at hentry
  exact Option.some.inj hentry

theorem Becomes.congr {before after : HashMap k v} {key other : k} {entry : Option (k × v)}
    (h : Becomes before after key entry) (hbefore : before.WellFormed)
    (hsame : before.policy.equalKeys key other = true) : Becomes before after other entry := by
  refine ⟨h.wellFormed, h.policy_eq, ?_⟩
  intro third
  have hequivalence := hbefore.lawful.equivalence
  rw [h.entryOf_eq, same_comm hequivalence third key, same_congr hequivalence hsame,
    same_comm hequivalence other third]

theorem Becomes.mem_iff {before after : HashMap k v} {key : k} {entry : Option (k × v)}
    (h : Becomes before after key entry) (hbefore : before.WellFormed) {other : k} {value : v} :
    (other, value) ∈ toList after ↔
      if before.policy.equalKeys other key = true then entry = some (other, value)
      else (other, value) ∈ toList before := by
  rw [h.wellFormed.mem_iff, h.entryOf_eq]
  split
  · rfl
  · rw [hbefore.mem_iff]

theorem WellFormed.lookup_congr (h : map.WellFormed) {left right : k}
    (hsame : map.policy.equalKeys left right = true) : lookup left map = lookup right map := by
  rw [h.lookup_eq, h.lookup_eq, h.entryOf_congr hsame]

def assignValue (map : HashMap k v) (change : k × Option v) : HashMap k v :=
  match change.2 with
  | none => delete change.1 map
  | some value => insert change.1 value map

def assignAll (changes : List (k × Option v)) (map : HashMap k v) : HashMap k v :=
  changes.foldl assignValue map

theorem assignValue_spec (h : map.WellFormed) (change : k × Option v) :
    (assignValue map change).WellFormed ∧
      (assignValue map change).policy = map.policy ∧
      ∀ key, lookup key (assignValue map change) =
        if map.policy.equalKeys key change.1 = true then change.2 else lookup key map := by
  have hbecomes : ∃ entry, Becomes map (assignValue map change) change.1 entry ∧
      entry.map Prod.snd = change.2 := by
    obtain ⟨key, value⟩ := change
    cases value with
    | none => exact ⟨_, delete_becomes h key, rfl⟩
    | some value =>
        refine ⟨_, insert_becomes h key value, ?_⟩
        cases entryOf map key <;> rfl
  obtain ⟨entry, hafter, hvalue⟩ := hbecomes
  refine ⟨hafter.wellFormed, hafter.policy_eq, ?_⟩
  intro key
  rw [hafter.wellFormed.lookup_eq, hafter.entryOf_eq, h.lookup_eq, apply_ite (Option.map Prod.snd),
    hvalue]

theorem assignAll_spec {changes : List (k × Option v)} {target : k → Option v} (h : map.WellFormed)
    (htarget : ∀ left right, map.policy.equalKeys left right = true → target left = target right)
    (htrue : ∀ change ∈ changes, change.2 = target change.1)
    (hcover : ∀ key, lookup key map = target key ∨
      ∃ change ∈ changes, map.policy.equalKeys key change.1 = true) :
    (assignAll changes map).WellFormed ∧
      (assignAll changes map).policy = map.policy ∧
      ∀ key, lookup key (assignAll changes map) = target key := by
  induction changes generalizing map with
  | nil =>
      refine ⟨h, rfl, ?_⟩
      intro key
      rcases hcover key with heq | ⟨change, hmem, -⟩
      · exact heq
      · cases hmem
  | cons change changes ih =>
      obtain ⟨hafter, hpolicy, hlookup⟩ := assignValue_spec h change
      have hrest := ih hafter (by rwa [hpolicy])
        (fun other hother => htrue other (mem_cons_of_mem _ hother)) (by
          intro key
          rw [hlookup, hpolicy]
          by_cases hkey : map.policy.equalKeys key change.1 = true
          · rw [if_pos hkey, htrue change mem_cons_self]
            exact .inl (htarget _ _ hkey).symm
          · rw [if_neg hkey]
            rcases hcover key with heq | ⟨other, hother, hotherKey⟩
            · exact .inl heq
            · rcases mem_cons.mp hother with rfl | hother
              · exact absurd hotherKey hkey
              · exact .inr ⟨other, hother, hotherKey⟩)
      rw [hpolicy] at hrest
      exact hrest

theorem foldl_becomes {w : Type} {step : HashMap k v → k × w → HashMap k v}
    {effect : Option (k × v) → k × w → Option (k × v)} {entries : List (k × w)} (h : map.WellFormed)
    (hstep : ∀ before, before.WellFormed → before.policy = map.policy → ∀ entry ∈ entries,
      Becomes before (step before entry) entry.1 (effect (entryOf before entry.1) entry))
    (hdistinct : Distinct map.policy.equalKeys entries) :
    (entries.foldl step map).WellFormed ∧ (entries.foldl step map).policy = map.policy ∧
      ∀ key, entryOf (entries.foldl step map) key =
        (entryAt map.policy.equalKeys key entries).elim (entryOf map key)
          (effect (entryOf map key)) := by
  induction entries generalizing map with
  | nil => exact ⟨h, rfl, fun _ => rfl⟩
  | cons entry entries ih =>
      obtain ⟨hfirst, hrest⟩ := pairwise_cons.mp hdistinct
      have hafter := hstep map h rfl entry mem_cons_self
      have hpolicy := hafter.policy_eq
      obtain ⟨hwellFormed, hlast, hentries⟩ := ih hafter.wellFormed
        (fun before hbefore hsame other hother =>
          hstep before hbefore (hsame.trans hpolicy) other (mem_cons_of_mem _ hother))
        (by rwa [hpolicy])
      refine ⟨hwellFormed, hlast.trans hpolicy, ?_⟩
      intro key
      rw [foldl_cons, hentries, hafter.entryOf_eq, hpolicy, entryAt_cons]
      by_cases hkey : map.policy.equalKeys key entry.1 = true
      · have habsent : entryAt map.policy.equalKeys key entries = none := by
          rw [entryAt_congr h.lawful.equivalence hkey]
          exact entryAt_eq_none.mpr hfirst
        have hentry : entryOf map key = entryOf map entry.1 :=
          entryAt_congr h.lawful.equivalence hkey _
        rw [if_pos hkey, if_pos hkey, habsent, hentry]
        rfl
      · rw [if_neg hkey, if_neg hkey]

end

/-!
## Weights of entries

A step that writes one class changes the total weight by the weights of the entries it exchanges.
With the weight one this is the size.
-/

def weigh (weight : v → Nat) (entry : k × v) : k × Nat := (entry.1, weight entry.2)

def weights (weight : v → Nat) (map : HashMap k v) : List (k × Nat) :=
  (toList map).map (weigh weight)

def totalWeight (weight : v → Nat) (map : HashMap k v) : Nat :=
  ((toList map).map fun entry => weight entry.2).sum

theorem totalOf_weights (weight : v → Nat) (map : HashMap k v) :
    totalOf (weights weight map) = totalWeight weight map := by
  rw [totalOf, weights, map_map]
  rfl

theorem entryAt_weights (weight : v → Nat) (map : HashMap k v) (key : k) :
    entryAt map.policy.equalKeys key (weights weight map) =
      (entryOf map key).map (weigh weight) := by
  rw [entryAt, weights, List.find?_map]
  rfl

theorem WellFormed.distinct_weights {map : HashMap k v} (h : map.WellFormed) (weight : v → Nat) :
    Distinct map.policy.equalKeys (weights weight map) := by
  rw [Distinct, weights, pairwise_map]
  exact h.distinct

/-- The weight of an entry that may be absent. -/
def weightOf (weight : v → Nat) (entry : Option (k × v)) : Nat :=
  (entry.map fun stored => weight stored.2).getD 0

@[simp] theorem weightOf_none (weight : v → Nat) :
    weightOf weight (none : Option (k × v)) = 0 := rfl

@[simp] theorem weightOf_some (weight : v → Nat) (entry : k × v) :
    weightOf weight (some entry) = weight entry.2 := rfl

theorem numberAt_weigh (weight : v → Nat) (entry : Option (k × v)) :
    numberAt (entry.map (weigh weight)) = weightOf weight entry := by
  cases entry <;> rfl

variable {after before : HashMap k v} {entry : Option (k × v)} {key : k}

theorem Becomes.sets_weights (h : Becomes before after key entry) (weight : v → Nat) :
    Sets before.policy.equalKeys key (entry.map (weigh weight)) (weights weight before)
      (weights weight after) := by
  intro other
  rw [← h.policy_eq, entryAt_weights, h.entryOf_eq, h.policy_eq, entryAt_weights,
    apply_ite (Option.map _)]

theorem Becomes.totalWeight_eq (h : Becomes before after key entry) (hbefore : before.WellFormed)
    (weight : v → Nat) :
    totalWeight weight after + weightOf weight (entryOf before key) =
      totalWeight weight before + weightOf weight entry := by
  have hafter := h.wellFormed.distinct_weights weight
  rw [h.policy_eq] at hafter
  have htotal := totalOf_of_sets hbefore.lawful.equivalence (hbefore.distinct_weights weight)
    hafter (h.sets_weights weight)
  rwa [entryAt_weights, numberAt_weigh, numberAt_weigh, totalOf_weights, totalOf_weights] at htotal

theorem WellFormed.totalWeight_one {map : HashMap k v} (h : map.WellFormed) :
    totalWeight (fun _ => 1) map = map.size := by
  rw [totalWeight, h.size_toList, map_const', sum_replicate_nat, Nat.mul_one]

theorem Becomes.size_eq (h : Becomes before after key entry) (hbefore : before.WellFormed) :
    after.size + weightOf (fun _ => 1) (entryOf before key) =
      before.size + weightOf (fun _ => 1) entry := by
  have htotal := h.totalWeight_eq hbefore fun _ => 1
  rwa [h.wellFormed.totalWeight_one, hbefore.totalWeight_one] at htotal

end Durable7.Hamt.HashMap
