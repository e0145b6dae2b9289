import Durable7.FingerTree.RangeUpdateSequence.Shape

/-!
# Balancing and joining

A node whose children are two levels apart is balanced by one or two rotations.  The
result is as high as the higher child, or one level more.
-/

namespace Durable7.FingerTree.RangeUpdateSequence

open Foundation List RrbVector

section

variable {element measureValue tag : Type} {algebra : RangeUpdateAlgebra element measureValue tag}
  {root left right : Node element measureValue tag} {value : element}
  {lefts rights values : List element}

theorem push_built :
    push algebra (built algebra value left right) = built algebra value left right :=
  rfl

theorem heightOf_built :
    heightOf (built algebra value left right) = 1 + max (heightOf left) (heightOf right) := rfl

theorem countOf_built :
    countOf (built algebra value left right) = countOf left + 1 + countOf right := rfl

section Rotations

variable {pivotValue : element} {pivotLeft pivotRight : Node element measureValue tag}
  {height count height' count' : Nat} {measure measure' : measureValue}
    {pending pending' : Option tag}

section

variable (hroot : push algebra root = .node value left right height count measure pending)
include hroot

theorem rotateRight_eq
    (hleft : push algebra left =
      .node pivotValue pivotLeft pivotRight height' count' measure' pending')
    (hbound : countOf pivotLeft + 1 + (countOf pivotRight + 1 + countOf right) ≤ maxBound) :
    rotateRight algebra root =
      .ok (built algebra pivotValue pivotLeft (built algebra value pivotRight right)) := by
  rw [rotateRight, hroot]
  dsimp only
  rw [hleft]
  dsimp only
  rw [makeNode_eq value (by omega), except_ok_bind, makeNode_eq pivotValue hbound]

theorem rotateLeft_eq (hright : push algebra right =
      .node pivotValue pivotLeft pivotRight height' count' measure' pending')
    (hbound : countOf left + 1 + countOf pivotLeft + 1 + countOf pivotRight ≤ maxBound) :
    rotateLeft algebra root =
      .ok (built algebra pivotValue (built algebra value left pivotLeft) pivotRight) := by
  rw [rotateLeft, hroot]
  dsimp only
  rw [hright]
  dsimp only
  rw [makeNode_eq value (by omega), except_ok_bind, makeNode_eq pivotValue]
  rw [countOf_built]
  exact hbound

end

end Rotations

section Balance

variable [lawful : LawfulAlgebra algebra]

theorem Shows.nonempty_cases (h : Shows algebra root values) (hpos : 0 < heightOf root) :
    ∃ value left right lefts rights count measure,
      push algebra root = .node value left right (heightOf root) count measure none ∧
      values = lefts ++ value :: rights ∧ Shows algebra left lefts ∧ Shows algebra right rights ∧
      childHeights root = .ok (heightOf left, heightOf right) ∧
      heightOf root = 1 + max (heightOf left) (heightOf right) ∧
      heightOf left ≤ heightOf right + 1 ∧ heightOf right ≤ heightOf left + 1 := by
  rcases h.push_cases with ⟨rfl, -⟩ | hcases
  · exact absurd hpos (Nat.lt_irrefl 0)
  · exact hcases

/-- What balancing gives: the contents in order, and at most one level more. -/
def Balances (algebra : RangeUpdateAlgebra element measureValue tag) (value : element)
    (left right : Node element measureValue tag) (values : List element) : Prop :=
  ∃ balanced, balance algebra (built algebra value left right) = .ok balanced ∧
    Shows algebra balanced values ∧
    max (heightOf left) (heightOf right) ≤ heightOf balanced ∧
    heightOf balanced ≤ max (heightOf left) (heightOf right) + 1 ∧
    (heightOf left ≤ heightOf right + 1 → heightOf right ≤ heightOf left + 1 →
      heightOf balanced = max (heightOf left) (heightOf right) + 1)

section

variable (hleft : Shows algebra left lefts) (hright : Shows algebra right rights)
include hleft hright

theorem balance_left (hheight : heightOf left = heightOf right + 2)
    (hbound : lefts.length + 1 + rights.length ≤ maxBound) :
    Balances algebra value left right (lefts ++ value :: rights) := by
  obtain ⟨pivotValue, outer, inner, outers, inners, count, measure, hpush, rfl, houter, hinner,
    hchildren, hleftHeight, hlow, hhigh⟩ := hleft.nonempty_cases (by omega)
  rw [length_append, length_cons] at hbound
  have houterCount := houter.count_eq
  have hinnerCount := hinner.count_eq
  have hrightCount := hright.count_eq
  unfold Balances
  rw [balance.eq_def, built]
  dsimp only
  rw [if_pos (by omega), hchildren, except_ok_bind]
  dsimp only
  rw [← built]
  by_cases hsingle : heightOf inner ≤ heightOf outer
  · have hrotate := @rotateRight_eq _ _ _ algebra (built algebra value left right) left right value
      pivotValue outer inner _ _ _ _ _ _ _ _ rfl hpush (by omega)
    rw [if_neg (by omega), hrotate]
    have hlower := shows_built value hinner hright (by omega) (by omega)
    have hlowerHeight := @heightOf_built _ _ _ algebra inner right value
    have hresult := shows_built pivotValue houter hlower (by omega) (by omega)
    refine ⟨_, rfl, by simpa using hresult, ?_, ?_, fun _ _ => ?_⟩
    all_goals
      rw [heightOf_built]
      omega
  · obtain ⟨middle, near, far, nears, fars, count', measure', hpush', rfl, hnear, hfar, -,
      hinnerHeight, hlow', hhigh'⟩ := hinner.nonempty_cases (by omega)
    rw [length_append, length_cons] at hinnerCount hbound
    have hnearCount := hnear.count_eq
    have hfarCount := hfar.count_eq
    have hrotate := rotateLeft_eq hpush hpush' (by omega)
    have hprepared := @makeNode_eq _ _ _ algebra
      (built algebra middle (built algebra pivotValue outer near) far) right value (by
        rw [countOf_built, countOf_built]
        omega)
    have hrotate' := @rotateRight_eq _ _ _ algebra
      (built algebra value (built algebra middle (built algebra pivotValue outer near) far) right)
      (built algebra middle (built algebra pivotValue outer near) far) right value middle
      (built algebra pivotValue outer near) far _ _ _ _ _ _ _ _ rfl rfl (by
        rw [countOf_built]
        omega)
    rw [if_pos (by omega), push_built, built]
    dsimp only
    rw [hrotate, except_ok_bind, hprepared, except_ok_bind, hrotate']
    have hfirst := shows_built pivotValue houter hnear (by omega) (by omega)
    have hsecond := shows_built value hfar hright (by omega) (by omega)
    have hfirstHeight := @heightOf_built _ _ _ algebra outer near pivotValue
    have hsecondHeight := @heightOf_built _ _ _ algebra far right value
    have hresult := shows_built middle hfirst hsecond (by omega) (by omega)
    refine ⟨_, rfl, by simpa using hresult, ?_, ?_, fun _ _ => ?_⟩
    all_goals
      rw [heightOf_built]
      omega

theorem balance_right (hheight : heightOf right = heightOf left + 2)
    (hbound : lefts.length + 1 + rights.length ≤ maxBound) :
    Balances algebra value left right (lefts ++ value :: rights) := by
  obtain ⟨pivotValue, inner, outer, inners, outers, count, measure, hpush, rfl, hinner, houter,
    hchildren, hrightHeight, hlow, hhigh⟩ := hright.nonempty_cases (by omega)
  rw [length_append, length_cons] at hbound
  have houterCount := houter.count_eq
  have hinnerCount := hinner.count_eq
  have hleftCount := hleft.count_eq
  unfold Balances
  rw [balance.eq_def, built]
  dsimp only
  rw [if_neg (by omega), if_pos (by omega), hchildren, except_ok_bind]
  dsimp only
  rw [← built]
  by_cases hsingle : heightOf inner ≤ heightOf outer
  · have hrotate := @rotateLeft_eq _ _ _ algebra (built algebra value left right) left right value
      pivotValue inner outer _ _ _ _ _ _ _ _ rfl hpush (by omega)
    rw [if_neg (by omega), hrotate]
    have hlower := shows_built value hleft hinner (by omega) (by omega)
    have hlowerHeight := @heightOf_built _ _ _ algebra left inner value
    have hresult := shows_built pivotValue hlower houter (by omega) (by omega)
    refine ⟨_, rfl, by simpa using hresult, ?_, ?_, fun _ _ => ?_⟩
    all_goals
      rw [heightOf_built]
      omega
  · obtain ⟨middle, far, near, fars, nears, count', measure', hpush', rfl, hfar, hnear, -,
      hinnerHeight, hlow', hhigh'⟩ := hinner.nonempty_cases (by omega)
    rw [length_append, length_cons] at hinnerCount hbound
    have hnearCount := hnear.count_eq
    have hfarCount := hfar.count_eq
    have hrotate := rotateRight_eq hpush hpush' (by omega)
    have hprepared := @makeNode_eq _ _ _ algebra left
      (built algebra middle far (built algebra pivotValue near outer)) value (by
        rw [countOf_built, countOf_built]
        omega)
    have hrotate' := @rotateLeft_eq _ _ _ algebra
      (built algebra value left (built algebra middle far (built algebra pivotValue near outer)))
      left (built algebra middle far (built algebra pivotValue near outer)) value middle far
      (built algebra pivotValue near outer) _ _ _ _ _ _ _ _ rfl rfl (by
        rw [countOf_built]
        omega)
    rw [if_pos (by omega), push_built, built]
    dsimp only
    rw [hrotate, except_ok_bind, hprepared, except_ok_bind, hrotate']
    have hfirst := shows_built value hleft hfar (by omega) (by omega)
    have hsecond := shows_built pivotValue hnear houter (by omega) (by omega)
    have hfirstHeight := @heightOf_built _ _ _ algebra left far value
    have hsecondHeight := @heightOf_built _ _ _ algebra near outer pivotValue
    have hresult := shows_built middle hfirst hsecond (by omega) (by omega)
    refine ⟨_, rfl, by simpa using hresult, ?_, ?_, fun _ _ => ?_⟩
    all_goals
      rw [heightOf_built]
      omega

section

variable (hlow : heightOf left ≤ heightOf right + 2) (hhigh : heightOf right ≤ heightOf left + 2)
  (hbound : lefts.length + 1 + rights.length ≤ maxBound)
include hlow hhigh hbound

theorem balance_spec :
    Balances algebra value left right (lefts ++ value :: rights) := by
  by_cases hleftHigh : heightOf left = heightOf right + 2
  · exact balance_left hleft hright hleftHigh hbound
  by_cases hrightHigh : heightOf right = heightOf left + 2
  · exact balance_right hleft hright hrightHigh hbound
  refine ⟨built algebra value left right, ?_, shows_built value hleft hright (by omega) (by omega),
    ?_, ?_, fun _ _ => ?_⟩
  · rw [balance.eq_def, built]
    dsimp only
    rw [if_neg (by omega), if_neg (by omega)]
  all_goals
    rw [heightOf_built]
    omega

theorem rebuild_spec :
    makeNode algebra value left right = .ok (built algebra value left right) ∧
      ∃ balanced, balance algebra (built algebra value left right) = .ok balanced ∧
        Shows algebra balanced (lefts ++ value :: rights) ∧
        max (heightOf left) (heightOf right) ≤ heightOf balanced ∧
        heightOf balanced ≤ max (heightOf left) (heightOf right) + 1 ∧
        (heightOf balanced = max (heightOf left) (heightOf right) + 1 ∨
          heightOf right + 1 < heightOf left ∨ heightOf left + 1 < heightOf right) := by
  obtain ⟨balanced, hbalance, hshows, hmin, hmax, hexact⟩ :
      Balances algebra value left right (lefts ++ value :: rights) :=
    balance_spec hleft hright hlow hhigh hbound
  refine ⟨makeNode_eq value ?_, balanced, hbalance, hshows, hmin, hmax, ?_⟩
  · rw [hleft.count_eq, hright.count_eq]
    exact hbound
  · by_cases hclose : heightOf left ≤ heightOf right + 1 ∧ heightOf right ≤ heightOf left + 1
    · exact .inl (hexact hclose.1 hclose.2)
    · omega

end

end

theorem join_spec (total : Nat) (hleft : Shows algebra left lefts)
    (hright : Shows algebra right rights)
    (htotal : heightOf left + heightOf right = total)
    (hbound : lefts.length + 1 + rights.length ≤ maxBound) :
    ∃ joined, join algebra left value right = .ok joined ∧
      Shows algebra joined (lefts ++ value :: rights) ∧
      max (heightOf left) (heightOf right) ≤ heightOf joined ∧
      heightOf joined ≤ max (heightOf left) (heightOf right) + 1 := by
  induction total using Nat.strongRecOn generalizing left right lefts rights with
  | ind total ih =>
      rw [join.eq_def]
      by_cases hnear : heightOf left ≤ heightOf right + 1 ∧ heightOf right ≤ heightOf left + 1
      · rw [if_pos hnear]
        refine ⟨built algebra value left right, ?_, shows_built value hleft hright hnear.1 hnear.2,
          ?_, ?_⟩
        · apply makeNode_eq
          rw [hleft.count_eq, hright.count_eq]
          exact hbound
        · rw [heightOf_built]
          omega
        · rw [heightOf_built]
          omega
      rw [if_neg hnear]
      by_cases hhigher : heightOf left > heightOf right
      · rw [if_pos hhigher]
        obtain ⟨stored, outer, inner, outers, inners, count, measure, hpush, rfl, houter, hinner, -,
          hheight, hlow, hhigh⟩ := hleft.nonempty_cases (by omega)
        rw [length_append, length_cons] at hbound
        obtain ⟨boundary, hjoin, hboundary, hlow', hhigh'⟩ :=
          ih (heightOf inner + heightOf right) (by omega) hinner hright rfl (by omega)
        obtain ⟨hmake, balanced, hbalance, hshows, hlow'', hhigh'', hexact⟩ :=
          @rebuild_spec _ _ _ algebra outer boundary stored _ _ _ houter hboundary (by omega)
            (by omega) (by simp only [length_append, length_cons]; omega)
        split
        · next hnothing =>
          rw [hpush] at hnothing
          cases hnothing
        · next hnode =>
          rw [hpush] at hnode
          cases hnode
          rw [hjoin, except_ok_bind, hmake, except_ok_bind, hbalance]
          refine ⟨balanced, rfl, ?_, by omega, by omega⟩
          simpa using hshows
      · rw [if_neg hhigher]
        obtain ⟨stored, inner, outer, inners, outers, count, measure, hpush, rfl, hinner, houter, -,
          hheight, hlow, hhigh⟩ := hright.nonempty_cases (by omega)
        rw [length_append, length_cons] at hbound
        obtain ⟨leading, hjoin, hleading, hlow', hhigh'⟩ :=
          ih (heightOf left + heightOf inner) (by omega) hleft hinner rfl (by omega)
        obtain ⟨hmake, balanced, hbalance, hshows, hlow'', hhigh'', hexact⟩ :=
          @rebuild_spec _ _ _ algebra leading outer stored _ _ _ hleading houter (by omega)
            (by omega) (by simp only [length_append, length_cons]; omega)
        split
        · next hnothing =>
          rw [hpush] at hnothing
          cases hnothing
        · next hnode =>
          rw [hpush] at hnode
          cases hnode
          rw [hjoin, except_ok_bind, hmake, except_ok_bind, hbalance]
          refine ⟨balanced, rfl, ?_, by omega, by omega⟩
          simpa using hshows

end Balance

end

/-!
## Descents

Every descent pushes the tags on its path, edits the list of the contents at a position
and changes the height by one level at most.
-/

open Nat

/-! ### Lists around an element -/

section Lists

variable {α : Type} {front back : List α} {middle : α} {position : Nat}

theorem take_within (h : position ≤ front.length) :
    (front ++ middle :: back).take position = front.take position :=
  take_append_of_le_length h

theorem drop_within (h : position ≤ front.length) :
    (front ++ middle :: back).drop position = front.drop position ++ middle :: back :=
  drop_append_of_le_length h

theorem take_beyond (h : front.length < position) :
    (front ++ middle :: back).take position =
      front ++ middle :: back.take (position - front.length - 1) := by
  obtain ⟨extra, rfl⟩ := Nat.exists_eq_add_of_lt h
  rw [take_append, take_of_length_le (by omega),
    show front.length + extra + 1 - front.length = extra + 1 by omega, take_succ_cons,
    Nat.add_sub_cancel]

theorem drop_beyond (h : front.length < position) :
    (front ++ middle :: back).drop position = back.drop (position - front.length - 1) := by
  obtain ⟨extra, rfl⟩ := Nat.exists_eq_add_of_lt h
  rw [drop_append, drop_of_length_le (by omega), nil_append,
    show front.length + extra + 1 - front.length = extra + 1 by omega, drop_succ_cons,
    Nat.add_sub_cancel]

end Lists

variable {element measureValue tag : Type} {algebra : RangeUpdateAlgebra element measureValue tag}
  [lawful : LawfulAlgebra algebra] {root left right : Node element measureValue tag}
  {value : element} {values lefts rights : List element}

/-- A tree of the values, one level higher at most. -/
def Grows (algebra : RangeUpdateAlgebra element measureValue tag)
    (root : Node element measureValue tag) (values : List element)
    (result : Except RangeError (Node element measureValue tag)) : Prop :=
  ∃ grown, result = .ok grown ∧ Shows algebra grown values ∧ heightOf root ≤ heightOf grown ∧
    heightOf grown ≤ heightOf root + 1

/-- A tree of the values, one level lower at most. -/
def Shrinks (algebra : RangeUpdateAlgebra element measureValue tag)
    (root : Node element measureValue tag) (values : List element)
    (result : Except RangeError (Node element measureValue tag)) : Prop :=
  ∃ shrunk, result = .ok shrunk ∧ Shows algebra shrunk values ∧ heightOf shrunk ≤ heightOf root ∧
    heightOf root ≤ heightOf shrunk + 1

variable {position : Nat}

theorem insertCore_spec (height : Nat) (h : Shows algebra root values)
    (hheight : heightOf root = height) (hposition : position ≤ values.length)
    (hbound : values.length + 1 ≤ maxBound) :
    Grows algebra root (values.take position ++ value :: values.drop position)
      (insertCore algebra root position value) := by
  induction height using Nat.strongRecOn generalizing root values position with
  | ind height ih =>
      rw [insertCore.eq_def]
      rcases h.push_cases with ⟨rfl, rfl⟩ | ⟨stored, left, right, lefts, rights, count, measure,
        hpush, rfl, hleft, hright, -, hroot, hlow, hhigh⟩
      · rw [take_nil, drop_nil]
        refine ⟨built algebra value .nothing .nothing, makeNode_eq value hbound,
          shows_built value shows_nothing shows_nothing (by omega) (by omega), ?_, ?_⟩
        · exact zero_le _
        · exact le_refl 1
      rw [length_append, length_cons] at hbound hposition
      have hcount := hleft.count_eq
      split
      · next hnothing =>
        rw [hpush] at hnothing
        cases hnothing
      · next hnode =>
        rw [hpush] at hnode
        cases hnode
        by_cases hinside : position ≤ countOf left
        · obtain ⟨grown, hinsert, hgrown, hmin, hmax⟩ :=
            ih (heightOf left) (by omega) hleft rfl (hcount ▸ hinside) (by omega)
          obtain ⟨hmake, balanced, hbalance, hshows, hlow', hhigh', hexact⟩ :=
            @rebuild_spec _ _ _ algebra grown right stored _ _ _ hgrown hright (by omega) (by omega)
              (by simp only [length_append, length_cons, length_take, length_drop]; omega)
          rw [if_pos hinside, hinsert, except_ok_bind, hmake, except_ok_bind, hbalance]
          refine ⟨balanced, rfl, ?_, by omega, by omega⟩
          rw [take_within (hcount ▸ hinside), drop_within (hcount ▸ hinside)]
          simpa using hshows
        · obtain ⟨grown, hinsert, hgrown, hmin, hmax⟩ :=
            ih (heightOf right) (by omega) hright rfl
              (show position - countOf left - 1 ≤ rights.length by omega) (by omega)
          obtain ⟨hmake, balanced, hbalance, hshows, hlow', hhigh', hexact⟩ :=
            @rebuild_spec _ _ _ algebra left grown stored _ _ _ hleft hgrown (by omega) (by omega)
              (by simp only [length_append, length_cons, length_take, length_drop]; omega)
          rw [if_neg hinside, hinsert, except_ok_bind, hmake, except_ok_bind, hbalance]
          refine ⟨balanced, rfl, ?_, by omega, by omega⟩
          rw [take_beyond (by omega), drop_beyond (by omega), ← hcount]
          simpa using hshows

theorem setCore_spec (height : Nat) (h : Shows algebra root values)
    (hheight : heightOf root = height) (hposition : position < values.length)
    (hbound : values.length ≤ maxBound) :
    ∃ updated, setCore algebra root position value = .ok updated ∧
      Shows algebra updated (values.set position value) ∧ heightOf updated = heightOf root := by
  induction height using Nat.strongRecOn generalizing root values position with
  | ind height ih =>
      rw [setCore.eq_def]
      rcases h.push_cases with ⟨rfl, rfl⟩ | ⟨stored, left, right, lefts, rights, count, measure,
        hpush, rfl, hleft, hright, -, hroot, hlow, hhigh⟩
      · exact absurd hposition (not_lt_zero _)
      rw [length_append, length_cons] at hbound hposition
      have hcount := hleft.count_eq
      have hcount' := hright.count_eq
      split
      · next hnothing =>
        rw [hpush] at hnothing
        cases hnothing
      · next hnode =>
        rw [hpush] at hnode
        cases hnode
        by_cases hbefore : position < countOf left
        · obtain ⟨updated, hset, hshows, hsame⟩ :=
            ih (heightOf left) (by omega) hleft rfl (hcount ▸ hbefore) (by omega)
          have hupdated := hshows.count_eq
          rw [length_set] at hupdated
          rw [if_pos hbefore, hset, except_ok_bind, makeNode_eq stored (by omega)]
          refine ⟨_, rfl, ?_, ?_⟩
          · rw [set_append_left _ _ (by omega)]
            exact shows_built stored hshows hright (by omega) (by omega)
          · rw [heightOf_built]
            omega
        rw [if_neg hbefore]
        by_cases hafter : position > countOf left
        · obtain ⟨updated, hset, hshows, hsame⟩ :=
            ih (heightOf right) (by omega) hright rfl
              (show position - countOf left - 1 < rights.length by omega) (by omega)
          have hupdated := hshows.count_eq
          rw [length_set] at hupdated
          rw [if_pos hafter, hset, except_ok_bind, makeNode_eq stored (by omega)]
          refine ⟨_, rfl, ?_, ?_⟩
          · obtain ⟨extra, hextra⟩ : ∃ extra, position - lefts.length = extra + 1 :=
              ⟨position - lefts.length - 1, by omega⟩
            rw [set_append_right _ _ (by omega), hextra, set_cons_succ,
              show extra = position - countOf left - 1 by omega]
            exact shows_built stored hleft hshows (by omega) (by omega)
          · rw [heightOf_built]
            omega
        · rw [if_neg hafter, makeNode_eq value (by omega)]
          refine ⟨_, rfl, ?_, ?_⟩
          · rw [set_append_right _ _ (by omega), show position - lefts.length = 0 by omega,
              set_cons_zero]
            exact shows_built value hleft hright (by omega) (by omega)
          · rw [heightOf_built]
            omega

theorem extractMinimum_spec (height : Nat) {first : element}
    (h : Shows algebra root (first :: values))
    (hheight : heightOf root = height) (hbound : values.length + 1 ≤ maxBound) :
    ∃ remainder, extractMinimum algebra root = .ok (first, remainder) ∧
      Shows algebra remainder values ∧ heightOf remainder ≤ heightOf root ∧
      heightOf root ≤ heightOf remainder + 1 := by
  induction height using Nat.strongRecOn generalizing root values with
  | ind height ih =>
      rw [extractMinimum.eq_def]
      rcases h.push_cases with ⟨-, hnil⟩ | ⟨stored, left, right, lefts, rights, count, measure,
        hpush, hvalues, hleft, hright, -, hroot, hlow, hhigh⟩
      · cases hnil
      split
      · next hnothing =>
        rw [hpush] at hnothing
        cases hnothing
      · next hnode =>
        rw [hpush] at hnode
        cases hnode
        rw [← hleft.contents_eq] at hvalues
        cases hvalues
        have hzero : heightOf (.nothing : Node element measureValue tag) = 0 := rfl
        exact ⟨right, rfl, hright, by omega, by omega⟩
      · next hnode =>
        rw [hpush] at hnode
        cases hnode
        cases lefts with
        | nil => cases hleft.eq_nothing
        | cons least lefts =>
            rw [cons_append, List.cons.injEq] at hvalues
            obtain ⟨rfl, rfl⟩ := hvalues
            rw [length_append, length_cons] at hbound
            obtain ⟨remainder, hextract, hshows, hmax, hmin⟩ := ih _ (by omega) hleft rfl (by omega)
            obtain ⟨hmake, balanced, hbalance, hbalanced, hlow', hhigh', hexact⟩ :=
              @rebuild_spec _ _ _ algebra remainder right stored _ _ _ hshows hright (by omega)
                (by omega) (by omega)
            rw [hextract, except_ok_bind]
            dsimp only
            rw [hmake, except_ok_bind, hbalance, except_ok_bind]
            exact ⟨balanced, rfl, hbalanced, by omega, by omega⟩

theorem deleteCore_spec (height : Nat) (h : Shows algebra root values)
    (hheight : heightOf root = height) (hposition : position < values.length)
    (hbound : values.length ≤ maxBound) :
    Shrinks algebra root (values.eraseIdx position) (deleteCore algebra root position) := by
  induction height using Nat.strongRecOn generalizing root values position with
  | ind height ih =>
      rw [deleteCore.eq_def]
      rcases h.push_cases with ⟨rfl, rfl⟩ | ⟨stored, left, right, lefts, rights, count, measure,
        hpush, rfl, hleft, hright, -, hroot, hlow, hhigh⟩
      · exact absurd hposition (not_lt_zero _)
      rw [length_append, length_cons] at hbound hposition
      have hcount := hleft.count_eq
      split
      · next hnothing =>
        rw [hpush] at hnothing
        cases hnothing
      · next hnode =>
        rw [hpush] at hnode
        cases hnode
        by_cases hbefore : position < countOf left
        · obtain ⟨shrunk, hdelete, hshrunk, hmax, hmin⟩ :=
            ih (heightOf left) (by omega) hleft rfl (hcount ▸ hbefore) (by omega)
          obtain ⟨hmake, balanced, hbalance, hshows, hlow', hhigh', hexact⟩ :=
            @rebuild_spec _ _ _ algebra shrunk right stored _ _ _ hshrunk hright (by omega)
              (by omega) (by rw [length_eraseIdx_of_lt (by omega)]; omega)
          rw [if_pos hbefore, hdelete, except_ok_bind, hmake, except_ok_bind, hbalance]
          refine ⟨balanced, rfl, ?_, by omega, by omega⟩
          rw [eraseIdx_append_of_lt_length (by omega)]
          exact hshows
        rw [if_neg hbefore]
        by_cases hafter : position > countOf left
        · obtain ⟨shrunk, hdelete, hshrunk, hmax, hmin⟩ :=
            ih (heightOf right) (by omega) hright rfl
              (show position - countOf left - 1 < rights.length by omega) (by omega)
          obtain ⟨hmake, balanced, hbalance, hshows, hlow', hhigh', hexact⟩ :=
            @rebuild_spec _ _ _ algebra left shrunk stored _ _ _ hleft hshrunk (by omega)
              (by omega) (by rw [length_eraseIdx_of_lt (by omega)]; omega)
          rw [if_pos hafter, hdelete, except_ok_bind, hmake, except_ok_bind, hbalance]
          refine ⟨balanced, rfl, ?_, by omega, by omega⟩
          obtain ⟨extra, hextra⟩ : ∃ extra, position - lefts.length = extra + 1 :=
            ⟨position - lefts.length - 1, by omega⟩
          rw [eraseIdx_append_of_length_le (by omega), hextra, eraseIdx_cons_succ,
            show extra = position - countOf left - 1 by omega]
          exact hshows
        rw [if_neg hafter, eraseIdx_append_of_length_le (by omega),
          show position - lefts.length = 0 by omega, eraseIdx_cons_zero]
        have hzero : heightOf (.nothing : Node element measureValue tag) = 0 := rfl
        split
        · next =>
          have hlefts := (heightOf_eq_zero hleft).mp rfl
          rw [hlefts]
          exact ⟨right, rfl, hright, by omega, by omega⟩
        · next =>
          have hrights := (heightOf_eq_zero hright).mp rfl
          rw [hrights, append_nil]
          exact ⟨left, rfl, hleft, by omega, by omega⟩
        · next hleftNode hrightNode =>
          cases rights with
          | nil =>
              obtain rfl := hright.eq_nothing
              exact (hrightNode hpush rfl HEq.rfl).elim
          | cons successor rights =>
              rw [length_cons] at hbound
              obtain ⟨remainder, hextract, hremainder, hmax, hmin⟩ :=
                extractMinimum_spec (heightOf right) hright rfl (by omega)
              obtain ⟨hmake, balanced, hbalance, hshows, hlow', hhigh', hexact⟩ :=
                @rebuild_spec _ _ _ algebra left remainder successor _ _ _ hleft hremainder
                  (by omega) (by omega) (by omega)
              rw [hextract, except_ok_bind]
              dsimp only
              rw [hmake, except_ok_bind, hbalance]
              exact ⟨balanced, rfl, hshows, by omega, by omega⟩

theorem joinConcatenated_spec (hleft : Shows algebra left lefts)
    (hright : Shows algebra right rights)
    (hbound : lefts.length + rights.length ≤ maxBound) :
    ∃ joined, joinConcatenated algebra left right = .ok joined ∧
      Shows algebra joined (lefts ++ rights) := by
  unfold joinConcatenated
  split
  · next =>
    rw [(heightOf_eq_zero hleft).mp rfl]
    exact ⟨right, rfl, hright⟩
  · next =>
    rw [(heightOf_eq_zero hright).mp rfl, append_nil]
    exact ⟨left, rfl, hleft⟩
  · next hleftNode hrightNode =>
    cases rights with
    | nil => exact absurd hright.eq_nothing hrightNode
    | cons pivot rights =>
        rw [length_cons] at hbound
        obtain ⟨remainder, hextract, hremainder, -, -⟩ :=
          extractMinimum_spec (heightOf right) hright rfl (by omega)
        obtain ⟨joined, hjoin, hshows, -, -⟩ :=
          @join_spec _ _ _ algebra left remainder pivot _ _ _ _ hleft hremainder rfl (by omega)
        rw [hextract, except_ok_bind]
        exact ⟨joined, hjoin, hshows⟩

theorem splitCore_spec (height : Nat) (h : Shows algebra root values)
    (hheight : heightOf root = height) (hposition : position ≤ values.length)
    (hbound : values.length ≤ maxBound) :
    ∃ front back, splitCore algebra root position = .ok (front, back) ∧
      Shows algebra front (values.take position) ∧ Shows algebra back (values.drop position) := by
  induction height using Nat.strongRecOn generalizing root values position with
  | ind height ih =>
      rw [splitCore.eq_def]
      split
      · next =>
        rw [(heightOf_eq_zero h).mp rfl, take_nil, drop_nil]
        exact ⟨_, _, rfl, shows_nothing, shows_nothing⟩
      · next hnode =>
        have hrootCount := h.count_eq
        by_cases hzero : position = 0
        · rw [if_pos hzero, hzero]
          exact ⟨_, _, rfl, shows_nothing, h⟩
        rw [if_neg hzero]
        by_cases hall : position = countOf root
        · rw [if_pos hall, take_of_length_le (by omega), drop_of_length_le (by omega)]
          exact ⟨_, _, rfl, h, shows_nothing⟩
        rw [if_neg hall]
        rcases h.push_cases with ⟨rfl, -⟩ | ⟨stored, left, right, lefts, rights, count, measure,
          hpush, rfl, hleft, hright, -, hroot, hlow, hhigh⟩
        · exact absurd rfl hnode
        rw [length_append, length_cons] at hbound hposition
        have hcount := hleft.count_eq
        split
        · next hnothing =>
          rw [hpush] at hnothing
          cases hnothing
        · next hopened =>
          rw [hpush] at hopened
          cases hopened
          by_cases hinside : position ≤ countOf left
          · obtain ⟨front, middle, hsplit, hfront, hmiddle⟩ :=
              ih (heightOf left) (by omega) hleft rfl (hcount ▸ hinside) (by omega)
            obtain ⟨back, hjoin, hback, -, -⟩ :=
              @join_spec _ _ _ algebra middle right stored _ _ _ _ hmiddle hright rfl
                (by rw [length_drop]; omega)
            rw [if_pos hinside, hsplit, except_ok_bind]
            dsimp only
            rw [hjoin, except_ok_bind, take_within (by omega), drop_within (by omega)]
            exact ⟨front, back, rfl, hfront, hback⟩
          · obtain ⟨middle, back, hsplit, hmiddle, hback⟩ :=
              ih (heightOf right) (by omega) hright rfl
                (show position - countOf left - 1 ≤ rights.length by omega) (by omega)
            obtain ⟨front, hjoin, hfront, -, -⟩ :=
              @join_spec _ _ _ algebra left middle stored _ _ _ _ hleft hmiddle rfl
                (by rw [length_take]; omega)
            rw [if_neg hinside, hsplit, except_ok_bind]
            dsimp only
            rw [hjoin, except_ok_bind, take_beyond (by omega), drop_beyond (by omega), ← hcount]
            exact ⟨front, back, rfl, hfront, hback⟩

end Durable7.FingerTree.RangeUpdateSequence
