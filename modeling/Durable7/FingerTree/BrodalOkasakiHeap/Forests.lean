import Durable7.FingerTree.BrodalOkasakiHeap.Operations

/-!
# Links, melds and splits of skew-binomial forests

Every operation on sound forests succeeds, keeps its elements, and leaves a forest of the
shape the next one expects.
-/

namespace Durable7.FingerTree.BrodalOkasakiHeap

open Foundation List Nat

variable {α : Type} {le : α → α → Bool} [preorder : TotalPreorder le]

theorem le_of_not_le {first second : α} (h : ¬ le first second = true) : le second first = true :=
  (preorder.total first second).resolve_left h

theorem skewLink_spec {zero first second : Tree α} (hzero : zero.rank = 0)
    (hranks : first.rank = second.rank) (hzeroSound : Sound le zero) (hfirst : Sound le first)
    (hsecond : Sound le second) :
    ∃ linked, skewLink le zero first second = .ok linked ∧ Sound le linked ∧
      linked.rank = first.rank + 1 ∧ linked.bag = zero.bag + (first.bag + second.bag) := by
  rw [skewLink, if_neg (by omega)]
  by_cases hfirstWins : (le first.value zero.value && le first.value second.value) = true
  · rw [if_pos hfirstWins]
    obtain ⟨hbelowZero, hbelowSecond⟩ := Bool.and_eq_true_iff.mp hfirstWins
    obtain ⟨embedded, hfused, hembedded⟩ := hfirst.fused
    refine ⟨_, rfl, .tree (.skewZero hzero hranks.symm hfused) hembedded ?_ ?_, rfl, ?_⟩
    · rw [forall_mem_cons, forall_mem_cons]
      exact ⟨hbelowZero, hbelowSecond, hfirst.order⟩
    · rw [forall_mem_cons, forall_mem_cons]
      exact ⟨hzeroSound, hsecond, hfirst.children⟩
    · rw [bag_tree, forestBag_cons, forestBag_cons, bag_eq first]
      abel
  rw [if_neg hfirstWins]
  by_cases hsecondWins : (le second.value zero.value && le second.value first.value) = true
  · rw [if_pos hsecondWins]
    obtain ⟨hbelowZero, hbelowFirst⟩ := Bool.and_eq_true_iff.mp hsecondWins
    obtain ⟨embedded, hfused, hembedded⟩ := hsecond.fused
    refine ⟨_, rfl, .tree (.skewZero hzero hranks hfused) hembedded ?_ ?_, ?_, ?_⟩
    · rw [forall_mem_cons, forall_mem_cons]
      exact ⟨hbelowZero, hbelowFirst, hsecond.order⟩
    · rw [forall_mem_cons, forall_mem_cons]
      exact ⟨hzeroSound, hfirst, hsecond.children⟩
    · rw [hranks]
      rfl
    · rw [bag_tree, forestBag_cons, forestBag_cons, bag_eq second]
      abel
  rw [if_neg hsecondWins]
  rw [Bool.and_eq_true] at hfirstWins hsecondWins
  have hbelowFirst : le zero.value first.value = true := by
    apply le_of_not_le
    intro hle
    have hreturn := le_of_not_le fun hsecond => hfirstWins ⟨hle, hsecond⟩
    exact hsecondWins ⟨preorder.trans hreturn hle, hreturn⟩
  have hbelowSecond : le zero.value second.value = true := by
    apply le_of_not_le
    intro hle
    have hreturn := le_of_not_le fun hfirst => hsecondWins ⟨hle, hfirst⟩
    exact hfirstWins ⟨preorder.trans hreturn hle, hreturn⟩
  refine ⟨_, rfl, .tree (.skewPair rfl hranks.symm) (hzeroSound.skewForest hzero) ?_ ?_, rfl, ?_⟩
  · rw [forall_mem_cons, forall_mem_cons]
    exact ⟨hbelowFirst, hbelowSecond, hzeroSound.order⟩
  · rw [forall_mem_cons, forall_mem_cons]
    exact ⟨hfirst, hsecond, hzeroSound.children⟩
  · rw [bag_tree, forestBag_cons, forestBag_cons, bag_eq zero]
    abel

theorem link_spec {first second : Tree α} (hranks : first.rank = second.rank)
    (hfirst : Sound le first) (hsecond : Sound le second) :
    ∃ linked, link le first second = .ok linked ∧ Sound le linked ∧
      linked.rank = first.rank + 1 ∧ linked.bag = first.bag + second.bag := by
  rw [link, if_neg (by omega)]
  by_cases hle : le first.value second.value = true
  · rw [if_pos hle]
    obtain ⟨embedded, hfused, hembedded⟩ := hfirst.fused
    refine ⟨_, rfl, .tree (.link hranks.symm hfused) hembedded ?_ ?_, rfl, ?_⟩
    · exact forall_mem_cons.mpr ⟨hle, hfirst.order⟩
    · exact allSound_cons.mpr ⟨hsecond, hfirst.children⟩
    · rw [bag_tree, forestBag_cons, bag_eq first]
      abel
  · rw [if_neg hle]
    obtain ⟨embedded, hfused, hembedded⟩ := hsecond.fused
    refine ⟨_, rfl, .tree (.link hranks hfused) hembedded ?_ ?_, ?_, ?_⟩
    · exact forall_mem_cons.mpr ⟨le_of_not_le hle, hsecond.order⟩
    · exact allSound_cons.mpr ⟨hfirst, hsecond.children⟩
    · rw [hranks]
      rfl
    · rw [bag_tree, forestBag_cons, bag_eq second]
      abel

variable {forest : List (Tree α)} {tree : Tree α}

theorem skewInsert_spec (hzero : tree.rank = 0) (htree : Sound le tree)
    (hforest : SkewForest forest) (hsound : AllSound le forest) :
    ∃ inserted, skewInsert le tree forest = .ok inserted ∧ SkewForest inserted ∧
      AllSound le inserted ∧ forestBag inserted = tree.bag + forestBag forest := by
  have hplain : Ascending forest → SkewForest (tree :: forest) := by
    intro hascending
    refine ⟨pairwise_cons.mpr ⟨fun other _ => ?_, hforest.1⟩, hascending⟩
    rw [hzero]
    exact zero_le _
  unfold skewInsert
  split
  · next first second rest =>
    obtain ⟨hnondecreasing, hascending⟩ := hforest
    obtain ⟨hfirst, hsecond, hrest⟩ := (allSound_cons.mp hsound).imp_right allSound_cons.mp
    split
    · next hranks =>
      obtain ⟨linked, hok, hlinked, hrank, hbag⟩ := skewLink_spec hzero hranks htree hfirst hsecond
      rw [hok]
      refine ⟨linked :: rest, rfl, ⟨pairwise_cons.mpr ⟨?_, ?_⟩, ?_⟩, ?_, ?_⟩
      · intro other hother
        have := (pairwise_cons.mp hascending).1 other hother
        omega
      · exact (Ascending.nondecreasing hascending).tail
      · exact (pairwise_cons.mp hascending).2
      · exact allSound_cons.mpr ⟨hlinked, hrest⟩
      · rw [forestBag_cons, forestBag_cons, forestBag_cons, hbag]
        abel
    · next hranks =>
      refine ⟨_, rfl, hplain ?_, allSound_cons.mpr ⟨htree, hsound⟩, forestBag_cons _ _⟩
      refine pairwise_cons.mpr ⟨?_, hascending⟩
      intro other hother
      have hfirst := (pairwise_cons.mp hnondecreasing).1 second mem_cons_self
      rcases mem_cons.mp hother with rfl | hmem
      · omega
      · have := (pairwise_cons.mp hascending).1 other hmem
        omega
  · next hshort =>
    refine ⟨_, rfl, hplain ?_, allSound_cons.mpr ⟨htree, hsound⟩, forestBag_cons _ _⟩
    match forest, hshort with
    | [], _ => exact List.Pairwise.nil
    | [first], _ => exact pairwise_singleton _ _
    | first :: second :: rest, hshort => exact absurd rfl (hshort first second rest)

theorem getMinimum_spec (hne : forest ≠ []) :
    ∃ smallest remainder, getMinimum le forest = .ok (smallest, remainder) ∧
      smallest ∈ forest ∧ remainder.Sublist forest ∧
      forestBag forest = smallest.bag + forestBag remainder ∧
      ∀ tree ∈ forest, le smallest.value tree.value = true := by
  induction forest with
  | nil => exact absurd rfl hne
  | cons tree forest ih =>
      have hrefl : le tree.value tree.value = true := (preorder.total _ _).elim id id
      cases forest with
      | nil =>
          refine ⟨tree, [], rfl, mem_cons_self, nil_sublist _, forestBag_cons _ _, ?_⟩
          exact forall_mem_singleton.mpr hrefl
      | cons next rest =>
          obtain ⟨smallest, remainder, hok, hmem, hsublist, hbag, hle⟩ := ih (cons_ne_nil _ _)
          rw [getMinimum, hok, except_ok_bind]
          dsimp only
          split
          · next hwins =>
            refine ⟨_, _, rfl, mem_cons_self, sublist_cons_self _ _, forestBag_cons _ _, ?_⟩
            refine forall_mem_cons.mpr ⟨hrefl, fun other hother => ?_⟩
            exact preorder.trans hwins (hle other hother)
          · next hloses =>
            refine ⟨_, _, rfl, mem_cons_of_mem _ hmem, hsublist.cons_cons _, ?_, ?_⟩
            · rw [forestBag_cons tree, forestBag_cons tree, hbag]
              abel
            · exact forall_mem_cons.mpr ⟨le_of_not_le hloses, hle⟩

/-- The parts of the children of a tree, over what was taken apart before. -/
structure Splits (le : α → α → Bool) (values : Multiset α)
    (parts : List (Tree α) × List (Tree α) × List (Tree α)) : Prop where
  zeros : ∀ tree ∈ parts.1, tree.rank = 0
  trees : Nondecreasing parts.2.1
  embedded : Nondecreasing parts.2.2
  zerosSound : AllSound le parts.1
  treesSound : AllSound le parts.2.1
  embeddedSound : AllSound le parts.2.2
  bag_eq : forestBag parts.1 + (forestBag parts.2.1 + forestBag parts.2.2) = values

omit preorder in
theorem splitForest_spec {rank : Nat} {zeros trees children embedded : List (Tree α)}
    (hfused : Fused rank children embedded) (hembedded : SkewForest embedded)
    (hchildren : AllSound le children) (hzeros : ∀ tree ∈ zeros, tree.rank = 0)
    (hzerosSound : AllSound le zeros) (htrees : Nondecreasing trees)
    (hbound : ∀ tree ∈ trees, rank ≤ tree.rank) (htreesSound : AllSound le trees) :
    ∃ parts, splitForest rank zeros trees children = .ok parts ∧
      Splits le (forestBag zeros + (forestBag trees + forestBag children)) parts := by
  have hadd : ∀ {tree : Tree α} {trees : List (Tree α)} {bound : Nat}, tree.rank ≤ bound →
      (∀ other ∈ trees, bound ≤ other.rank) → Nondecreasing trees →
      Nondecreasing (tree :: trees) := by
    intro tree trees bound hrank hbound htrees
    exact pairwise_cons.mpr ⟨fun other hother => le_trans hrank (hbound other hother), htrees⟩
  induction hfused generalizing zeros trees with
  | zero forest =>
      exact ⟨_, rfl, hzeros, htrees, hembedded.1, hzerosSound, htreesSound, hchildren, rfl⟩
  | @link rank loser children embedded hloser hfused ih =>
      obtain ⟨hloserSound, hchildren⟩ := allSound_cons.mp hchildren
      have htaken := hadd (le_trans (le_of_eq hloser) (le_succ rank)) hbound htrees
      cases rank with
      | zero =>
          obtain rfl := hfused.embedded_of_zero
          cases children with
          | nil =>
              refine ⟨_, rfl, hzeros, htaken, List.Pairwise.nil, hzerosSound,
                allSound_cons.mpr ⟨hloserSound, htreesSound⟩, allSound_nil, ?_⟩
              rw [forestBag_cons, forestBag_cons, forestBag_nil]
              abel
          | cons second rest =>
              obtain ⟨hsecond, hrest⟩ := allSound_cons.mp hchildren
              rw [splitForest]
              split
              · next hzero =>
                refine ⟨_, rfl, forall_mem_cons.mpr ⟨hloser, hzeros⟩,
                  hadd (le_of_eq hzero) (fun _ _ => zero_le _) htrees, hembedded.tail.1,
                  allSound_cons.mpr ⟨hloserSound, hzerosSound⟩,
                  allSound_cons.mpr ⟨hsecond, htreesSound⟩, hrest, ?_⟩
                dsimp only
                simp only [forestBag_cons]
                abel
              · refine ⟨_, rfl, hzeros, htaken, hembedded.1, hzerosSound,
                  allSound_cons.mpr ⟨hloserSound, htreesSound⟩, hchildren, ?_⟩
                dsimp only
                simp only [forestBag_cons]
                abel
      | succ rank =>
          obtain ⟨second, rest, rfl, hsecond⟩ := hfused.ranked
          rw [splitForest, if_neg (by omega), if_neg (by omega)]
          obtain ⟨parts, hok, hparts⟩ := @ih zeros (loser :: trees) hembedded hchildren hzeros
            hzerosSound htaken (forall_mem_cons.mpr ⟨le_of_eq hloser.symm, fun other hother =>
              le_of_succ_le (hbound other hother)⟩)
            (allSound_cons.mpr ⟨hloserSound, htreesSound⟩)
          refine ⟨parts, hok, ?_⟩
          have hsame : forestBag zeros + (forestBag (loser :: trees) + forestBag (second :: rest)) =
              forestBag zeros + (forestBag trees + forestBag (loser :: second :: rest)) := by
            simp only [forestBag_cons]
            abel
          rw [← hsame]
          exact hparts
  | @skewZero rank zero loser children embedded hzero hloser hfused ih =>
      obtain ⟨hzeroSound, hloserSound, hchildren⟩ :=
        (allSound_cons.mp hchildren).imp_right allSound_cons.mp
      have htaken := hadd (le_trans (le_of_eq hloser) (le_succ rank)) hbound htrees
      cases rank with
      | zero =>
          rw [splitForest, if_pos hloser]
          obtain rfl := hfused.embedded_of_zero
          refine ⟨_, rfl, forall_mem_cons.mpr ⟨hzero, hzeros⟩, htaken, hembedded.1,
            allSound_cons.mpr ⟨hzeroSound, hzerosSound⟩,
            allSound_cons.mpr ⟨hloserSound, htreesSound⟩, hchildren, ?_⟩
          dsimp only
          simp only [forestBag_cons]
          abel
      | succ rank =>
          rw [splitForest, if_neg (by omega), if_pos hzero]
          obtain ⟨parts, hok, hparts⟩ := @ih (zero :: zeros) (loser :: trees) hembedded hchildren
            (forall_mem_cons.mpr ⟨hzero, hzeros⟩)
            (allSound_cons.mpr ⟨hzeroSound, hzerosSound⟩) htaken
            (forall_mem_cons.mpr ⟨le_of_eq hloser.symm, fun other hother =>
              le_of_succ_le (hbound other hother)⟩)
            (allSound_cons.mpr ⟨hloserSound, htreesSound⟩)
          refine ⟨parts, hok, ?_⟩
          have hsame : forestBag (zero :: zeros) +
              (forestBag (loser :: trees) + forestBag children) =
              forestBag zeros + (forestBag trees + forestBag (zero :: loser :: children)) := by
            simp only [forestBag_cons]
            abel
          rw [← hsame]
          exact hparts
  | @skewPair rank first second embedded hfirst hsecond =>
      obtain ⟨hfirstSound, hsecondSound, hrest⟩ :=
        (allSound_cons.mp hchildren).imp_right allSound_cons.mp
      have htaken := hadd (le_trans (le_of_eq hsecond) (le_succ rank)) hbound htrees
      cases rank with
      | zero =>
          rw [splitForest, if_pos hsecond]
          refine ⟨_, rfl, forall_mem_cons.mpr ⟨hfirst, hzeros⟩, htaken, hembedded.1,
            allSound_cons.mpr ⟨hfirstSound, hzerosSound⟩,
            allSound_cons.mpr ⟨hsecondSound, htreesSound⟩, hrest, ?_⟩
          dsimp only
          simp only [forestBag_cons]
          abel
      | succ rank =>
          rw [splitForest, if_pos (hfirst.trans hsecond.symm)]
          refine ⟨_, rfl, hzeros, ?_, hembedded.1, hzerosSound,
            allSound_cons.mpr ⟨hfirstSound, allSound_cons.mpr ⟨hsecondSound, htreesSound⟩⟩, hrest,
            ?_⟩
          · refine @hadd first (second :: trees) (rank + 1) (le_of_eq hfirst) ?_ htaken
            exact forall_mem_cons.mpr ⟨le_of_eq hsecond.symm, fun other hother =>
              le_of_succ_le (hbound other hother)⟩
          · dsimp only
            simp only [forestBag_cons]
            abel

/-! ## Melds -/

/-- A sound forest of distinct ranks from a bound on. -/
structure Unique (le : α → α → Bool) (bound : Nat) (values : Multiset α) (forest : List (Tree α)) :
    Prop where
  ascending : Ascending forest
  bounded : ∀ tree ∈ forest, bound ≤ tree.rank
  sound : AllSound le forest
  bag_eq : forestBag forest = values

omit preorder in
theorem unique_nil (bound : Nat) : Unique le bound 0 [] :=
  ⟨List.Pairwise.nil, forall_mem_nil _, allSound_nil, rfl⟩

variable {bound : Nat} {values : Multiset α}

omit preorder in
theorem Unique.cons (h : Unique le (tree.rank + 1) values forest) (htree : Sound le tree)
    (hbound : bound ≤ tree.rank) :
    Unique le bound (tree.bag + values) (tree :: forest) where
  ascending := pairwise_cons.mpr ⟨h.bounded, h.ascending⟩
  bounded := forall_mem_cons.mpr ⟨hbound, fun other hother => by
    have := h.bounded other hother
    omega⟩
  sound := allSound_cons.mpr ⟨htree, h.sound⟩
  bag_eq := by rw [forestBag_cons, h.bag_eq]

omit preorder in
theorem Unique.tail (h : Unique le bound values (tree :: forest)) :
    Sound le tree ∧ bound ≤ tree.rank ∧ Unique le (tree.rank + 1) (forestBag forest) forest := by
  obtain ⟨hahead, hascending⟩ := pairwise_cons.mp h.ascending
  obtain ⟨htree, hsound⟩ := allSound_cons.mp h.sound
  exact ⟨htree, h.bounded tree mem_cons_self, hascending, hahead, hsound, rfl⟩

theorem insertRanked_spec (h : Unique le tree.rank values forest) (htree : Sound le tree) :
    ∃ inserted, insertRanked le tree forest = .ok inserted ∧
      Unique le tree.rank (tree.bag + values) inserted := by
  induction forest generalizing tree values with
  | nil =>
      refine ⟨[tree], rfl, ?_⟩
      rw [← h.bag_eq]
      exact (unique_nil _).cons htree (le_refl _)
  | cons first rest ih =>
      obtain ⟨hfirst, hbound, hrest⟩ := h.tail
      have hvalues := h.bag_eq
      rw [forestBag_cons] at hvalues
      rw [insertRanked]
      by_cases hbelow : tree.rank < first.rank
      · rw [if_pos hbelow]
        refine ⟨_, rfl, Unique.cons ⟨h.ascending, ?_, h.sound, h.bag_eq⟩ htree (le_refl _)⟩
        refine forall_mem_cons.mpr ⟨hbelow, fun other hother => ?_⟩
        have := hrest.bounded other hother
        omega
      · have hsame : tree.rank = first.rank := by omega
        obtain ⟨linked, hok, hlinked, hrank, hbag⟩ := link_spec hsame htree hfirst
        rw [if_neg hbelow, if_pos hsame, hok, except_ok_bind]
        rw [← hsame, ← hrank] at hrest
        obtain ⟨inserted, hinserted, hunique⟩ := ih hrest hlinked
        refine ⟨inserted, hinserted, hunique.ascending, fun other hother => ?_, hunique.sound, ?_⟩
        · have := hunique.bounded other hother
          omega
        · rw [hunique.bag_eq, hbag, ← hvalues]
          abel

theorem uniquify_spec (hforest : Nondecreasing forest) (hsound : AllSound le forest)
    (hbound : ∀ tree ∈ forest, bound ≤ tree.rank) :
    ∃ unique, uniquify le forest = .ok unique ∧ Unique le bound (forestBag forest) unique := by
  induction forest generalizing bound with
  | nil => exact ⟨[], rfl, unique_nil bound⟩
  | cons tree forest ih =>
      obtain ⟨hahead, hforest⟩ := pairwise_cons.mp hforest
      obtain ⟨htree, hsound⟩ := allSound_cons.mp hsound
      obtain ⟨unique, hok, hunique⟩ := ih hforest hsound hahead
      obtain ⟨inserted, hinserted, hresult⟩ := insertRanked_spec hunique htree
      rw [uniquify, hok, except_ok_bind, forestBag_cons]
      refine ⟨inserted, hinserted, hresult.ascending, fun other hother => ?_, hresult.sound,
        hresult.bag_eq⟩
      exact le_trans (hbound tree mem_cons_self) (hresult.bounded other hother)

theorem unionUnique_spec {left right : List (Tree α)} {lefts rights : Multiset α}
    (hleft : Unique le bound lefts left) (hright : Unique le bound rights right) :
    ∃ union, unionUnique le left right = .ok union ∧ Unique le bound (lefts + rights) union := by
  induction hlength : left.length + right.length using Nat.strongRecOn
    generalizing left right bound lefts rights with
  | ind length ih =>
      rw [unionUnique.eq_def]
      split
      · next =>
        refine ⟨right, rfl, ?_⟩
        rw [← hleft.bag_eq, forestBag_nil, zero_add]
        exact hright
      · next =>
        refine ⟨left, rfl, ?_⟩
        rw [← hright.bag_eq, forestBag_nil, add_zero]
        exact hleft
      · next first leftRest second rightRest =>
        obtain ⟨hfirst, hfirstBound, hleftRest⟩ := hleft.tail
        obtain ⟨hsecond, hsecondBound, hrightRest⟩ := hright.tail
        have hlefts := hleft.bag_eq
        have hrights := hright.bag_eq
        rw [forestBag_cons] at hlefts hrights
        rw [length_cons, length_cons] at hlength
        by_cases hbelow : first.rank < second.rank
        · have hraised : Unique le (first.rank + 1) rights (second :: rightRest) :=
            ⟨hright.ascending, forall_mem_cons.mpr ⟨hbelow, fun other hother => by
              have := hrightRest.bounded other hother
              omega⟩, hright.sound, hright.bag_eq⟩
          obtain ⟨union, hok, hunion⟩ := ih _ (by rw [length_cons]; omega) hleftRest hraised rfl
          rw [if_pos hbelow, hok, except_ok_bind]
          refine ⟨_, rfl, ?_⟩
          rw [← hlefts, add_assoc]
          exact hunion.cons hfirst hfirstBound
        rw [if_neg hbelow]
        by_cases habove : first.rank > second.rank
        · have hraised : Unique le (second.rank + 1) lefts (first :: leftRest) :=
            ⟨hleft.ascending, forall_mem_cons.mpr ⟨habove, fun other hother => by
              have := hleftRest.bounded other hother
              omega⟩, hleft.sound, hleft.bag_eq⟩
          obtain ⟨union, hok, hunion⟩ := ih _ (by rw [length_cons]; omega) hraised hrightRest rfl
          rw [if_pos habove, hok, except_ok_bind]
          refine ⟨_, rfl, ?_⟩
          rw [← hrights, add_left_comm]
          exact hunion.cons hsecond hsecondBound
        rw [if_neg habove]
        have hsame : first.rank = second.rank := by omega
        obtain ⟨linked, hlink, hlinked, hrank, hbag⟩ := link_spec hsame hfirst hsecond
        rw [← hsame] at hrightRest
        obtain ⟨union, hok, hunion⟩ := ih _ (by omega) hleftRest hrightRest rfl
        rw [← hrank] at hunion
        obtain ⟨inserted, hinserted, hresult⟩ := insertRanked_spec hunion hlinked
        rw [hlink, except_ok_bind, hok, except_ok_bind]
        refine ⟨inserted, hinserted, hresult.ascending, fun other hother => ?_, hresult.sound, ?_⟩
        · have := hresult.bounded other hother
          omega
        · rw [hresult.bag_eq, hbag, ← hlefts, ← hrights]
          abel

theorem skewMeld_spec {left right : List (Tree α)} (hleft : Nondecreasing left)
    (hright : Nondecreasing right) (hleftSound : AllSound le left)
    (hrightSound : AllSound le right) :
    ∃ melded, skewMeld le left right = .ok melded ∧
      Unique le 0 (forestBag left + forestBag right) melded := by
  obtain ⟨uniqueLeft, hleftOk, hleftUnique⟩ := uniquify_spec hleft hleftSound fun _ _ => zero_le _
  obtain ⟨uniqueRight, hrightOk, hrightUnique⟩ :=
    uniquify_spec hright hrightSound fun _ _ => zero_le _
  rw [skewMeld, hleftOk, except_ok_bind, hrightOk, except_ok_bind]
  exact unionUnique_spec hleftUnique hrightUnique

theorem restore_spec {zeros merged : List (Tree α)} (hzeros : ∀ tree ∈ zeros, tree.rank = 0)
    (hzerosSound : AllSound le zeros) (hmerged : SkewForest merged) (hsound : AllSound le merged) :
    ∃ restored, zeros.foldlM (fun forest zero => skewInsert le zero forest) merged =
        .ok restored ∧ SkewForest restored ∧ AllSound le restored ∧
      forestBag restored = forestBag zeros + forestBag merged := by
  induction zeros generalizing merged with
  | nil => exact ⟨merged, rfl, hmerged, hsound, (zero_add _).symm⟩
  | cons zero zeros ih =>
      obtain ⟨hzero, hzeros⟩ := forall_mem_cons.mp hzeros
      obtain ⟨hzeroSound, hzerosSound⟩ := allSound_cons.mp hzerosSound
      obtain ⟨inserted, hok, hinserted, hinsertedSound, hbag⟩ :=
        skewInsert_spec hzero hzeroSound hmerged hsound
      obtain ⟨restored, hrestored, hskew, hrestoredSound, hrestoredBag⟩ :=
        ih hzeros hzerosSound hinserted hinsertedSound
      rw [foldlM_cons, hok, except_ok_bind]
      refine ⟨restored, hrestored, hskew, hrestoredSound, ?_⟩
      rw [hrestoredBag, hbag, forestBag_cons]
      abel

theorem promote_spec {children : List (Tree α)} (hne : children ≠ []) (hskew : SkewForest children)
    (hsound : AllSound le children) :
    ∃ root, promote le children = .ok root ∧ Sound le root ∧ root.rank = 0 ∧
      root.bag = forestBag children := by
  obtain ⟨smallest, remainder, hminimum, hmem, hsublist, hbag, hle⟩ := @getMinimum_spec _ le _ _ hne
  have hsmallest := hsound smallest hmem
  have hremainder : Nondecreasing remainder := List.Pairwise.sublist hsublist hskew.1
  have hremainderSound : AllSound le remainder := fun tree htree =>
    hsound tree (hsublist.subset htree)
  obtain ⟨embedded, hfused, hembedded⟩ := hsmallest.fused
  obtain ⟨⟨zeros, trees, forest⟩, hsplit, hparts⟩ := @splitForest_spec _ le _ [] [] _ _ hfused
    hembedded hsmallest.children (fun _ h => by cases h) allSound_nil List.Pairwise.nil
    (fun _ h => by cases h) allSound_nil
  obtain ⟨melded, hmelded, hmeldedUnique⟩ :=
    skewMeld_spec hparts.trees hremainder hparts.treesSound hremainderSound
  obtain ⟨merged, hmerged, hmergedUnique⟩ :=
    skewMeld_spec hmeldedUnique.ascending.nondecreasing hparts.embedded hmeldedUnique.sound
      hparts.embeddedSound
  obtain ⟨restored, hrestored, hrestoredSkew, hrestoredSound, hrestoredBag⟩ :=
    @restore_spec _ le _ zeros.reverse merged
      (fun tree htree => hparts.zeros tree (mem_reverse.mp htree))
      (fun tree htree => hparts.zerosSound tree (mem_reverse.mp htree))
      hmergedUnique.ascending.skewForest hmergedUnique.sound
  have hreverse : forestBag zeros.reverse = forestBag zeros := by
    rw [forestBag, map_reverse, sum_reverse]
    rfl
  have hall : forestBag children = {smallest.value} + forestBag restored := by
    have hpartsBag := hparts.bag_eq
    rw [forestBag_nil, zero_add, zero_add] at hpartsBag
    rw [hbag, bag_eq smallest, ← hpartsBag, hrestoredBag, hreverse, hmergedUnique.bag_eq,
      hmeldedUnique.bag_eq]
    abel
  rw [promote, hminimum, except_ok_bind]
  dsimp only
  rw [hsplit, except_ok_bind]
  dsimp only
  rw [hmelded, except_ok_bind, hmerged, except_ok_bind, hrestored, except_ok_bind]
  refine ⟨_, rfl, sound_zero hrestoredSkew hrestoredSound ?_, rfl, ?_⟩
  · intro child hchild
    have hmemBag : child.value ∈ forestBag children := by
      rw [hall, Multiset.mem_add]
      refine .inr (mem_forestBag.mpr ⟨child, hchild, ?_⟩)
      rw [bag_eq, Multiset.mem_add, Multiset.mem_singleton]
      exact .inl rfl
    obtain ⟨tree, htree, hvalue⟩ := mem_forestBag.mp hmemBag
    exact preorder.trans (hle tree htree) ((hsound tree htree).root_le _ hvalue)
  · rw [bag_tree, hall]

end Durable7.FingerTree.BrodalOkasakiHeap
