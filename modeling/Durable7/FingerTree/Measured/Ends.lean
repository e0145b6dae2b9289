import Durable7.FingerTree.Measured.Tree

/-!
# Both ends and concatenation

None of the error calls is reached from a tree with valid caches.
-/

namespace Durable7.FingerTree.Measured

open Foundation List

variable {v α : Type} [Monoid v] [Measured v α]

/-- The outcome is a valid tree with the given elements. -/
def Yields {a : Type} [Measured v a] (layer : Layer v α a)
    (outcome : Except MeasuredError (FingerTree v a)) (values : List a) : Prop :=
  ∃ tree, outcome = .ok tree ∧ Valid layer tree ∧ elements tree = values

section Totals

variable {a : Type} [Measured v a] {layer : Layer v α a} (hsound : layer.Sound)

include hsound

theorem contents_cons {value : a} {tree tree' : FingerTree v a} (hvalue : layer.Cached value)
    (h : elements tree' = value :: elements tree) :
    (foldMeasure (layer.contents tree') : v) =
    measure value * foldMeasure (layer.contents tree) := by
  unfold Layer.contents
  rw [h, flatMap_cons, foldMeasure_append, hsound value hvalue]

theorem contents_snoc {value : a} {tree tree' : FingerTree v a} (hvalue : layer.Cached value)
    (h : elements tree' = elements tree ++ [value]) :
    (foldMeasure (layer.contents tree') : v) =
    foldMeasure (layer.contents tree) * measure value := by
  unfold Layer.contents
  rw [h, flatMap_append, foldMeasure_append, flatMap_singleton, hsound value hvalue]

end Totals

theorem nodeToList_node3 {a : Type} [Measured v a] (first second third : a) :
    nodeToList (node3 first second third : Node v a) = [first, second, third] := rfl

theorem grow_front {a : Type} [Measured v a] {layer : Layer v α a} (hsound : layer.Sound)
    {value : a} (hvalue : layer.Cached value) {total : v} {digit digit' suffixDigit : Digit a}
    {middle : FingerTree v (Node v a)} (hvalid : Valid layer (.deep total digit middle suffixDigit))
    (hdigit : digitToList digit' = value :: digitToList digit) :
    Yields layer (.ok (.deep (measure value * total) digit' middle suffixDigit))
      (value :: elements (.deep total digit middle suffixDigit)) := by
  obtain ⟨htotal, hfront, hmiddle, hback⟩ := valid_deep_iff.mp hvalid
  have hlist : elements (.deep (measure value * total) digit' middle suffixDigit) =
      value :: elements (.deep total digit middle suffixDigit) := by
    rw [elements, elements, hdigit]
    rfl
  have hcache := contents_cons hsound hvalue hlist
  rw [← htotal] at hcache
  refine ⟨_, rfl, valid_deep_iff.mpr ⟨hcache.symm, ?_, hmiddle, hback⟩, hlist⟩
  unfold Layer.Digits
  rw [hdigit, forall_mem_cons]
  exact ⟨hvalue, hfront⟩

theorem grow_back {a : Type} [Measured v a] {layer : Layer v α a} (hsound : layer.Sound)
    {value : a} (hvalue : layer.Cached value) {total : v} {digit digit' prefixDigit : Digit a}
    {middle : FingerTree v (Node v a)} (hvalid : Valid layer (.deep total prefixDigit middle digit))
    (hdigit : digitToList digit' = digitToList digit ++ [value]) :
    Yields layer (.ok (.deep (total * measure value) prefixDigit middle digit'))
      (elements (.deep total prefixDigit middle digit) ++ [value]) := by
  obtain ⟨htotal, hfront, hmiddle, hback⟩ := valid_deep_iff.mp hvalid
  have hlist : elements (.deep (total * measure value) prefixDigit middle digit') =
      elements (.deep total prefixDigit middle digit) ++ [value] := by
    rw [elements, elements, hdigit, append_assoc _ (digitToList digit)]
  have hcache := contents_snoc hsound hvalue hlist
  rw [← htotal] at hcache
  refine ⟨_, rfl, valid_deep_iff.mpr ⟨hcache.symm, hfront, hmiddle, ?_⟩, hlist⟩
  unfold Layer.Digits
  rw [hdigit, forall_mem_append, forall_mem_singleton]
  exact ⟨hback, hvalue⟩

theorem cons_yields {a : Type} [Measured v a] {layer : Layer v α a} (hsound : layer.Sound)
    {value : a} (hvalue : layer.Cached value) :
    ∀ {tree : FingerTree v a}, Valid layer tree →
      Yields layer (cons value tree) (value :: elements tree)
  | .empty, _ => ⟨.single value, rfl, hvalue, rfl⟩
  | .single old, hold =>
      ⟨_, rfl, valid_deep hsound (digits_one.mpr hvalue) trivial (digits_one.mpr hold), rfl⟩
  | .deep total (.one a) middle suffixDigit, hvalid => grow_front hsound hvalue hvalid rfl
  | .deep total (.two a b) middle suffixDigit, hvalid => grow_front hsound hvalue hvalid rfl
  | .deep total (.three a b c) middle suffixDigit, hvalid => grow_front hsound hvalue hvalid rfl
  | .deep total (.four a b c d) middle suffixDigit, hvalid => by
      obtain ⟨htotal, hfront, hmiddle, hback⟩ := valid_deep_iff.mp hvalid
      obtain ⟨ha, hb, hc, hd⟩ := digits_four.mp hfront
      obtain ⟨middle', hcons, hmiddle', helements⟩ :=
        cons_yields nodes_sound (node3_cached hsound hb hc hd) hmiddle
      have hlist : elements (.deep (measure value * total) (.two value a) middle' suffixDigit) =
          value :: elements (.deep total (.four a b c d) middle suffixDigit) := by
        rw [elements, elements, helements, flatMap_cons, nodeToList_node3]
        simp [digitToList]
      have hcache := contents_cons hsound hvalue hlist
      rw [← htotal] at hcache
      refine ⟨_, ?_, valid_deep_iff.mpr ⟨hcache.symm, digits_two.mpr ⟨hvalue, ha⟩, hmiddle',
        hback⟩, hlist⟩
      rw [cons, hcons]
      rfl

theorem snoc_yields {a : Type} [Measured v a] {layer : Layer v α a} (hsound : layer.Sound)
    {value : a} (hvalue : layer.Cached value) :
    ∀ {tree : FingerTree v a}, Valid layer tree →
      Yields layer (snoc tree value) (elements tree ++ [value])
  | .empty, _ => ⟨.single value, rfl, hvalue, rfl⟩
  | .single old, hold =>
      ⟨_, rfl, valid_deep hsound (digits_one.mpr hold) trivial (digits_one.mpr hvalue), rfl⟩
  | .deep total prefixDigit middle (.one a), hvalid => grow_back hsound hvalue hvalid rfl
  | .deep total prefixDigit middle (.two a b), hvalid => grow_back hsound hvalue hvalid rfl
  | .deep total prefixDigit middle (.three a b c), hvalid => grow_back hsound hvalue hvalid rfl
  | .deep total prefixDigit middle (.four a b c d), hvalid => by
      obtain ⟨htotal, hfront, hmiddle, hback⟩ := valid_deep_iff.mp hvalid
      obtain ⟨ha, hb, hc, hd⟩ := digits_four.mp hback
      obtain ⟨middle', hsnoc, hmiddle', helements⟩ :=
        snoc_yields nodes_sound (node3_cached hsound ha hb hc) hmiddle
      have hlist : elements (.deep (total * measure value) prefixDigit middle' (.two d value)) =
          elements (.deep total prefixDigit middle (.four a b c d)) ++ [value] := by
        rw [elements, elements, helements, flatMap_append, flatMap_singleton, nodeToList_node3]
        simp [digitToList]
      have hcache := contents_snoc hsound hvalue hlist
      rw [← htotal] at hcache
      refine ⟨_, ?_, valid_deep_iff.mpr ⟨hcache.symm, hfront, hmiddle',
        digits_two.mpr ⟨hd, hvalue⟩⟩, hlist⟩
      rw [snoc, hsnoc]
      rfl

/-! ## Taking from an end -/

def ViewL.elements {a : Type} : ViewL v a → List a
  | .emptyL => []
  | .consL value rest => value :: Measured.elements rest

def ViewR.elements {a : Type} : ViewR v a → List a
  | .emptyR => []
  | .snocR rest value => Measured.elements rest ++ [value]

def ViewL.Valid {a : Type} [Measured v a] (layer : Layer v α a) : ViewL v a → Prop
  | .emptyL => True
  | .consL value rest => layer.Cached value ∧ Measured.Valid layer rest

def ViewR.Valid {a : Type} [Measured v a] (layer : Layer v α a) : ViewR v a → Prop
  | .emptyR => True
  | .snocR rest value => layer.Cached value ∧ Measured.Valid layer rest

section Borrowing

variable {a : Type} [Measured v a]

theorem elements_digitToTree (digit : Digit a) :
    elements (digitToTree digit : FingerTree v a) = digitToList digit := by
  cases digit <;> rfl

theorem elements_borrowL (view : ViewL v (Node v a)) (suffixDigit : Digit a) :
    elements (borrowL view suffixDigit) =
      view.elements.flatMap nodeToList ++ digitToList suffixDigit := by
  cases view with
  | emptyL => exact elements_digitToTree suffixDigit
  | consL node rest =>
      rw [borrowL, elements_deep, ViewL.elements, flatMap_cons]
      rfl

theorem elements_borrowR (prefixDigit : Digit a) (view : ViewR v (Node v a)) :
    elements (borrowR prefixDigit view) =
      digitToList prefixDigit ++ view.elements.flatMap nodeToList := by
  cases view with
  | emptyR =>
      rw [ViewR.elements, flatMap_nil, append_nil]
      exact elements_digitToTree prefixDigit
  | snocR rest node =>
      rw [borrowR, elements_deep, ViewR.elements, flatMap_append, flatMap_singleton, append_assoc]
      rfl

variable {layer : Layer v α a} (hsound : layer.Sound)

include hsound

theorem digitToTree_valid {digit : Digit a} (h : layer.Digits digit) :
    Valid layer (digitToTree digit : FingerTree v a) := by
  cases digit with
  | one a => exact digits_one.mp h
  | two a b =>
      obtain ⟨ha, hb⟩ := digits_two.mp h
      exact valid_deep hsound (digits_one.mpr ha) trivial (digits_one.mpr hb)
  | three a b c =>
      obtain ⟨ha, hb, hc⟩ := digits_three.mp h
      exact valid_deep hsound (digits_two.mpr ⟨ha, hb⟩) trivial (digits_one.mpr hc)
  | four a b c d =>
      obtain ⟨ha, hb, hc, hd⟩ := digits_four.mp h
      exact valid_deep hsound (digits_two.mpr ⟨ha, hb⟩) trivial (digits_two.mpr ⟨hc, hd⟩)

theorem borrowL_valid {view : ViewL v (Node v a)} {suffixDigit : Digit a}
    (hview : view.Valid layer.nodes) (hback : layer.Digits suffixDigit) :
    Valid layer (borrowL view suffixDigit) := by
  cases view with
  | emptyL => exact digitToTree_valid hsound hback
  | consL node rest => exact valid_deep hsound hview.1.2 hview.2 hback

theorem borrowR_valid {view : ViewR v (Node v a)} {prefixDigit : Digit a}
    (hview : view.Valid layer.nodes) (hfront : layer.Digits prefixDigit) :
    Valid layer (borrowR prefixDigit view) := by
  cases view with
  | emptyR => exact digitToTree_valid hsound hfront
  | snocR rest node => exact valid_deep hsound hfront hview.2 hview.1.2

end Borrowing

theorem elements_viewL {a : Type} [Measured v a] :
    ∀ tree : FingerTree v a, (viewL tree).elements = elements tree
  | .empty => rfl
  | .single value => rfl
  | .deep total (.one a) middle suffixDigit => by
      rw [viewL, ViewL.elements, elements_borrowL, elements_viewL middle]
      rfl
  | .deep total (.two a b) middle suffixDigit => rfl
  | .deep total (.three a b c) middle suffixDigit => rfl
  | .deep total (.four a b c d) middle suffixDigit => rfl

theorem elements_viewR {a : Type} [Measured v a] :
    ∀ tree : FingerTree v a, (viewR tree).elements = elements tree
  | .empty => rfl
  | .single value => rfl
  | .deep total prefixDigit middle (.one a) => by
      rw [viewR, ViewR.elements, elements_borrowR, elements_viewR middle]
      rfl
  | .deep total prefixDigit middle (.two a b) => append_assoc _ [a] [b]
  | .deep total prefixDigit middle (.three a b c) => append_assoc _ [a, b] [c]
  | .deep total prefixDigit middle (.four a b c d) => append_assoc _ [a, b, c] [d]

theorem viewL_valid {a : Type} [Measured v a] {layer : Layer v α a} (hsound : layer.Sound) :
    ∀ {tree : FingerTree v a}, Valid layer tree → (viewL tree).Valid layer
  | .empty, _ => trivial
  | .single value, hvalue => ⟨hvalue, trivial⟩
  | .deep total (.one a) middle suffixDigit, hvalid => by
      obtain ⟨-, hfront, hmiddle, hback⟩ := valid_deep_iff.mp hvalid
      exact ⟨digits_one.mp hfront, borrowL_valid hsound (viewL_valid nodes_sound hmiddle) hback⟩
  | .deep total (.two a b) middle suffixDigit, hvalid => by
      obtain ⟨-, hfront, hmiddle, hback⟩ := valid_deep_iff.mp hvalid
      obtain ⟨ha, hb⟩ := digits_two.mp hfront
      exact ⟨ha, valid_deep hsound (digits_one.mpr hb) hmiddle hback⟩
  | .deep total (.three a b c) middle suffixDigit, hvalid => by
      obtain ⟨-, hfront, hmiddle, hback⟩ := valid_deep_iff.mp hvalid
      obtain ⟨ha, hrest⟩ := digits_three.mp hfront
      exact ⟨ha, valid_deep hsound (digits_two.mpr hrest) hmiddle hback⟩
  | .deep total (.four a b c d) middle suffixDigit, hvalid => by
      obtain ⟨-, hfront, hmiddle, hback⟩ := valid_deep_iff.mp hvalid
      obtain ⟨ha, hrest⟩ := digits_four.mp hfront
      exact ⟨ha, valid_deep hsound (digits_three.mpr hrest) hmiddle hback⟩

theorem viewR_valid {a : Type} [Measured v a] {layer : Layer v α a} (hsound : layer.Sound) :
    ∀ {tree : FingerTree v a}, Valid layer tree → (viewR tree).Valid layer
  | .empty, _ => trivial
  | .single value, hvalue => ⟨hvalue, trivial⟩
  | .deep total prefixDigit middle (.one a), hvalid => by
      obtain ⟨-, hfront, hmiddle, hback⟩ := valid_deep_iff.mp hvalid
      exact ⟨digits_one.mp hback, borrowR_valid hsound (viewR_valid nodes_sound hmiddle) hfront⟩
  | .deep total prefixDigit middle (.two a b), hvalid => by
      obtain ⟨-, hfront, hmiddle, hback⟩ := valid_deep_iff.mp hvalid
      obtain ⟨ha, hb⟩ := digits_two.mp hback
      exact ⟨hb, valid_deep hsound hfront hmiddle (digits_one.mpr ha)⟩
  | .deep total prefixDigit middle (.three a b c), hvalid => by
      obtain ⟨-, hfront, hmiddle, hback⟩ := valid_deep_iff.mp hvalid
      obtain ⟨ha, hb, hc⟩ := digits_three.mp hback
      exact ⟨hc, valid_deep hsound hfront hmiddle (digits_two.mpr ⟨ha, hb⟩)⟩
  | .deep total prefixDigit middle (.four a b c d), hvalid => by
      obtain ⟨-, hfront, hmiddle, hback⟩ := valid_deep_iff.mp hvalid
      obtain ⟨ha, hb, hc, hd⟩ := digits_four.mp hback
      exact ⟨hd, valid_deep hsound hfront hmiddle (digits_three.mpr ⟨ha, hb, hc⟩)⟩

section Enumeration

variable {a : Type} [Measured v a]

theorem head_eq (tree : FingerTree v a) : head tree = (elements tree).head? := by
  rw [head, ← elements_viewL]
  cases viewL tree <;> rfl

theorem last_eq (tree : FingerTree v a) : last tree = (elements tree).getLast? := by
  rw [last, ← elements_viewR]
  cases viewR tree with
  | emptyR => rfl
  | snocR rest value => exact List.getLast?_concat.symm

omit [Monoid v] [Measured v a] in
theorem null_iff (tree : FingerTree v a) : null tree = true ↔ elements tree = [] := by
  cases tree with
  | empty => simp [null, elements]
  | single value => simp [null, elements]
  | deep total prefixDigit middle suffixDigit =>
      cases prefixDigit <;> simp [null, elements, digitToList]

def toList (tree : FingerTree v a) : List a :=
  match _h : viewL tree with
  | .emptyL => []
  | .consL value rest => value :: toList rest
termination_by (elements tree).length
decreasing_by
  rw [← elements_viewL tree, ‹viewL tree = _›]
  exact Nat.lt_succ_self _

theorem toList_eq (tree : FingerTree v a) : toList tree = elements tree := by
  induction tree using toList.induct with
  | case1 tree h =>
      rw [toList.eq_def, ← elements_viewL tree, h]
      rfl
  | case2 tree value rest h ih =>
      rw [toList.eq_def, ← elements_viewL tree, h]
      exact congrArg (List.cons value) ih

end Enumeration

section Lists

variable {a : Type} [Measured v a] {layer : Layer v α a} (hsound : layer.Sound)
  {tree : FingerTree v a} (hvalid : Valid layer tree)

include hsound hvalid

section

variable {values : List a} (hvalues : ∀ value ∈ values, layer.Cached value)
include hvalues

theorem prependList_yields : Yields layer (prependList values tree) (values ++ elements tree) := by
  induction values with
  | nil => exact ⟨tree, rfl, hvalid, rfl⟩
  | cons value values ih =>
      rw [forall_mem_cons] at hvalues
      obtain ⟨rest, hrest, hrestValid, helements⟩ := ih hvalues.2
      obtain ⟨result, hresult, hresultValid, hlist⟩ := cons_yields hsound hvalues.1 hrestValid
      refine ⟨result, ?_, hresultValid, ?_⟩
      · unfold prependList at hrest ⊢
        rw [foldr_cons, hrest]
        exact hresult
      · rw [hlist, helements]
        rfl

theorem appendList_yields : Yields layer (appendList tree values) (elements tree ++ values) := by
  unfold appendList
  induction values generalizing tree with
  | nil => exact ⟨tree, rfl, hvalid, (append_nil _).symm⟩
  | cons value values ih =>
      rw [forall_mem_cons] at hvalues
      obtain ⟨next, hnext, hnextValid, helements⟩ := snoc_yields hsound hvalues.1 hvalid
      have hrest := ih hnextValid hvalues.2
      rw [helements, append_assoc] at hrest
      rw [foldlM_cons, hnext]
      exact hrest

end

end Lists

section Regrouping

variable {a : Type} [Measured v a] {layer : Layer v α a} (hsound : layer.Sound)

include hsound

theorem nodes_spec : ∀ {values : List a}, 2 ≤ values.length →
    (∀ value ∈ values, layer.Cached value) →
    ∃ grouped : List (Node v a), nodes values = .ok grouped ∧
      (∀ node ∈ grouped, layer.nodes.Cached node) ∧ grouped.flatMap nodeToList = values
  | [], hlength, _ => absurd hlength (by simp)
  | [_], hlength, _ => absurd hlength (by simp)
  | [a, b], _, h => by
      simp only [forall_mem_cons] at h
      obtain ⟨ha, hb, -⟩ := h
      exact ⟨_, rfl, by simp [node2_cached hsound ha hb], rfl⟩
  | [a, b, c], _, h => by
      simp only [forall_mem_cons] at h
      obtain ⟨ha, hb, hc, -⟩ := h
      exact ⟨_, rfl, by simp [node3_cached hsound ha hb hc], rfl⟩
  | [a, b, c, d], _, h => by
      simp only [forall_mem_cons] at h
      obtain ⟨ha, hb, hc, hd, -⟩ := h
      exact ⟨_, rfl, by simp [node2_cached hsound ha hb, node2_cached hsound hc hd], rfl⟩
  | [a, b, c, d, e], _, h => by
      simp only [forall_mem_cons] at h
      obtain ⟨ha, hb, hc, hd, he, -⟩ := h
      exact ⟨_, rfl, by simp [node2_cached hsound ha hb, node3_cached hsound hc hd he], rfl⟩
  | [a, b, c, d, e, f], _, h => by
      simp only [forall_mem_cons] at h
      obtain ⟨ha, hb, hc, hd, he, hf, -⟩ := h
      exact ⟨_, rfl, by simp [node3_cached hsound ha hb hc, node3_cached hsound hd he hf], rfl⟩
  | a :: b :: c :: d :: e :: f :: g :: rest, _, h => by
      rw [forall_mem_cons, forall_mem_cons, forall_mem_cons] at h
      obtain ⟨ha, hb, hc, hrest⟩ := h
      have hlength : 2 ≤ (d :: e :: f :: g :: rest).length := by simp
      obtain ⟨grouped, hgrouped, hcached, hflat⟩ := nodes_spec hlength hrest
      refine ⟨node3 a b c :: grouped, ?_, ?_, ?_⟩
      · rw [nodes, hgrouped]
        rfl
        all_goals simp
      · rw [forall_mem_cons]
        exact ⟨node3_cached hsound ha hb hc, hcached⟩
      · rw [flatMap_cons, hflat]
        rfl

end Regrouping

theorem length_digitToList_pos {a : Type} (digit : Digit a) : 1 ≤ (digitToList digit).length := by
  cases digit <;> simp [digitToList]

theorem app3_yields {a : Type} [Measured v a] {layer : Layer v α a} (hsound : layer.Sound)
    {values : List a} (hvalues : ∀ value ∈ values, layer.Cached value) :
    ∀ {left right : FingerTree v a}, Valid layer left → Valid layer right →
      Yields layer (app3 left values right) (elements left ++ values ++ elements right)
  | .empty, right, _, hright => by
      rw [app3]
      exact prependList_yields hsound hright hvalues
  | .single value, .empty, hleft, _ => by
      rw [elements, append_nil]
      exact appendList_yields hsound hleft hvalues
  | .single value, .single other, hleft, hright => by
      obtain ⟨rest, hrest, hvalid, helements⟩ := prependList_yields hsound hright hvalues
      rw [append_assoc, ← helements]
      rw [app3, hrest]
      exact cons_yields hsound hleft hvalid
      all_goals simp
  | .single value, .deep total prefixDigit middle suffixDigit, hleft, hright => by
      obtain ⟨rest, hrest, hvalid, helements⟩ := prependList_yields hsound hright hvalues
      rw [append_assoc, ← helements]
      rw [app3, hrest]
      exact cons_yields hsound hleft hvalid
      all_goals simp
  | .deep total prefixDigit middle suffixDigit, .empty, hleft, _ => by
      rw [elements, append_nil]
      exact appendList_yields hsound hleft hvalues
  | .deep total prefixDigit middle suffixDigit, .single value, hleft, hright => by
      obtain ⟨rest, hrest, hvalid, helements⟩ := appendList_yields hsound hleft hvalues
      rw [← helements, app3, hrest]
      exact snoc_yields hsound hright hvalid
      all_goals simp
  | .deep total prefixDigit middle suffixDigit, .deep total' prefixDigit' middle' suffixDigit',
      hleft, hright => by
      obtain ⟨-, hfront, hmiddle, hback⟩ := valid_deep_iff.mp hleft
      obtain ⟨-, hfront', hmiddle', hback'⟩ := valid_deep_iff.mp hright
      have hloose : ∀ value ∈ digitToList suffixDigit ++ values ++ digitToList prefixDigit',
          layer.Cached value := by
        intro value hvalue
        rw [mem_append, mem_append] at hvalue
        rcases hvalue with (hvalue | hvalue) | hvalue
        · exact hback value hvalue
        · exact hvalues value hvalue
        · exact hfront' value hvalue
      obtain ⟨between, hbetween, hcached, hflat⟩ := nodes_spec hsound (by
        have := length_digitToList_pos suffixDigit
        have := length_digitToList_pos prefixDigit'
        rw [length_append, length_append]
        omega) hloose
      obtain ⟨joined, hjoined, hvalid, helements⟩ :=
        app3_yields nodes_sound hcached hmiddle hmiddle'
      refine ⟨deep prefixDigit joined suffixDigit', ?_, valid_deep hsound hfront hvalid hback', ?_⟩
      · rw [app3, hbetween, Except.bind, hjoined]
        rfl
      · rw [elements_deep, helements, flatMap_append, flatMap_append, hflat, elements, elements]
        simp only [append_assoc]

section Whole

variable {a : Type} [Measured v a] {layer : Layer v α a} (hsound : layer.Sound)

include hsound

theorem append_yields {left right : FingerTree v a} (hleft : Valid layer left)
    (hright : Valid layer right) :
    Yields layer (append left right) (elements left ++ elements right) := by
  have h := app3_yields hsound (fun value hvalue => absurd hvalue not_mem_nil) hleft hright
  rwa [append_nil] at h

theorem fromList_yields {values : List a} (hvalues : ∀ value ∈ values, layer.Cached value) :
    Yields layer (fromList values : Except MeasuredError (FingerTree v a)) values := by
  have hempty : Valid layer (.empty : FingerTree v a) := trivial
  exact appendList_yields hsound hempty hvalues

end Whole

end Durable7.FingerTree.Measured
