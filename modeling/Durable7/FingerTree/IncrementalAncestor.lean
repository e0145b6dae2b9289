import Mathlib.Data.Nat.Log
import Mathlib.Tactic.Ring
import Durable7.Foundation.Outcome

/-!
# An incremental level-ancestor forest

Each node keeps one parent link and one jump link.  A leaf is added below any node that
exists, and a query follows the links to the ancestor at an absolute depth.
-/

namespace Durable7.FingerTree.IncrementalAncestor

open List Nat

variable {α : Type}

inductive Node (α : Type) where
  | bottom
  | labelled (value : α) (parent : Node α) (depth : Int) (skip : Node α) (skipDistance : Int)
  deriving DecidableEq

/-- The source's `Int` has 64 bits and wraps. -/
def wrapped (value : Int) : Int := value.bmod (2 ^ 64)

def nodeDepth : Node α → Int
  | .bottom => -1
  | .labelled _ _ depth _ _ => depth

def nodeParent : Node α → Option (Node α)
  | .bottom => none
  | .labelled _ parent _ _ _ => some parent

def nodeValue : Node α → Option α
  | .bottom => none
  | .labelled value _ _ _ _ => some value

/-- The jump link of a leaf below `parent`, with its distance. -/
def skipBelow (parent : Node α) : Node α × Int :=
  match parent with
  | .bottom => (.bottom, 1)
  | .labelled _ _ _ parentSkip parentDistance =>
      match parentSkip with
      | .bottom => (parent, 1)
      | .labelled _ _ _ skippedSkip skippedDistance =>
          if skippedDistance ≤ parentDistance then
            (skippedSkip, wrapped (1 + parentDistance + skippedDistance))
          else (parent, 1)

def addLeaf (parent : Node α) (value : α) : Node α :=
  .labelled value parent (wrapped (nodeDepth parent + 1)) (skipBelow parent).1 (skipBelow parent).2

def climb (depth : Int) : Node α → Nat → Node α × Nat
  -- The guard of the query keeps every depth at or above the bottom node's.
  | .bottom, hops => (.bottom, hops)
  | .labelled value parent nodeDepth skip skipDistance, hops =>
      if nodeDepth ≤ depth then (.labelled value parent nodeDepth skip skipDistance, hops)
      else if skipDistance > 0 ∧ skipDistance ≤ nodeDepth - depth then climb depth skip (hops + 1)
      else climb depth parent (hops + 1)

def ancestorAtDepthHops (node : Node α) (depth : Int) : Option (Node α × Nat) :=
  if depth < -1 ∨ depth > nodeDepth node then none
  else some (climb depth node 0)

def ancestorAtDepth (node : Node α) (depth : Int) : Option (Node α) :=
  (ancestorAtDepthHops node depth).map Prod.fst

structure AncestorStatistics where
  ancestorDepth : Int
  ancestorPathLength : Nat
  ancestorJumpLinkCount : Nat
  ancestorMaximumJumpDistance : Int

def auditPath (path jumps : Nat) (maximumDistance : Int) : Node α → Except String AncestorStatistics
  | .bottom => .ok ⟨-1, path, jumps, maximumDistance⟩
  | .labelled _ parent depth skip skipDistance =>
      if depth < 0 then .error ("A labelled node has negative depth " ++ toString depth ++ ".")
      else if nodeDepth parent ≠ depth - 1 then
        .error ("A parent link at depth " ++ toString depth ++
          " does not descend exactly one level.")
      else if skipDistance < 1 then
        .error ("A jump link at depth " ++ toString depth ++ " has non-positive distance.")
      else if nodeDepth skip ≠ depth - skipDistance then
        .error ("A jump link at depth " ++ toString depth ++
          " does not match its recorded distance.")
      else
        (auditPath (path + 1) (if skipDistance > 1 then jumps + 1 else jumps)
          (max maximumDistance skipDistance) parent).map fun statistics =>
            { statistics with ancestorDepth := depth }

def validateStructure (node : Node α) : Except String AncestorStatistics := auditPath 0 0 0 node

/-! ### Paths -/

/-- The values from the bottom node up to a node. -/
def path : Node α → List α
  | .bottom => []
  | .labelled value parent _ _ _ => path parent ++ [value]

inductive IsAncestor (ancestor : Node α) : Node α → Prop where
  | refl : IsAncestor ancestor ancestor
  | parent {parent : Node α} (h : IsAncestor ancestor parent) (value : α) (depth : Int)
      (skip : Node α) (skipDistance : Int) :
      IsAncestor ancestor (.labelled value parent depth skip skipDistance)

inductive Sound : Node α → Prop where
  | bottom : Sound .bottom
  | labelled {value : α} {parent skip : Node α} {depth skipDistance : Int} (hparent : Sound parent)
      (hskip : IsAncestor skip parent) (hdepth : depth = (path parent).length)
      (hdistance : skipDistance = (path parent).length + 1 - (path skip).length) :
      Sound (.labelled value parent depth skip skipDistance)

variable {node : Node α}

section

variable {ancestor : Node α} (h : IsAncestor ancestor node)
include h

theorem IsAncestor.path_prefix : path ancestor <+: path node := by
  induction h with
  | refl => exact prefix_refl _
  | parent _ value depth skip skipDistance ih => exact ih.trans (prefix_append _ _)

theorem IsAncestor.length_le :
    (path ancestor).length ≤ (path node).length := h.path_prefix.length_le

theorem IsAncestor.path_eq : path ancestor = (path node).take (path ancestor).length :=
  prefix_iff_eq_take.mp h.path_prefix

end

variable {first second : Node α}

theorem IsAncestor.trans {third : Node α} (hfirst : IsAncestor first second)
    (hsecond : IsAncestor second third) : IsAncestor first third := by
  induction hsecond with
  | refl => exact hfirst
  | parent _ value depth skip skipDistance ih => exact .parent ih value depth skip skipDistance

theorem Sound.ancestor {ancestor : Node α} (hsound : Sound node) (h : IsAncestor ancestor node) :
    Sound ancestor := by
  induction h with
  | refl => exact hsound
  | parent _ value depth skip skipDistance ih =>
      cases hsound with
      | labelled hparent _ _ _ => exact ih hparent

theorem IsAncestor.unique (hfirst : IsAncestor first node) (hsecond : IsAncestor second node)
    (h : (path first).length = (path second).length) :
    first = second := by
  induction hfirst with
  | refl =>
      cases hsecond with
      | refl => rfl
      | parent hsecond value depth skip skipDistance =>
          have hlength := hsecond.length_le
          rw [path, length_append, length_singleton] at h
          omega
  | parent hfirst value depth skip skipDistance ih =>
      cases hsecond with
      | refl =>
          have hlength := hfirst.length_le
          rw [path, length_append, length_singleton] at h
          omega
      | parent hsecond => exact ih hsecond

theorem IsAncestor.above (hfirst : IsAncestor first node) (hsecond : IsAncestor second node)
    (h : (path first).length ≤ (path second).length) :
    IsAncestor first second := by
  induction hsecond with
  | refl => exact hfirst
  | parent hsecond value depth skip skipDistance ih =>
      cases hfirst with
      | refl =>
          have hlength := hsecond.length_le
          rw [path, length_append, length_singleton] at h
          omega
      | parent hfirst => exact ih hfirst

theorem Sound.nodeDepth_eq (h : Sound node) : nodeDepth node = (path node).length - 1 := by
  cases h with
  | bottom => rfl
  | labelled _ _ hdepth _ =>
      rw [nodeDepth, hdepth, path, length_append, length_singleton]
      omega

theorem wrapped_eq {value : Int} (hlow : 0 ≤ value) (hhigh : value < 2 ^ 63) :
    wrapped value = value := by
  rw [wrapped, Int.bmod_eq_emod_of_lt] <;> omega

variable {parent : Node α}

theorem skipBelow_spec (h : Sound parent) (hroom : (path parent).length + 1 < 2 ^ 63) :
    IsAncestor (skipBelow parent).1 parent ∧
      (skipBelow parent).2 = (path parent).length + 1 - (path (skipBelow parent).1).length := by
  cases h with
  | bottom => exact ⟨.refl, rfl⟩
  | @labelled value grandparent parentSkip depth parentDistance hgrandparent hskip hdepth
      hdistance =>
      cases parentSkip with
      | bottom =>
          refine ⟨.refl, ?_⟩
          simp only [skipBelow]
          omega
      | labelled skippedValue skippedParent skippedDepth skippedSkip skippedDistance =>
          simp only [skipBelow]
          split
          · have hskipped := hgrandparent.ancestor hskip
            cases hskipped with
            | labelled _ hskippedSkip _ hskippedDistance =>
                have hancestor : IsAncestor skippedSkip grandparent :=
                  (IsAncestor.parent hskippedSkip _ _ _ _).trans hskip
                have hlength := hancestor.length_le
                have hskippedLength := hskippedSkip.length_le
                rw [path, length_append, length_singleton] at hdistance
                rw [path, length_append, length_singleton] at hroom ⊢
                have hskipLength := hskip.length_le
                rw [path, length_append, length_singleton] at hskipLength
                refine ⟨.parent hancestor _ _ _ _, ?_⟩
                dsimp only
                rw [wrapped_eq] <;> omega
          · refine ⟨.refl, ?_⟩
            dsimp only
            omega

@[simp] theorem path_addLeaf (parent : Node α) (value : α) :
    path (addLeaf parent value) = path parent ++ [value] := rfl

theorem sound_addLeaf (h : Sound parent) (value : α)
    (hroom : (path parent).length + 1 < 2 ^ 63) : Sound (addLeaf parent value) := by
  obtain ⟨hskip, hdistance⟩ := skipBelow_spec h hroom
  refine .labelled h hskip ?_ hdistance
  rw [h.nodeDepth_eq, wrapped_eq] <;> omega

section

variable (h : Sound node) {depth : Int} (hlow : -1 ≤ depth) (hhigh : depth ≤ nodeDepth node)
include h hlow hhigh

theorem climb_spec (hops : Nat) :
    IsAncestor (climb depth node hops).1 node ∧
      ((path (climb depth node hops).1).length : Int) = depth + 1 := by
  induction node generalizing hops with
  | bottom =>
      refine ⟨.refl, ?_⟩
      rw [nodeDepth] at hhigh
      rw [climb, path, length_nil]
      omega
  | labelled value parent nodesDepth skip skipDistance ihparent ihskip =>
      have hnode := h.nodeDepth_eq
      cases h with
      | labelled hparent hskip hdepth hdistance =>
          rw [nodeDepth] at hhigh
          rw [climb]
          split
          · refine ⟨.refl, ?_⟩
            rw [path, length_append, length_singleton]
            omega
          · have hskipSound := hparent.ancestor hskip
            have hparentDepth := hparent.nodeDepth_eq
            have hskipDepth := hskipSound.nodeDepth_eq
            split
            · obtain ⟨hancestor, hlength⟩ := ihskip hskipSound (by omega) (hops + 1)
              exact ⟨.parent (hancestor.trans hskip) _ _ _ _, hlength⟩
            · obtain ⟨hancestor, hlength⟩ := ihparent hparent (by omega) (hops + 1)
              exact ⟨.parent hancestor _ _ _ _, hlength⟩

theorem ancestorAtDepthHops_spec :
    ∃ found hops, ancestorAtDepthHops node depth = some (found, hops) ∧
      IsAncestor found node ∧ ((path found).length : Int) = depth + 1 := by
  obtain ⟨hancestor, hlength⟩ := climb_spec h hlow hhigh 0
  exact ⟨_, _, if_neg (by omega), hancestor, hlength⟩

theorem ancestorAtDepth_spec :
    ∃ found, ancestorAtDepth node depth = some found ∧ IsAncestor found node ∧
      ((path found).length : Int) = depth + 1 := by
  obtain ⟨found, hops, hquery, hancestor, hlength⟩ := ancestorAtDepthHops_spec h hlow hhigh
  exact ⟨found, by rw [ancestorAtDepth, hquery]; rfl, hancestor, hlength⟩

end

theorem auditPath_spec (h : Sound node) (visited jumps : Nat) (maximumDistance : Int) :
    ∃ statistics, auditPath visited jumps maximumDistance node = .ok statistics ∧
      statistics.ancestorDepth = nodeDepth node ∧
      statistics.ancestorPathLength = visited + (path node).length := by
  induction h generalizing visited jumps maximumDistance with
  | bottom => exact ⟨_, rfl, rfl, rfl⟩
  | @labelled value parent skip depth skipDistance hparent hskip hdepth hdistance ih =>
      have hparentDepth := hparent.nodeDepth_eq
      have hskipDepth := (hparent.ancestor hskip).nodeDepth_eq
      have hlength := hskip.length_le
      rw [auditPath, if_neg (by omega), if_neg (by omega), if_neg (by omega), if_neg (by omega)]
      obtain ⟨statistics, hok, -, hpath⟩ := ih (visited + 1)
        (if skipDistance > 1 then jumps + 1 else jumps) (max maximumDistance skipDistance)
      rw [hok]
      refine ⟨_, rfl, rfl, ?_⟩
      rw [path, length_append, length_singleton]
      dsimp only
      omega

theorem validateStructure_spec (h : Sound node) :
    ∃ statistics, validateStructure node = .ok statistics ∧
      statistics.ancestorDepth = nodeDepth node ∧
      statistics.ancestorPathLength = (path node).length := by
  obtain ⟨statistics, hok, hdepth, hpath⟩ := auditPath_spec h 0 0 0
  exact ⟨statistics, hok, hdepth, by omega⟩

/-! ### Hops -/

/-- The jump links of `2 ^ (rank + 1) - 1` nodes above `base`, the last of which is `node`. -/
inductive Block : Nat → Node α → Node α → Prop where
  | single (base : Node α) (value : α) (depth : Int) :
      Block 0 base (.labelled value base depth base 1)
  | pair {rank : Nat} {base middle parent : Node α} (hupper : Block rank middle parent)
      (hlower : Block rank base middle) (value : α) (depth : Int) :
      Block (rank + 1) base (.labelled value parent depth base (2 ^ (rank + 2) - 1))

/-- The blocks from a node down to the bottom one. -/
inductive Jumps : List Nat → Node α → Prop where
  | bottom : Jumps [] .bottom
  | block {rank : Nat} {ranks : List Nat} {base node : Node α} (hblock : Block rank base node)
      (hbase : Jumps ranks base) : Jumps (rank :: ranks) node

/-- The digits of a skew binary number: only the lowest two may agree. -/
def Skew : List Nat → Prop
  | [] => True
  | rank :: ranks => (∀ next ∈ ranks, rank ≤ next) ∧ ranks.Pairwise (· < ·)

variable {rank : Nat} {base : Node α} {depth : Int}

theorem Block.labelled (h : Block rank base node) : ∃ value parent depth,
    node = .labelled value parent depth base (2 ^ (rank + 1) - 1) ∧ IsAncestor base parent := by
  induction h with
  | single base value depth => exact ⟨value, base, depth, rfl, .refl⟩
  | @pair rank base middle parent hupper hlower value depth ihupper ihlower =>
      obtain ⟨_, _, _, rfl, hmiddle⟩ := ihupper
      obtain ⟨_, _, _, rfl, hbase⟩ := ihlower
      exact ⟨value, _, depth, rfl,
        .parent ((IsAncestor.parent hbase _ _ _ _).trans hmiddle) _ _ _ _⟩

theorem Block.sound_base (h : Block rank base node) (hsound : Sound node) : Sound base := by
  obtain ⟨_, _, _, rfl, hbase⟩ := h.labelled
  exact hsound.ancestor (.parent hbase _ _ _ _)

theorem Block.nodeDepth_eq (h : Block rank base node) (hsound : Sound node) :
    nodeDepth node = nodeDepth base + (2 ^ (rank + 1) - 1) := by
  have hbase := (h.sound_base hsound).nodeDepth_eq
  have hnode := hsound.nodeDepth_eq
  obtain ⟨_, _, _, rfl, -⟩ := h.labelled
  cases hsound with
  | labelled _ _ _ hdistance =>
      rw [path, length_append, length_singleton] at hnode
      omega

private theorem one_le_pow (rank : Nat) : (1 : Int) ≤ 2 ^ rank := by
  exact_mod_cast Nat.one_le_two_pow

theorem Block.climb_jump (h : Block rank base node) (hsound : Sound node)
    (hdepth : depth ≤ nodeDepth base) (hops : Nat) :
    climb depth node hops = climb depth base (hops + 1) := by
  have hlength := h.nodeDepth_eq hsound
  have hpow := one_le_pow rank
  obtain ⟨_, _, _, rfl, -⟩ := h.labelled
  rw [nodeDepth, pow_succ] at hlength
  rw [climb, pow_succ, if_neg (by omega), if_pos (by omega)]

theorem Block.climb_inside (h : Block rank base node) (hsound : Sound node)
    (hdepth : nodeDepth base < depth) (hops : Nat) :
    (climb depth node hops).2 ≤ hops + 2 * rank := by
  have hlength := h.nodeDepth_eq hsound
  induction h generalizing hops with
  | single base value nodesDepth =>
      rw [nodeDepth] at hlength
      rw [climb, if_pos (by omega)]
      exact le_refl _
  | @pair rank base middle parent hupper hlower value nodesDepth ihupper ihlower =>
      have hexponent : (2 : Int) ^ (rank + 2) = 2 ^ (rank + 1 + 1) := rfl
      rw [nodeDepth] at hlength
      rw [climb]
      split
      · exact le_add_right _ _
      rw [if_neg (by omega)]
      cases hsound with
      | labelled hparent _ _ _ =>
      have hmiddle := hupper.sound_base hparent
      by_cases hinside : nodeDepth middle < depth
      · have hhops := ihupper hparent hinside (hops + 1) (hupper.nodeDepth_eq hparent)
        omega
      · rw [hupper.climb_jump hparent (by omega)]
        have hhops := ihlower hmiddle hdepth (hops + 1 + 1) (hlower.nodeDepth_eq hmiddle)
        omega

section

variable {ranks : List Nat} (h : Jumps ranks node)
include h

/-- Each block passed raises the rank of the next one, and a block takes two hops a rank. -/
theorem Jumps.climb_le (hsound : Sound node)
    (hascending : ranks.Pairwise (· < ·)) {low high : Nat} (hlow : ∀ rank ∈ ranks, low ≤ rank)
    (hhigh : ∀ rank ∈ ranks, rank ≤ high) (hordered : low ≤ high + 1) (hops : Nat) :
    (climb depth node hops).2 + low ≤ hops + 3 * high + 1 := by
  induction h generalizing low hops with
  | bottom =>
      rw [climb]
      omega
  | @block rank ranks base node hblock hbase ih =>
      obtain ⟨hless, hrest⟩ := pairwise_cons.mp hascending
      obtain ⟨hrankLow, -⟩ := forall_mem_cons.mp hlow
      obtain ⟨hrankHigh, hrestHigh⟩ := forall_mem_cons.mp hhigh
      by_cases hdepth : depth ≤ nodeDepth base
      · rw [hblock.climb_jump hsound hdepth]
        have hhops := ih (hblock.sound_base hsound) hrest hless hrestHigh (by omega) (hops + 1)
        omega
      · have hhops := hblock.climb_inside hsound (by omega : nodeDepth base < depth) hops
        omega

theorem Jumps.rank_le (hsound : Sound node) :
    ∀ rank ∈ ranks, 2 ^ (rank + 1) ≤ nodeDepth node + 2 := by
  induction h with
  | bottom => exact forall_mem_nil _
  | @block rank ranks base node hblock hbase ih =>
      have hbaseSound := hblock.sound_base hsound
      have hlength := hblock.nodeDepth_eq hsound
      have hdepth := hbaseSound.nodeDepth_eq
      have hpow := one_le_pow (rank + 1)
      refine forall_mem_cons.mpr ⟨by omega, fun other hother => ?_⟩
      have hother := ih hbaseSound other hother
      omega

theorem Jumps.hops_le (hskew : Skew ranks) (hsound : Sound node) :
    (climb depth node 0).2 ≤ 3 * log 2 (nodeDepth node + 2).toNat := by
  have hranks : ∀ rank ∈ ranks, rank + 1 ≤ log 2 (nodeDepth node + 2).toNat := by
    intro rank hrank
    refine le_log_of_pow_le one_lt_two ?_
    have hle := h.rank_le hsound rank hrank
    have hcast : ((2 ^ (rank + 1) : Nat) : Int) = 2 ^ (rank + 1) := by push_cast; rfl
    omega
  cases h with
  | bottom => exact zero_le _
  | @block rank ranks base node hblock hbase =>
      obtain ⟨hhead, hrest⟩ := forall_mem_cons.mp hranks
      by_cases hdepth : depth ≤ nodeDepth base
      · rw [hblock.climb_jump hsound hdepth]
        have hhops : (climb depth base (0 + 1)).2 + 0 ≤ _ :=
          hbase.climb_le (hblock.sound_base hsound) hskew.2 (fun _ _ => zero_le _)
            (fun other hother => le_sub_one_of_lt (hrest other hother)) (zero_le _) (0 + 1)
        omega
      · have hhops := hblock.climb_inside hsound (by omega : nodeDepth base < depth) 0
        omega

end

theorem Jumps.addLeaf {ranks : List Nat} (h : Jumps ranks parent)
    (hskew : Skew ranks) (hsound : Sound parent) (value : α)
    (hroom : (path parent).length + 1 < 2 ^ 63) :
    ∃ next, Jumps next (addLeaf parent value) ∧ Skew next := by
  have hleaf : ∀ {ranks}, Jumps ranks parent → (skipBelow parent) = (parent, 1) →
      Jumps (0 :: ranks) (IncrementalAncestor.addLeaf parent value) := by
    intro ranks hranks hskip
    rw [IncrementalAncestor.addLeaf, hskip]
    exact .block (.single parent value _) hranks
  cases h with
  | bottom => exact ⟨_, .block (.single .bottom value _) .bottom, by simp [Skew]⟩
  | @block rank ranks base node hblock hbase =>
  obtain ⟨parentValue, grandparent, parentDepth, hparent, -⟩ := hblock.labelled
  cases hbase with
  | bottom =>
      refine ⟨_, hleaf (.block hblock .bottom) ?_, by simp [Skew]⟩
      rw [hparent]
      rfl
  | @block next ranks below _ hnext hbelow =>
  have hfirst := hblock.nodeDepth_eq hsound
  have hsecond := hnext.nodeDepth_eq (hblock.sound_base hsound)
  have hdepth := hsound.nodeDepth_eq
  have hbelowDepth := (hnext.sound_base (hblock.sound_base hsound)).nodeDepth_eq
  obtain ⟨baseValue, baseParent, baseDepth, hbase, -⟩ := hnext.labelled
  obtain ⟨hordered, hascending⟩ := hskew
  have hle : rank ≤ next := hordered next mem_cons_self
  have hskip : skipBelow parent = if (2 : Int) ^ (next + 1) - 1 ≤ 2 ^ (rank + 1) - 1 then
      (below, wrapped (1 + (2 ^ (rank + 1) - 1) + (2 ^ (next + 1) - 1))) else (parent, 1) := by
    rw [hparent, hbase]
    rfl
  by_cases hsame : next = rank
  · -- The two lowest blocks become one.
    subst hsame
    have hexponent : (2 : Int) ^ (next + 2) = 2 ^ (next + 1) * 2 := pow_succ _ _
    rw [if_pos (Int.le_refl _), wrapped_eq (by have := one_le_pow (next + 1); omega) (by omega)]
      at hskip
    refine ⟨(next + 1) :: ranks, .block ?_ hbelow, ?_, (pairwise_cons.mp hascending).2⟩
    · rw [IncrementalAncestor.addLeaf, hskip]
      have hpair := Block.pair hblock hnext value (wrapped (nodeDepth parent + 1))
      rwa [hexponent, show (2 : Int) ^ (next + 1) * 2 - 1 =
        1 + (2 ^ (next + 1) - 1) + (2 ^ (next + 1) - 1) by omega] at hpair
    · exact fun other hother => (pairwise_cons.mp hascending).1 other hother
  · have hlt : (2 : Int) ^ (rank + 1) < 2 ^ (next + 1) := by
      exact_mod_cast Nat.pow_lt_pow_right Nat.one_lt_two (by omega)
    refine ⟨_, hleaf (.block hblock (.block hnext hbelow)) ?_, fun _ _ => zero_le _, ?_⟩
    · rw [hskip, if_neg (by omega)]
    · refine pairwise_cons.mpr ⟨fun other hother => ?_, hascending⟩
      rcases mem_cons.mp hother with rfl | hother
      · omega
      · have := (pairwise_cons.mp hascending).1 other hother
        omega

/--
The nodes that a sequence of additions below existing nodes leaves behind.  A node takes more than
two bytes, so fewer than `2 ^ 63` of them exist.
-/
inductive Grown : List (Node α) → Prop where
  | bottom : Grown [.bottom]
  | addLeaf {nodes : List (Node α)} (h : Grown nodes) {parent : Node α} (hparent : parent ∈ nodes)
      (value : α) (hroom : nodes.length < 2 ^ 63) : Grown (addLeaf parent value :: nodes)

def parents (steps : Nat) (node : Node α) : Option (Node α) :=
  (fun found => found.bind nodeParent)^[steps] (some node)

theorem IsAncestor.parents_eq {ancestor : Node α} (h : IsAncestor ancestor node) :
    parents ((path node).length - (path ancestor).length) node = some ancestor := by
  induction h with
  | refl => rw [Nat.sub_self, parents, Function.iterate_zero_apply]
  | @parent parent hparent value depth skip skipDistance ih =>
      rw [path, length_append, length_singleton, Nat.sub_add_comm hparent.length_le,
        parents, Function.iterate_succ_apply]
      exact ih

/-- What an addition keeps of a node. -/
structure Woven (bound : Nat) (node : Node α) : Prop where
  sound : Sound node
  length_le : (path node).length < bound
  jumps : ∃ ranks, Jumps ranks node ∧ Skew ranks

theorem Grown.woven {nodes : List (Node α)} (h : Grown nodes) :
    ∀ node ∈ nodes, Woven nodes.length node := by
  induction h with
  | bottom => refine forall_mem_singleton.mpr ⟨.bottom, one_pos, [], .bottom, trivial⟩
  | @addLeaf nodes h parent hparent value hroom ih =>
      refine forall_mem_cons.mpr ⟨?_, fun node hnode => ?_⟩
      · obtain ⟨hsound, hlength, ranks, hjumps, hskew⟩ := ih parent hparent
        have hfits : (path parent).length + 1 < 2 ^ 63 := by omega
        refine ⟨sound_addLeaf hsound value hfits, ?_, hjumps.addLeaf hskew hsound value hfits⟩
        rw [path_addLeaf, length_append, length_singleton, length_cons]
        omega
      · obtain ⟨hsound, hlength, hjumps⟩ := ih node hnode
        exact ⟨hsound, lt_succ_of_lt hlength, hjumps⟩

/-- Every node of an arena answers every query, in a logarithmic number of hops. -/
theorem arena_queries {nodes : List (Node α)} (h : Grown nodes) : ∀ node ∈ nodes,
    (∃ statistics, validateStructure node = .ok statistics ∧
      statistics.ancestorDepth = nodeDepth node ∧
      statistics.ancestorPathLength = (path node).length) ∧
    ∀ depth, -1 ≤ depth → depth ≤ nodeDepth node → ∃ found hops,
      ancestorAtDepthHops node depth = some (found, hops) ∧
      ancestorAtDepth node depth = some found ∧
      parents (nodeDepth node - depth).toNat node = some found ∧ nodeDepth found = depth ∧
      hops ≤ 3 * log 2 (nodeDepth node + 2).toNat := by
  intro node hnode
  obtain ⟨hsound, -, ranks, hjumps, hskew⟩ := h.woven node hnode
  refine ⟨validateStructure_spec hsound, fun depth hlow hhigh => ?_⟩
  obtain ⟨hancestor, hlength⟩ := climb_spec hsound hlow hhigh 0
  have hquery : ancestorAtDepthHops node depth = some (climb depth node 0) := if_neg (by omega)
  have hfound := (hsound.ancestor hancestor).nodeDepth_eq
  have hdepth := hsound.nodeDepth_eq
  refine ⟨_, _, hquery, ?_, ?_, by omega, hjumps.hops_le hskew hsound⟩
  · rw [ancestorAtDepth, hquery, Option.map_some]
  · rw [show (nodeDepth node - depth).toNat =
      (path node).length - (path (climb depth node 0).1).length by omega]
    exact hancestor.parents_eq

/-- Two branches below one leaf. -/
theorem arena_queries_branches :
    ancestorAtDepth (addLeaf (addLeaf .bottom 0) 1) 0 = some (addLeaf .bottom 0) := by
  have hgrown : Grown [addLeaf (addLeaf .bottom 0) 2, addLeaf (addLeaf .bottom 0) 1,
      addLeaf .bottom 0, .bottom] := by
    refine .addLeaf (.addLeaf (.addLeaf .bottom ?_ 0 ?_) ?_ 1 ?_) ?_ 2 ?_ <;> simp
  obtain ⟨found, hops, -, hquery, hparents, -⟩ := (arena_queries hgrown
    (addLeaf (addLeaf .bottom 0) 1) (by simp)).2 0 (by decide) (by decide)
  rw [hquery, ← hparents]
  rfl

end Durable7.FingerTree.IncrementalAncestor
