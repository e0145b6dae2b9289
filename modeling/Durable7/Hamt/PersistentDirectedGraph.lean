import Durable7.Hamt.Relation

/-!
# Operations on directed graphs

A graph is a set of vertices beside a relation on them.  An exception of the source is an error
here.
-/

namespace Durable7.Hamt

open HashSet
open Hamt.Relation hiding member

structure PersistentDirectedGraph (v : Type) where
  storedVertices : HashSet v
  storedEdges : Relation v v

namespace PersistentDirectedGraph

variable {v : Type}

def emptyWith (verticesPolicy : HashPolicy v) : PersistentDirectedGraph v :=
  ⟨HashSet.emptyWith verticesPolicy, Relation.emptyWith verticesPolicy verticesPolicy⟩

def memberVertex (vertex : v) (graph : PersistentDirectedGraph v) : Bool :=
  member vertex graph.storedVertices

def memberEdge (source target : v) (graph : PersistentDirectedGraph v) : Bool :=
  Relation.member source target graph.storedEdges

def requiredRepresentative (value : v) (values : HashSet v) : Except String v :=
  match actualValue value values with
  | some actual => .ok actual
  | none => .error "PersistentDirectedGraph failed to retain an inserted vertex"

def insertVertex (vertex : v) (graph : PersistentDirectedGraph v) : PersistentDirectedGraph v :=
  if member vertex graph.storedVertices then graph
  else ⟨insert vertex graph.storedVertices, graph.storedEdges⟩

def insertEdge (source target : v) (graph : PersistentDirectedGraph v) :
    Except String (PersistentDirectedGraph v) :=
  if Relation.member source target graph.storedEdges then .ok graph
  else do
    let withEndpoints := insert target (insert source graph.storedVertices)
    let actualSource ← requiredRepresentative source withEndpoints
    let actualTarget ← requiredRepresentative target withEndpoints
    let storedEdges ← insert actualSource actualTarget graph.storedEdges
    .ok ⟨withEndpoints, storedEdges⟩

def deleteEdge (source target : v) (graph : PersistentDirectedGraph v) :
    PersistentDirectedGraph v :=
  if !Relation.member source target graph.storedEdges then graph
  else ⟨graph.storedVertices, delete source target graph.storedEdges⟩

def deleteVertex (vertex : v) (graph : PersistentDirectedGraph v) : PersistentDirectedGraph v :=
  if !member vertex graph.storedVertices then graph
  else ⟨delete vertex graph.storedVertices,
    deleteRight vertex (deleteLeft vertex graph.storedEdges)⟩

def reverse (graph : PersistentDirectedGraph v) : PersistentDirectedGraph v :=
  ⟨graph.storedVertices, inverse graph.storedEdges⟩

def validStructure (graph : PersistentDirectedGraph v) : Bool :=
  Relation.validStructure graph.storedEdges &&
    (Relation.toList graph.storedEdges).all fun edge =>
      memberVertex edge.1 graph && memberVertex edge.2 graph

end PersistentDirectedGraph

end Durable7.Hamt

/-!
## Directed graphs as vertices and edges

Every edge runs between vertices, up to equivalence.
-/

namespace Durable7.Hamt.PersistentDirectedGraph

open Foundation

variable {v : Type}

section

open HashSet
open Hamt.Relation hiding member

structure Holds (policy : HashPolicy v) (vertices : v → Prop) (edges : v → v → Prop)
    (graph : PersistentDirectedGraph v) : Prop where
  vertices_valid : graph.storedVertices.Valid
  policy_eq : graph.storedVertices.policy = policy
  vertices_iff : ∀ x, memberVertex x graph = true ↔ vertices x
  related : Relation.Holds policy policy edges graph.storedEdges
  endpoints : ∀ x y, edges x y → vertices x ∧ vertices y

theorem emptyWith_holds {policy : HashPolicy v} (hlawful : policy.Lawful) :
    Holds policy (fun _ => False) (fun _ _ => False) (emptyWith policy) := by
  refine ⟨HashSet.emptyWith_valid hlawful, rfl, ?_, Relation.emptyWith_holds hlawful hlawful,
    fun _ _ h => h.elim⟩
  intro x
  change HashSet.member x (HashSet.emptyWith policy) = true ↔ False
  rw [(emptyWith_valid hlawful).member_eq, emptyWith_actualValue hlawful]
  exact iff_false_intro Bool.false_ne_true

section Holding

variable {policy : HashPolicy v} {vertices : v → Prop} {edges : v → v → Prop}
  {graph : PersistentDirectedGraph v} (h : Holds policy vertices edges graph)

include h

theorem Holds.equivalence : Equivalence fun left right => policy.equalKeys left right = true :=
  h.policy_eq ▸ h.vertices_valid.equivalence

theorem Holds.vertices_congr {x x' : v} (hx : policy.equalKeys x x' = true) :
    vertices x ↔ vertices x' := by
  rw [← h.vertices_iff, ← h.vertices_iff, memberVertex, memberVertex,
    h.vertices_valid.member_congr (h.policy_eq ▸ hx)]

theorem insertVertex_holds (x : v) :
    Holds policy (fun x' => policy.equalKeys x' x = true ∨ vertices x') edges
      (insertVertex x graph) := by
  have hresult : insertVertex x graph = ⟨insert x graph.storedVertices, graph.storedEdges⟩ := by
    unfold insertVertex HashSet.insert HashSet.member
    by_cases hmember : HashMap.member x graph.storedVertices.values = true
    · rw [if_pos hmember, if_pos hmember]
    · rw [if_neg hmember, if_neg hmember]
  obtain ⟨hvalid, hpolicy⟩ := insert_valid h.vertices_valid x
  rw [hresult]
  refine ⟨hvalid, hpolicy.trans h.policy_eq, ?_, h.related, ?_⟩
  · intro x'
    rw [memberVertex, insert_member h.vertices_valid, h.policy_eq, ← h.vertices_iff]
    rfl
  · intro x' y' hedge
    obtain ⟨hx, hy⟩ := h.endpoints x' y' hedge
    exact ⟨.inr hx, .inr hy⟩

omit h in
theorem requiredRepresentative_eq {values : HashSet v} (hvalid : values.Valid)
    (hpolicy : values.policy = policy) {value : v} (hmember : member value values = true) :
    ∃ actual, requiredRepresentative value values = .ok actual ∧
      policy.equalKeys value actual = true := by
  rw [hvalid.member_eq] at hmember
  obtain ⟨actual, hactual⟩ := Option.isSome_iff_exists.mp hmember
  refine ⟨actual, ?_, hpolicy ▸ hvalid.same_of_actualValue hactual⟩
  rw [requiredRepresentative, hactual]

theorem Holds.endpoints_written {x y : v} (x' y' : v)
    (hedge : Relation.written policy policy x y True edges x' y') :
    (policy.equalKeys x' x = true ∨ policy.equalKeys x' y = true ∨ vertices x') ∧
      (policy.equalKeys y' x = true ∨ policy.equalKeys y' y = true ∨ vertices y') := by
  unfold Relation.written at hedge
  split at hedge
  · rename_i hboth
    exact ⟨.inl hboth.1, .inr (.inl hboth.2)⟩
  · obtain ⟨hx', hy'⟩ := h.endpoints x' y' hedge
    exact ⟨.inr (.inr hx'), .inr (.inr hy')⟩

theorem insertEdge_cases (x y : v) :
    (¬edges x y ∧ graph.storedEdges.size = HashMultimap.maxBound ∧
      insertEdge x y graph = .error "HashMultimap pair count overflow") ∨
    ((edges x y ∨ graph.storedEdges.size ≠ HashMultimap.maxBound) ∧ ∃ after,
      insertEdge x y graph = .ok after ∧
        Holds policy
          (fun x' => policy.equalKeys x' x = true ∨ policy.equalKeys x' y = true ∨ vertices x')
          (Relation.written policy policy x y True edges) after) := by
  have hsame := h.equivalence
  by_cases hedge : edges x y
  · obtain ⟨hx, hy⟩ := h.endpoints x y hedge
    have hresult : insertEdge x y graph = .ok graph :=
      if_pos ((h.related.forward_iff x y).mpr hedge)
    refine .inr ⟨.inl hedge, graph, hresult, h.vertices_valid, h.policy_eq, ?_,
      h.related.written_present hedge, h.endpoints_written⟩
    intro x'
    rw [h.vertices_iff]
    constructor
    · exact fun hvertex => .inr (.inr hvertex)
    · rintro (heq | heq | hvertex)
      · exact (h.vertices_congr heq).mpr hx
      · exact (h.vertices_congr heq).mpr hy
      · exact hvertex
  · have habsent : ¬Relation.member x y graph.storedEdges = true :=
      fun hmember => hedge ((h.related.forward_iff x y).mp hmember)
    obtain ⟨hsource, hsourcePolicy⟩ := insert_valid h.vertices_valid x
    obtain ⟨hvalid, hpolicy⟩ := insert_valid hsource y
    have hpolicies := (hpolicy.trans hsourcePolicy).trans h.policy_eq
    have hmember : ∀ x', member x'
        (insert y (insert x graph.storedVertices)) = true ↔
        policy.equalKeys x' x = true ∨ policy.equalKeys x' y = true ∨ vertices x' := by
      intro x'
      rw [insert_member hsource, insert_member h.vertices_valid, hsourcePolicy,
        h.policy_eq, ← h.vertices_iff, or_left_comm]
      rfl
    obtain ⟨x'', hx, hxSame⟩ := requiredRepresentative_eq hvalid hpolicies
      ((hmember x).mpr (.inl (same_refl hsame x)))
    obtain ⟨y'', hy, hySame⟩ := requiredRepresentative_eq hvalid hpolicies
      ((hmember y).mpr (.inr (.inl (same_refl hsame y))))
    have hpairs := h.related.pairs_congr hxSame hySame
    unfold insertEdge
    rw [if_neg habsent]
    dsimp only
    rw [hx, hy, except_ok_bind, except_ok_bind]
    rcases Relation.insert_cases h.related x'' y'' with ⟨-, hcount, hresult⟩ |
      ⟨hfits, after, hresult, hafter⟩
    · rw [hresult]
      exact .inl ⟨hedge, hcount, rfl⟩
    · rw [hresult]
      have hwritten : ∀ x' y', Relation.written policy policy x'' y'' True edges x' y' ↔
          Relation.written policy policy x y True edges x' y' := by
        intro x' y'
        unfold Relation.written
        rw [same_comm hsame x' x'', same_comm hsame y' y'', ← same_congr hsame hxSame,
          ← same_congr hsame hySame, same_comm hsame x, same_comm hsame y]
      exact .inr ⟨hfits.imp_left hpairs.mpr, _, rfl, hvalid, hpolicies, hmember,
        hafter.congr hwritten, h.endpoints_written⟩

theorem deleteEdge_holds (x y : v) :
    Holds policy vertices (written policy policy x y False edges) (deleteEdge x y graph) := by
  have hresult : deleteEdge x y graph = ⟨graph.storedVertices, delete x y graph.storedEdges⟩ := by
    unfold deleteEdge Relation.delete Relation.member
    split <;> rfl
  rw [hresult]
  refine ⟨h.vertices_valid, h.policy_eq, h.vertices_iff, delete_holds h.related x y, ?_⟩
  intro x' y' hedge
  unfold written at hedge
  split at hedge
  · exact hedge.elim
  · exact h.endpoints x' y' hedge

theorem deleteVertex_holds (x : v) :
    Holds policy (fun x' => vertices x' ∧ ¬policy.equalKeys x' x = true)
      (fun x' y' => edges x' y' ∧ ¬policy.equalKeys x' x = true ∧ ¬policy.equalKeys y' x = true)
      (deleteVertex x graph) := by
  unfold deleteVertex
  cases hmember : member x graph.storedVertices with
  | false =>
      have habsent : ¬vertices x := fun hvertex => by
        rw [← h.vertices_iff, memberVertex, hmember] at hvertex
        cases hvertex
      have hother : ∀ x', vertices x' → ¬policy.equalKeys x' x = true :=
        fun x' hvertex heq => habsent ((h.vertices_congr heq).mp hvertex)
      refine ⟨h.vertices_valid, h.policy_eq, ?_, h.related.congr ?_, ?_⟩
      · intro x'
        exact (h.vertices_iff x').trans ⟨fun hvertex => ⟨hvertex, hother x' hvertex⟩, And.left⟩
      · intro x' y'
        constructor
        · intro hedge
          obtain ⟨hx', hy'⟩ := h.endpoints x' y' hedge
          exact ⟨hedge, hother x' hx', hother y' hy'⟩
        · exact And.left
      · rintro x' y' ⟨hedge, hx, hy⟩
        obtain ⟨hx', hy'⟩ := h.endpoints x' y' hedge
        exact ⟨⟨hx', hx⟩, hy', hy⟩
  | true =>
      have hdeleted := delete_writes h.vertices_valid x
      refine ⟨hdeleted.valid, hdeleted.policy_eq.trans h.policy_eq, ?_,
        (Relation.deleteRight_holds (Relation.deleteLeft_holds h.related x) x).congr ?_, ?_⟩
      · intro x'
        change member x' (delete x graph.storedVertices) = true ↔ _
        rw [hdeleted.member_iff h.vertices_valid, h.policy_eq, ← h.vertices_iff]
        split
        · rename_i heq
          simp [heq]
        · rename_i hne
          exact ⟨fun hvertex => ⟨hvertex, hne⟩, And.left⟩
      · intro x' y'
        exact and_assoc
      · rintro x' y' ⟨hedge, hx, hy⟩
        obtain ⟨hx', hy'⟩ := h.endpoints x' y' hedge
        exact ⟨⟨hx', hx⟩, hy', hy⟩

theorem Holds.reverse : Holds policy vertices (fun y x => edges x y) graph.reverse :=
  ⟨h.vertices_valid, h.policy_eq, h.vertices_iff, h.related.inverse,
    fun y x hedge => (h.endpoints x y hedge).symm⟩

theorem Holds.validStructure_eq : validStructure graph = true := by
  have hendpoints : (Relation.toList graph.storedEdges).all (fun edge =>
      memberVertex edge.1 graph && memberVertex edge.2 graph) = true := by
    rw [List.all_eq_true]
    intro edge hedge
    obtain ⟨hx, hy⟩ := h.endpoints _ _ (h.related.mem_pairs hedge)
    rw [(h.vertices_iff _).mpr hx, (h.vertices_iff _).mpr hy]
    rfl
  rw [validStructure, h.related.validStructure_eq, hendpoints]
  rfl

end Holding

end

/-!
## Histories of a directed graph

A version stands beside the vertices and the edges that its history calls for.
-/

open HashMap
open HashMap (LawfulPolicy)

inductive Reached (policy : LawfulPolicy v) : (v → Prop) → (v → v → Prop) →
    PersistentDirectedGraph v → Prop where
  | emptyWith : Reached policy (fun _ => False) (fun _ _ => False) (emptyWith policy.toHashPolicy)
  | insertVertex {vertices : v → Prop} {edges : v → v → Prop} {graph : PersistentDirectedGraph v}
      (x : v) (h : Reached policy vertices edges graph) :
      Reached policy (fun x' => policy.equalKeys x' x = true ∨ vertices x') edges
        (insertVertex x graph)
  | insertEdge {vertices : v → Prop} {edges : v → v → Prop}
      {graph after : PersistentDirectedGraph v} (x y : v) (h : Reached policy vertices edges graph)
      (hstep : insertEdge x y graph = .ok after) :
      Reached policy
        (fun x' => policy.equalKeys x' x = true ∨ policy.equalKeys x' y = true ∨ vertices x')
        (fun x' y' =>
          (policy.equalKeys x' x = true ∧ policy.equalKeys y' y = true) ∨ edges x' y') after
  | deleteEdge {vertices : v → Prop} {edges : v → v → Prop} {graph : PersistentDirectedGraph v}
      (x y : v) (h : Reached policy vertices edges graph) :
      Reached policy vertices
        (fun x' y' => edges x' y' ∧ ¬(policy.equalKeys x' x = true ∧ policy.equalKeys y' y = true))
        (deleteEdge x y graph)
  | deleteVertex {vertices : v → Prop} {edges : v → v → Prop} {graph : PersistentDirectedGraph v}
      (x : v) (h : Reached policy vertices edges graph) :
      Reached policy (fun x' => vertices x' ∧ ¬policy.equalKeys x' x = true)
        (fun x' y' => edges x' y' ∧ ¬policy.equalKeys x' x = true ∧ ¬policy.equalKeys y' x = true)
        (deleteVertex x graph)
  | reverse {vertices : v → Prop} {edges : v → v → Prop} {graph : PersistentDirectedGraph v}
      (h : Reached policy vertices edges graph) :
      Reached policy vertices (fun y x => edges x y) (reverse graph)

theorem Holds.congr {policy : HashPolicy v} {vertices : v → Prop} {edges others : v → v → Prop}
    {graph : PersistentDirectedGraph v} (h : Holds policy vertices edges graph)
    (hedges : ∀ x y, edges x y ↔ others x y) : Holds policy vertices others graph :=
  ⟨h.vertices_valid, h.policy_eq, h.vertices_iff, h.related.congr hedges,
    fun x y hedge => h.endpoints x y ((hedges x y).mpr hedge)⟩

theorem Reached.holds {policy : LawfulPolicy v} {vertices : v → Prop} {edges : v → v → Prop}
    {graph : PersistentDirectedGraph v} (h : Reached policy vertices edges graph) :
    Holds policy.toHashPolicy vertices edges graph := by
  induction h with
  | emptyWith => exact emptyWith_holds policy.lawful
  | insertVertex x _ ih => exact insertVertex_holds ih x
  | insertEdge x y _ hstep ih =>
      rcases insertEdge_cases ih x y with ⟨-, -, hresult⟩ | ⟨-, after, hresult, hafter⟩
      · rw [hresult] at hstep
        cases hstep
      · rw [hresult] at hstep
        cases hstep
        exact hafter.congr (Relation.written_true _ _ x y _)
  | deleteEdge x y _ ih => exact (deleteEdge_holds ih x y).congr (Relation.written_false _ _ x y _)
  | deleteVertex x _ ih => exact deleteVertex_holds ih x
  | reverse _ ih => exact ih.reverse

structure Version (policy : LawfulPolicy v) where
  vertices : v → Prop
  edges : v → v → Prop
  graph : PersistentDirectedGraph v
  reached : Reached policy vertices edges graph

/-- Both versions hold exactly what their histories call for, and a next insertion either succeeds
or has no place for its count. -/
theorem dual_indexes_exact {a b : Type} {left : LawfulPolicy a} {right : LawfulPolicy b}
    {policy : LawfulPolicy v} (version : Relation.Version left right) (network : Version policy) :
    Relation.Exact left.toHashPolicy right.toHashPolicy version.pairs version.relation ∧
      (∀ x y, (∃ after, Relation.insert x y version.relation = .ok after) ∨
        (¬version.pairs x y ∧ version.relation.size = HashMultimap.maxBound ∧
          Relation.insert x y version.relation = .error "HashMultimap pair count overflow")) ∧
      validStructure network.graph = true ∧
      Relation.Exact policy.toHashPolicy policy.toHashPolicy network.edges
        network.graph.storedEdges ∧
      (∀ x, memberVertex x network.graph = true ↔ network.vertices x) ∧
      (∀ x y, memberEdge x y network.graph = true ↔ network.edges x y) ∧
      (∀ x y, network.edges x y → network.vertices x ∧ network.vertices y) ∧
      ∀ x y, (∃ after, insertEdge x y network.graph = .ok after) ∨
        (¬network.edges x y ∧ network.graph.storedEdges.size = HashMultimap.maxBound ∧
          insertEdge x y network.graph = .error "HashMultimap pair count overflow") := by
  have hrelation := version.reached.holds
  have hgraph := network.reached.holds
  refine ⟨hrelation.exact, ?_, hgraph.validStructure_eq, hgraph.related.exact,
    hgraph.vertices_iff, hgraph.related.forward_iff, hgraph.endpoints, ?_⟩
  · intro x y
    rcases Relation.insert_cases hrelation x y with hfull | ⟨-, after, hresult, -⟩
    · exact .inr hfull
    · exact .inl ⟨after, hresult⟩
  · intro x y
    rcases insertEdge_cases hgraph x y with hfull | ⟨-, after, hresult, -⟩
    · exact .inr hfull
    · exact .inl ⟨after, hresult⟩

/-- A self loop goes with its vertex. -/
theorem dual_indexes_exact_loop : ∀ after,
    insertEdge 1 3 (emptyWith parityPolicy.toHashPolicy) = .ok after →
      memberEdge 5 7 after = true ∧ memberEdge 1 1 (deleteVertex 9 after) = false := by
  intro after hstep
  have hreached : Reached parityPolicy _ _ after := .insertEdge 1 3 .emptyWith hstep
  let empty : Relation.Version parityPolicy parityPolicy := ⟨_, _, .emptyWith _ _⟩
  have hbefore := dual_indexes_exact empty ⟨_, _, _, hreached⟩
  have hafter := dual_indexes_exact empty ⟨_, _, _, .deleteVertex 9 hreached⟩
  constructor
  · exact (hbefore.2.2.2.2.2.1 5 7).mpr (.inl (by decide))
  · rw [← Bool.not_eq_true]
    intro hmember
    exact ((hafter.2.2.2.2.2.1 1 1).mp hmember).2.1 (by decide)

end Durable7.Hamt.PersistentDirectedGraph
