import ShaderTree.Proofs.Observers
import ShaderTree.Proofs.Sites

/-! The leaves that a walk comes to if its visits change nothing in the tree and let it go on. Such a
walk ends only where there are finitely many ways down, and takes each of them once, from left to right;
nodes may be shared. -/
namespace ShaderTree

/-- The leaves of a piece that is entered at `site`, from left to right, each with its own site. -/
def Term.leaves (site : Site) : Term → List (Site × Term)
  | .mk id node parts =>
    if node.isLeaf then [(site, .mk id node parts)] else parts.flatMap (leaves (site.enter id node))
  termination_by term => sizeOf term

theorem Node.children_of_isLeaf {node : Node} (leaf : node.isLeaf = true) : node.children = [] := by
  cases node with
  | symbol | constant | prototype => rfl
  | _ => cases leaf

namespace Term

variable {tree : Tree} {site place : Site} {id : NodeId} {node : Node} {parts : List Term} {term piece : Term}

theorem leaves_leaf (leaf : node.isLeaf = true) : (mk id node parts).leaves site = [(site, mk id node parts)] := by
  rw [leaves, if_pos leaf]

theorem leaves_inner (inner : node.isLeaf = false) :
    (mk id node parts).leaves site = parts.flatMap (leaves (site.enter id node)) := by
  rw [leaves, if_neg (by simp [inner])]

theorem Arrives.part {part : Term} (arrives : Arrives site term place piece) (member : part ∈ piece.parts) :
    Arrives site term (place.enter piece.id piece.node) part := by
  induction arrives with
  | @here site term =>
    obtain ⟨id, node, parts⟩ := term
    exact .inside member .here
  | inside among _ ih => exact .inside among (ih member)

/-- A walk comes to a leaf by a way down to it. -/
theorem mem_leaves_iff (stands : term.Of tree) :
    (place, piece) ∈ term.leaves site ↔ Arrives site term place piece ∧ piece.node.isLeaf = true := by
  induction term using Term.induct generalizing site with
  | step id node parts ih =>
    cases leaf : node.isLeaf with
    | true =>
      rw [leaves_leaf leaf, List.mem_singleton]
      constructor
      · rintro ⟨rfl, rfl⟩
        exact ⟨.here, leaf⟩
      · rintro ⟨_ | ⟨member, _⟩, _⟩
        · rfl
        · have children : node.children = parts.map Term.id := stands.children
          rw [Node.children_of_isLeaf leaf] at children
          rw [List.map_eq_nil_iff.mp children.symm] at member
          cases member
    | false =>
      rw [leaves_inner leaf, List.mem_flatMap]
      constructor
      · rintro ⟨part, member, inside⟩
        obtain ⟨arrives, last⟩ := (ih part member (stands.parts member)).mp inside
        exact ⟨.inside member arrives, last⟩
      · rintro ⟨_ | ⟨member, arrives⟩, last⟩
        · cases leaf.symm.trans last
        · exact ⟨_, member, (ih _ member (stands.parts member)).mpr ⟨arrives, last⟩⟩

/-- Every way down from the root is taken. -/
theorem exists_arrives (root : term.id = tree.root) (stands : term.Of tree) {above : List NodeId}
    (ancestry : tree.Ancestry id above) :
    ∃ place piece, Arrives {} term place piece ∧ piece.id = id ∧ place.ancestors = above := by
  induction ancestry with
  | root => exact ⟨{}, term, .here, root, rfl⟩
  | @child parent id above outer link ih =>
    obtain ⟨place, piece, arrives, rfl, rfl⟩ := ih
    have own : piece.Of tree := stands.of_mem_pieces arrives.mem_pieces
    obtain ⟨node, found, member⟩ := link
    obtain rfl := Option.some.inj (found.symm.trans own.found)
    rw [own.children] at member
    obtain ⟨part, among, rfl⟩ := List.mem_map.mp member
    exact ⟨_, part, arrives.part among, rfl, rfl⟩

end Term

namespace Walk

variable {visitor : Visitor σ} {place site : Site} {id owner : NodeId} {tree : Tree} {before after : WalkState σ}
  {visits : List (Visit σ)}

structure Visit.LooksOn (visit : Visit σ) : Prop where
  observes : visit.Observes
  goesOn : visit.answer = .ok true

def Visit.leaf? (visit : Visit σ) : Option (Site × Node) :=
  if visit.moment = .leaf then (visit.before.space.tree.nodes.get? visit.id).map (visit.site, ·) else none

def Covers (tree : Tree) (site : Site) (id : NodeId) (visits : List (Visit σ)) : Prop :=
  ∃ term : Term, term.id = id ∧ term.Of tree ∧
    visits.filterMap Visit.leaf? = (term.leaves site).map fun (place, piece) => (place, piece.node)

theorem Asks.no_leaves {wanted : Bool} {moment : Moment} {answer : Except Fault Bool}
    (asks : Asks visitor wanted moment site id before visits answer after) (inner : moment ≠ .leaf) :
    visits.filterMap Visit.leaf? = [] := by
  refine List.filterMap_eq_nil_iff.mpr fun visit member => ?_
  rw [Visit.leaf?, (asks.visits_eq visit member).1, if_neg inner]

theorem Asks.answer_eq {wanted : Bool} {moment : Moment} {answer : Bool}
    (asks : Asks visitor wanted moment site id before visits (.ok answer) after)
    (looksOn : ∀ visit ∈ visits, visit.LooksOn) : answer = true := by
  cases asks with
  | skip => rfl
  | visit => exact Except.ok.inj (looksOn _ (List.mem_singleton_self _)).goesOn

/-- All children are walked, and a piece is found below each of them. -/
theorem Row.covers {walks : NodeId → Effect σ Unit} {first : Bool} {ids left : List NodeId}
    (row : Row visitor walks place owner first ids before visits (.ok left) after)
    (looksOn : ∀ visit ∈ visits, visit.LooksOn) (start : before.space.tree = tree)
    (each : ∀ id before visits after, walks id before visits (.ok ()) after → (∀ visit ∈ visits, visit.LooksOn) →
      before.space.tree = tree → after.space.tree = tree ∧ Covers tree place id visits) :
    left = [] ∧ ∃ parts : List Term, ids = parts.map Term.id ∧ (∀ part ∈ parts, part.Of tree) ∧
      visits.filterMap Visit.leaf? =
        (parts.flatMap (Term.leaves place)).map fun (place, piece) => (place, piece.node) := by
  generalize outcome : (Except.ok left : Except Fault (List NodeId)) = result at row
  induction row with
  | done => exact ⟨Except.ok.inj outcome, [], rfl, by simp, rfl⟩
  | stop asked => cases asked.answer_eq looksOn
  | refuse | fault => cases outcome
  | next asked walked row ih =>
    obtain ⟨looksOnGap, looksOn⟩ := List.forall_mem_append.mp looksOn
    obtain ⟨looksOn, looksOnLater⟩ := List.forall_mem_append.mp looksOn
    have opened := (asked.still fun visit member => (looksOnGap visit member).observes).tree
    obtain ⟨same, part, rfl, stands, leaves⟩ := each _ _ _ _ walked looksOn (opened.trans start)
    obtain ⟨all, parts, rfl, standing, later⟩ := ih looksOnLater same outcome
    refine ⟨all, part :: parts, rfl, List.forall_mem_cons.mpr ⟨stands, standing⟩, ?_⟩
    rw [List.filterMap_append, List.filterMap_append, asked.no_leaves (by simp), leaves, later, List.flatMap_cons,
      List.map_append, List.nil_append]

/-- What is left of a block when it is closed was left by the walk of its statements. -/
theorem Closes.left_eq {statements rest : List NodeId} {outer : Array NodeId} {inner : WalkState σ}
    {left : Except Fault (List NodeId)} (closes : Closes id statements outer inner left (.ok rest) after) :
    left = .ok rest := by
  cases closes with
  | kept | rebuilt => rfl

section
variable {child : Site → NodeId → Effect σ Unit}
  (each : ∀ site id before visits after, child site id before visits (.ok ()) after →
    (∀ visit ∈ visits, visit.LooksOn) → after.space.tree = before.space.tree ∧ Covers before.space.tree site id visits)
include each

/-- The parts below the node at `id` are all walked. -/
theorem Inner.covers {left : List NodeId} (inner : Inner visitor child site id before visits (.ok left) after)
    (looksOn : ∀ visit ∈ visits, visit.LooksOn) :
    left = [] ∧ ∃ node, ∃ parts : List Term, before.space.tree.nodes.get? id = some node ∧
      node.children = parts.map Term.id ∧ (∀ part ∈ parts, part.Of before.space.tree) ∧
      visits.filterMap Visit.leaf? =
        (parts.flatMap (Term.leaves (site.enter id node))).map fun (place, piece) => (place, piece.node) := by
  cases inner with
  | plain found plain row =>
    obtain ⟨all, parts, children, stand, leaves⟩ := row.covers looksOn rfl
      fun id before visits after walked looksOn start => start ▸ each _ _ _ _ _ walked looksOn
    exact ⟨all, _, parts, found, children, stand, leaves⟩
  | block found row closes =>
    obtain rfl := closes.left_eq
    obtain ⟨all, parts, children, stand, leaves⟩ := row.covers looksOn rfl
      fun id before visits after emits looksOn start => by
        cases emits with
        | done walked =>
          obtain ⟨same, covers⟩ := each _ _ _ _ _ walked looksOn
          rw [start] at same covers
          exact ⟨same, covers⟩
    exact ⟨all, _, parts, found, children, stand, leaves⟩

end

/-- If all visits look on, a walk that ends has come to the leaves of a finite piece. -/
theorem Runs.covers {depth : Nat} (runs : Runs visitor depth site id before visits (.ok ()) after)
    (looksOn : ∀ visit ∈ visits, visit.LooksOn) : Covers before.space.tree site id visits := by
  induction depth generalizing site id before visits after with
  | zero => cases runs.2.1
  | succ depth ih =>
    generalize outcome : (Except.ok () : Except Fault Unit) = result at runs
    cases (runs : Step visitor (Runs visitor depth) site id before visits result after) with
    | missing => cases outcome
    | @leaf node _ _ answer found leaf visited =>
      exact ⟨.mk id node [], rfl, .mk found (Node.children_of_isLeaf leaf) (by simp), by
        simp [Term.leaves_leaf leaf, Visit.leaf?, found, Term.node]⟩
    | @barred _ _ _ _ answer found inner asked stops =>
      cases answer with
      | error => cases outcome
      | ok answer => exact absurd (congrArg Except.ok (asked.answer_eq looksOn)) stops
    | through found inner asked inside =>
      obtain ⟨looksOnFirst, looksOn⟩ := List.forall_mem_append.mp looksOn
      have opened := (asked.still fun visit member => (looksOnFirst visit member).observes).tree
      cases inside with
      | fault => cases outcome
      | closed within last =>
        obtain ⟨looksOn, _⟩ := List.forall_mem_append.mp looksOn
        obtain ⟨_, node, parts, again, children, stand, leaves⟩ := within.covers
          (fun site id before visits after runs looksOn =>
            ⟨(runs.still fun visit member => (looksOn visit member).observes).tree, ih runs looksOn⟩) looksOn
        rw [opened] at again stand
        obtain rfl := Option.some.inj (found.symm.trans again)
        refine ⟨.mk id _ parts, rfl, .mk found children stand, ?_⟩
        rw [List.filterMap_append, List.filterMap_append, asked.no_leaves (by simp), leaves, last.no_leaves (by simp),
          List.append_nil, List.nil_append, Term.leaves_inner inner]

end Walk
end ShaderTree
