import ShaderTree.Proofs.Recording
import ShaderTree.Proofs.Tour

/-! Walks of trees without sharing, by visitors that append nodes and insert statements. The sites of
all visits are true, the walk ends, and it leaves every block with its statements in their order and
what was inserted before each of them. -/
namespace ShaderTree

variable {space : Workspace} {visitor : Visitor σ} {own : σ}

/-- The program `true; { false; }`. -/
def Workspace.nestedBlock : Workspace :=
  { tree :=
      { nodes :=
          ⟨#[.block [⟨1⟩, ⟨2⟩], .constant [.bool true] .bool, .block [⟨3⟩], .constant [.bool false] .bool]⟩
        root := ⟨0⟩ }
    table := { builtIns := {}, profile := {} } }

theorem Workspace.nestedBlock_unshared : nestedBlock.tree.Unshared := by
  let inner : Term := .mk ⟨2⟩ (.block [⟨3⟩]) [.mk ⟨3⟩ (.constant [.bool false] .bool) []]
  let outer : Term := .mk ⟨0⟩ (.block [⟨1⟩, ⟨2⟩]) [.mk ⟨1⟩ (.constant [.bool true] .bool) [], inner]
  have stands : outer.Of nestedBlock.tree := by
    refine .mk rfl rfl fun part member => ?_
    rcases List.mem_pair.mp member with rfl | rfl
    · exact .mk rfl rfl (by simp)
    · refine .mk rfl rfl fun part member => ?_
      rw [List.mem_singleton.mp member]
      exact .mk rfl rfl (by simp)
  exact stands.unshared rfl (by simp [outer, inner, Term.ids_mk])

def Visitor.announcing : Visitor Unit where
  visits := { before := true, between := true, after := true }
  visit _ site _ := do
    let added ← Walk.work (Workspace.append (.constant [] .bool))
    if site.blockDepth ≠ 0 then Walk.insertBefore site added
    return true

theorem Visitor.announcing_adds {visit : Walk.Visit Unit} (made : visit.MadeBy announcing) : visit.Adds := by
  obtain ⟨moment, site, id, before, answer, after⟩ := visit
  have extension := Arena.Extends.append before.space.tree.nodes (.constant [] .bool)
  by_cases outside : site.blockDepth = 0
  · simp only [Walk.Visit.MadeBy, announcing, outside, ne_eq, not_true, if_false] at made
    obtain ⟨rfl, rfl⟩ := Prod.mk.inj made
    exact ⟨extension, List.prefix_refl _⟩
  · simp only [Walk.Visit.MadeBy, announcing, Walk.insertBefore, outside, ne_eq, not_false_eq_true, if_true,
      if_false] at made
    obtain ⟨rfl, rfl⟩ := Prod.mk.inj made
    exact ⟨extension, by simp [Walk.Visit.Inserts]⟩

namespace Workspace

theorem walk_toured (unshared : space.tree.Unshared) (inside : space.tree.root.index < space.tree.nodes.size)
    (adds : ∀ visit ∈ space.itinerary visitor own, visit.Adds) :
    ∃ (term : Term) (result : Except Fault Unit) (after : WalkState σ), term.id = space.tree.root ∧
      term.Of space.tree ∧ (walk visitor own).run.run space = (result.map fun _ => after.own, after.space) ∧
      Walk.Toured space.tree {} term (.start space own) (space.itinerary visitor own) result after := by
  obtain ⟨term, root, stands, nodup⟩ := unshared.exists_term inside
  obtain ⟨result, after, outcome, runs⟩ := walk_runs visitor own space
  rw [← root] at runs
  have deep : term.height ≤ space.tree.nodes.size + 1 + visitor.growth := by
    have low := stands.height_le_size
    omega
  exact ⟨term, result, after, root, stands, outcome, runs.toured adds deep stands stands nodup (by simp)⟩

/-- Where a visit takes place. The visit between the children of a node is made inside of the node,
which counts as one of the nodes around it. -/
theorem itinerary_site (unshared : space.tree.Unshared) (inside : space.tree.root.index < space.tree.nodes.size)
    (adds : ∀ visit ∈ space.itinerary visitor own, visit.Adds) {visit : Walk.Visit σ}
    (made : visit ∈ space.itinerary visitor own) :
    ∃ above, (∀ others, space.tree.Ancestry visit.id others ↔ others = above) ∧
      visit.site.ancestors = (if visit.moment = .between then visit.id :: above else above) ∧
      visit.site.parent? = (if visit.moment = .between then some visit.id else above.head?) ∧
      visit.site.blockDepth = visit.site.ancestors.countP space.tree.isBlock ∧
      (visit.site.inGlobalScope = false ↔ ∃ outer ∈ visit.site.ancestors, space.tree.isDefinition outer = true) := by
  obtain ⟨term, _, _, root, stands, _, toured⟩ := walk_toured unshared inside adds
  obtain ⟨place, piece, arrives, same, site⟩ := toured.within visit made
  have start : Site.Tells space.tree {} term.id := ⟨root ▸ .root, rfl, rfl⟩
  have tells := arrives.tells stands start
  have found := (stands.of_mem_pieces arrives.mem_pieces).found
  refine ⟨place.ancestors, fun others => ⟨fun ancestry => ?_, fun equal => ?_⟩, ?_⟩
  · exact (same ▸ ancestry).unique unshared tells.ancestry
  · exact equal ▸ same ▸ tells.ancestry
  have known : visit.site.blockDepth = visit.site.ancestors.countP space.tree.isBlock ∧
      visit.site.inFunction = visit.site.ancestors.any space.tree.isDefinition := by
    rw [site]
    split
    · exact ⟨Site.enter_blockDepth found tells.blockDepth, Site.enter_inFunction found tells.inFunction⟩
    · exact ⟨tells.blockDepth, tells.inFunction⟩
  refine ⟨?_, ?_, known.1, ?_⟩
  · rw [site]
    split
    · exact congrArg (· :: place.ancestors) same.symm
    · rfl
  · rw [site]
    split
    · exact congrArg some same.symm
    · rfl
  · simp [Site.inGlobalScope, known.2]

/-- The visit between the statements of the outermost block is made inside of a block, and with that
block as the parent. -/
theorem itinerary_site_announcing : nestedBlock.tree.Unshared ∧
    nestedBlock.tree.root.index < nestedBlock.tree.nodes.size ∧
    (∀ visit ∈ nestedBlock.itinerary .announcing (), visit.Adds) ∧
    ∃ visit ∈ nestedBlock.itinerary .announcing (), visit.id = nestedBlock.tree.root ∧
      visit.site.ancestors = [nestedBlock.tree.root] ∧ visit.site.parent? = some nestedBlock.tree.root ∧
      visit.site.blockDepth = 1 := by
  have adds : ∀ visit ∈ nestedBlock.itinerary .announcing (), visit.Adds := fun visit member =>
    Visitor.announcing_adds (itinerary_made _ _ _ visit member)
  have inside : nestedBlock.tree.root.index < nestedBlock.tree.nodes.size := by decide
  have some : (nestedBlock.itinerary .announcing ()).any
      (fun visit => visit.moment = .between ∧ visit.id = nestedBlock.tree.root) = true := by decide +kernel
  obtain ⟨visit, made, which⟩ := List.any_eq_true.mp some
  obtain ⟨between, root⟩ := of_decide_eq_true which
  obtain ⟨above, known, ancestors, parent, depth, _⟩ := itinerary_site nestedBlock_unshared inside adds made
  obtain rfl : [] = above := (known []).mp (root ▸ .root)
  rw [if_pos between, root] at ancestors parent
  rw [ancestors] at depth
  exact ⟨nestedBlock_unshared, inside, adds, visit, made, root, ancestors, parent, depth.trans (by decide)⟩

/-- What a walk leaves behind. Only a visit can make it fail. -/
theorem walk_splices (unshared : space.tree.Unshared) (inside : space.tree.root.index < space.tree.nodes.size)
    (adds : ∀ visit ∈ space.itinerary visitor own, visit.Adds) :
    (∀ fault after, (walk visitor own).run.run space = (.error fault, after) →
      ∃ visit ∈ space.itinerary visitor own, visit.answer = .error fault) ∧
    ∀ kept after, (walk visitor own).run.run space = (.ok kept, after) →
      ∀ id node, space.tree.nodes.get? id = some node →
        Walk.Spliced space.tree (space.itinerary visitor own) id node after.tree ∧
        (Walk.put space.tree (some id) (space.itinerary visitor own) = [] → after.tree.nodes.get? id = some node) := by
  obtain ⟨term, result, after, root, stands, outcome, toured⟩ := walk_toured unshared inside adds
  rw [outcome]
  cases result with
  | error cause =>
    refine ⟨fun fault final failed => ?_, fun kept final done => by cases done⟩
    obtain rfl : cause = fault := Except.error.inj (Prod.mk.inj failed).1
    exact toured.faults _ rfl
  | ok value =>
    refine ⟨fun fault final failed => (by cases failed), fun kept final done id node found => ?_⟩
    obtain rfl : after.space = final := (Prod.mk.inj done).2
    have spliced : Walk.Spliced space.tree (space.itinerary visitor own) id node after.space.tree := by
      by_cases reached : id ∈ term.ids
      · rw [Term.ids_eq_pieces] at reached
        obtain ⟨piece, member, rfl⟩ := List.mem_map.mp reached
        obtain rfl : piece.node = node := Option.some.inj ((stands.of_mem_pieces member).found.symm.trans found)
        exact toured.spliced rfl piece member
      · refine .of_untouched (fun visit made touches => ?_) (toured.keeps id node found reached)
        rcases (toured.within visit made).mem_of_touches touches with below | around
        · exact reached below
        · cases around
    exact ⟨spliced, spliced.unchanged⟩

/-- Visits below a statement and of it insert before it, those between two statements in the gap. -/
theorem walk_splices_announcing : nestedBlock.tree.Unshared ∧
    nestedBlock.tree.root.index < nestedBlock.tree.nodes.size ∧
    (∀ visit ∈ nestedBlock.itinerary .announcing (), visit.Adds) ∧
    ∃ after, (walk .announcing ()).run.run nestedBlock = (.ok (), after) ∧
      after.tree.nodes.get? ⟨0⟩ = some (.block [⟨5⟩, ⟨1⟩, ⟨6⟩, ⟨7⟩, ⟨9⟩, ⟨2⟩]) ∧
      after.tree.nodes.get? ⟨2⟩ = some (.block [⟨8⟩, ⟨3⟩]) := by
  have adds : ∀ visit ∈ nestedBlock.itinerary .announcing (), visit.Adds := fun visit member =>
    Visitor.announcing_adds (itinerary_made _ _ _ visit member)
  have inside : nestedBlock.tree.root.index < nestedBlock.tree.nodes.size := by decide
  have ends : ((walk .announcing ()).run.run nestedBlock).1.isOk = true := by decide +kernel
  obtain ⟨after, outcome⟩ : ∃ after, (walk .announcing ()).run.run nestedBlock = (.ok (), after) := by
    generalize (walk .announcing ()).run.run nestedBlock = outcome at ends ⊢
    obtain ⟨_ | _, after⟩ := outcome
    · cases ends
    · exact ⟨after, rfl⟩
  obtain ⟨_, spliced⟩ := walk_splices nestedBlock_unshared inside adds
  have outer := (spliced () _ outcome ⟨0⟩ (.block [⟨1⟩, ⟨2⟩]) (by decide)).1.found
  have inner := (spliced () _ outcome ⟨2⟩ (.block [⟨3⟩]) (by decide)).1.found
  refine ⟨nestedBlock_unshared, inside, adds, after, outcome, outer.trans ?_, inner.trans ?_⟩
  · decide +kernel
  · decide +kernel

end Workspace
end ShaderTree
