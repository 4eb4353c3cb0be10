import ShaderTree.Proofs.Scalarizes
import ShaderTree.Proofs.WellFormed

/-! Scalarization of one piece, where only the least number of a temporary matters. The
piece that stays shows the same face as the one it replaces, has the same variable under
its index operators and declares the same, and what is moved are declarations. -/
namespace ShaderTree

/-- What becomes of a piece whose temporaries are numbered from `low` on. -/
inductive Rewrites (pool : Pool) (low : Nat) : Term → Rewriting → Prop where
  | keep {id : NodeId} {node : Node} {parts : List Term} {results : List Rewriting}
      (plain : (Term.mk id node parts).mixes = false) (inner : node.isBlock = false)
      (length : parts.length = results.length)
      (below : ∀ part result, (part, result) ∈ parts.zip results → Rewrites pool low part result) :
      Rewrites pool low (.mk id node parts)
        ⟨results.flatMap Rewriting.moved, .mk id node (results.map Rewriting.term)⟩
  | block {id : NodeId} {ids : List NodeId} {parts : List Term} {results : List Rewriting}
      (length : parts.length = results.length)
      (below : ∀ part result, (part, result) ∈ parts.zip results → Rewrites pool low part result) :
      Rewrites pool low (.mk id (.block ids) parts)
        ⟨[], .mk id (.block ((results.flatMap Rewriting.statements).map Term.id))
          (results.flatMap Rewriting.statements)⟩
  | split {id : NodeId} {ids : List NodeId} {ty : Ty} {first : Nat} {arguments : List Term}
      {fresh : List NodeId} {declarations accesses : List Term}
      (mixed : (Term.mk id (.aggregate .construct ids ty) arguments).mixes = true) (high : low ≤ first)
      (splits : Scalarize.Splits pool ty.target ty.components first arguments fresh declarations accesses) :
      Rewrites pool low (.mk id (.aggregate .construct ids ty) arguments)
        ⟨declarations, .mk id (.aggregate .construct (accesses.map Term.id) ty) accesses⟩

theorem Scalarizes.first_le (scalarizes : Scalarizes pool first terms fresh results last) : first ≤ last := by
  induction scalarizes with
  | nil => exact Nat.le_refl _
  | keep _ _ _ _ below rest => exact Nat.le_trans below rest
  | block _ _ below rest => exact Nat.le_trans below rest
  | split _ _ _ rest => exact Nat.le_trans (Nat.le_add_right _ _) rest

/-- One more piece that becomes what its result says, in front of others that do. -/
theorem Rewrites.zip_cons {results : List Rewriting} (one : Rewrites pool low term result)
    (others : terms.length = results.length ∧
      ∀ term result, (term, result) ∈ terms.zip results → Rewrites pool low term result) :
    (term :: terms).length = (result :: results).length ∧
      ∀ other became, (other, became) ∈ (term :: terms).zip (result :: results) → Rewrites pool low other became := by
  obtain ⟨length, rest⟩ := others
  constructor
  · exact congrArg Nat.succ length
  · intro other became member
    rcases List.mem_cons.mp member with same | later
    · cases same
      exact one
    · exact rest other became later

theorem Scalarizes.rewrites (scalarizes : Scalarizes pool first terms fresh results last) (high : low ≤ first) :
    terms.length = results.length ∧
      ∀ term result, (term, result) ∈ terms.zip results → Rewrites pool low term result := by
  induction scalarizes with
  | nil => simp
  | keep plain inner below _ inside others =>
    obtain ⟨length, each⟩ := inside high
    exact Rewrites.zip_cons (.keep plain inner length each) (others (Nat.le_trans high below.first_le))
  | block below _ inside others =>
    obtain ⟨length, each⟩ := inside high
    exact Rewrites.zip_cons (.block length each) (others (Nat.le_trans high below.first_le))
  | split mixed splits _ others =>
    exact Rewrites.zip_cons (.split mixed high splits) (others (Nat.le_trans high (Nat.le_add_right _ _)))

/-- Lists that agree place by place have the same images. -/
theorem map_eq_of_zip {f : α → γ} {g : β → γ} {first : List α} {second : List β}
    (length : first.length = second.length) (same : ∀ a b, (a, b) ∈ first.zip second → g b = f a) :
    second.map g = first.map f := by
  induction first generalizing second with
  | nil =>
    obtain rfl := List.eq_nil_of_length_eq_zero length.symm
    rfl
  | cons a first ih =>
    obtain _ | ⟨b, second⟩ := second
    · cases length
    rw [List.map_cons, List.map_cons, same a b List.mem_cons_self,
      ih (Nat.succ.inj length) fun a b later => same a b (List.mem_cons_of_mem _ later)]

theorem exists_zip {first : List α} {second : List β} {third : List γ} (length : second.length = third.length)
    (member : (a, c) ∈ first.zip third) : ∃ b, (a, b) ∈ first.zip second ∧ (b, c) ∈ second.zip third := by
  induction first generalizing second third with
  | nil => simp at member
  | cons other first ih =>
    obtain _ | ⟨b, second⟩ := second
    · obtain rfl := List.eq_nil_of_length_eq_zero length.symm
      simp at member
    · obtain _ | ⟨last, third⟩ := third
      · cases length
      rcases List.mem_cons.mp member with same | later
      · cases same
        exact ⟨b, List.mem_cons_self, List.mem_cons_self⟩
      · obtain ⟨b, left, right⟩ := ih (Nat.succ.inj length) later
        exact ⟨b, List.mem_cons_of_mem _ left, List.mem_cons_of_mem _ right⟩

/-- What a node declares shows in the faces of its parts. -/
theorem Term.declared_keep {id : NodeId} {node : Node} {parts images : List Term} (faces : images.map face = parts.map face) :
    (mk id node images).declared = (mk id node parts).declared := by
  cases node with
  | declaration declarator value =>
    cases images <;> cases parts
    · rfl
    · cases faces
    · cases faces
    · exact congrArg (fun face : Face => face.symbol?.toList) (List.cons.inj faces).1
  | _ => rfl

namespace Rewrites

variable {pool : Pool} {low : Nat} {term : Term} {result : Rewriting}

theorem face (rewrites : Rewrites pool low term result) : result.term.face = term.face := by
  cases rewrites <;> rfl

theorem faces {parts : List Term} {results : List Rewriting} (length : parts.length = results.length)
    (below : ∀ part result, (part, result) ∈ parts.zip results → Rewrites pool low part result) :
    (results.map Rewriting.term).map Term.face = parts.map Term.face := by
  rw [List.map_map]
  exact map_eq_of_zip length fun part result member => (below part result member).face

theorem root? (rewrites : Rewrites pool low term result) : result.term.root? = term.root? := by
  induction rewrites with
  | @keep id node parts results _ _ length _ ih =>
    cases node with
    | binary op left right ty =>
      cases parts with
      | nil =>
        obtain rfl := List.eq_nil_of_length_eq_zero length.symm
        rfl
      | cons part parts =>
        obtain _ | ⟨result, results⟩ := results
        · cases length
        have same := ih part result List.mem_cons_self
        simp only [List.map_cons, Term.root?, same]
    | _ => rfl
  | block | split => rfl

theorem declared (rewrites : Rewrites pool low term result) : result.term.declared = term.declared := by
  cases rewrites with
  | keep _ _ length below => exact Term.declared_keep (faces length below)
  | block | split => rfl

/-- Blocks send nothing up. -/
theorem moved_of_block (rewrites : Rewrites pool low term result) (block : term.node.isBlock = true) :
    result.moved = [] := by
  cases rewrites with
  | keep _ inner => exact absurd block (by simp [Term.node, inner])
  | block => rfl
  | split => cases block

end Rewrites
end ShaderTree
