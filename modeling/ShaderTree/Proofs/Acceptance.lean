import ShaderTree.Proofs.NodeRules

/-! What validation accepts. A run that passes visits a piece that is well formed, with
variables in scope and no node met twice, and every such piece is accepted. The first
half is an induction on the depth that the run may look down, the second on the piece. -/
namespace ShaderTree

theorem Term.face_of {term : Term} (stands : term.Of tree) : tree.face term.id = term.face := by
  rw [Tree.face_eq stands.found, Term.face]

theorem Term.faces_of {parts : List Term} (stand : ∀ part ∈ parts, part.Of tree) :
    (parts.map Term.id).map tree.face = parts.map Term.face := by
  rw [List.map_map]
  exact List.map_congr_left fun part member => Term.face_of (stand part member)

/-- An expression or a block declares nothing to what comes after it. -/
theorem Role.Suits.declared {role : Role} {term : Term} (suits : role.Suits checks term.face) (inner : role ≠ .statement)
    (use : role ≠ .declarator) : term.declared = [] := by
  obtain ⟨id, node, parts⟩ := term
  cases role with
  | statement => exact absurd rfl inner
  | declarator => exact absurd rfl use
  | expression expected =>
    obtain ⟨ty, typed, _⟩ := suits
    cases node <;> first | rfl | cases typed
  | body => cases node <;> first | rfl | cases suits

theorem Term.declared_of {tree : Tree} {term : Term} (stands : term.Of tree) :
    Validator.declares tree term.node = term.declared := by
  obtain ⟨id, node, parts⟩ := term
  cases node with
  | declaration declarator value =>
    have children := stands.children
    cases parts with
    | nil => cases children
    | cons first rest =>
      have same : declarator = first.id := (List.cons.inj children).1
      subst same
      change (tree.face first.id).symbol?.toList = first.node.symbol?.toList
      rw [Term.face_of (stands.parts List.mem_cons_self)]
      rfl
  | _ => rfl

namespace Node

variable {returns : Option Ty} {faces : List Face} {node : Node} {role : Role}

def isDeclaration : Node → Bool
  | declaration _ _ => true
  | _ => false

/-- Only declarations have a part that is no piece of its own. -/
theorem roles_plain (plain : node.isDeclaration = false) (member : role ∈ node.roles returns faces) :
    role ≠ .declarator := by
  rintro rfl
  cases node <;> simp [roles, isDeclaration] at member plain

/-- Parts that are no statements declare nothing. -/
theorem silent {checks : Checks} {inner : Option Ty} {parts : List Term} (plain : node.isDeclaration = false)
    (children : node.children = parts.map Term.id)
    (below : ∀ role part, (role, part) ∈ (node.roles returns faces).zip parts →
      WellFormed checks table inner role part)
    (quiet : Role.statement ∉ node.roles returns faces) : ∀ part ∈ parts, part.declared = [] := by
  intro part member
  obtain ⟨role, among⟩ := exists_role returns faces children member
  have within := (List.of_mem_zip among).1
  refine (below role _ among).suits.declared ?_ (roles_plain plain within)
  rintro rfl
  exact quiet within

/-- The scope of a part is the scope of the node and what the parts before it declare. Only the
statements of blocks and loops declare anything. -/
theorem scope_eq {front : List Term} (plain : node.isDeclaration = false)
    (quiet : Role.statement ∉ node.roles returns faces → ∀ part ∈ front, part.declared = []) :
    node.scope table visible front = (front.flatMap Term.declared).reverse ++ (node.names table ++ visible) := by
  have silent : Role.statement ∉ node.roles returns faces → front.flatMap Term.declared = [] :=
    fun none => List.flatMap_eq_nil_iff.mpr (quiet none)
  cases node with
  | block statements => rfl
  | loop kind init test step inner => rfl
  | declaration declarator value => cases plain
  | _ =>
    rw [silent (by simp [roles])]
    rfl

end Node

namespace Validator

variable {validator : Validator} {before between after : Progress} {returns : Option Ty} {term : Term} {id : NodeId}

structure Meets (single : Bool) (ids : List NodeId) (before after : Progress) : Prop where
  nodup : single = true → ids.Nodup
  fresh : single = true → ∀ id ∈ ids, id ∉ before.met
  met : ∀ id, id ∈ after.met ↔ id ∈ before.met ∨ single = true ∧ id ∈ ids

namespace Meets

variable {single : Bool} {ids others : List NodeId}

theorem none (same : after.met = before.met) : Meets single [] before after :=
  ⟨fun _ => List.nodup_nil, fun _ _ member => absurd member List.not_mem_nil, fun id => by simp [same]⟩

theorem append (first : Meets single ids before between) (second : Meets single others between after) :
    Meets single (ids ++ others) before after := by
  refine ⟨fun wanted => ?_, fun wanted id member => ?_, fun id => ?_⟩
  · refine (first.nodup wanted).append (second.nodup wanted) fun id early late => ?_
    exact second.fresh wanted id late ((first.met id).mpr (.inr ⟨wanted, early⟩))
  · rcases List.mem_append.mp member with early | late
    · exact first.fresh wanted id early
    · exact fun met => second.fresh wanted id late ((first.met id).mpr (.inl met))
  · rw [second.met, first.met, List.mem_append]
    tauto

theorem perm (meets : Meets single ids before after) (same : ids.Perm others) :
    Meets single others before after :=
  ⟨fun wanted => (same.nodup_iff).mp (meets.nodup wanted),
    fun wanted id member => meets.fresh wanted id (same.mem_iff.mpr member),
    fun id => by rw [meets.met, same.mem_iff]⟩

/-- Which variables are in scope does not matter. -/
theorem congr {early late : Progress} (meets : Meets single ids before after) (first : early.met = before.met)
    (last : late.met = after.met) : Meets single ids early late :=
  ⟨meets.nodup, fun wanted id member => first ▸ meets.fresh wanted id member,
    fun id => by rw [first, last, meets.met]⟩

end Meets

theorem fetch_meets (fetched : Passes (validator.fetch id) before node after) :
    Meets validator.checks.singleParent [id] before after ∧ after.visible = before.visible := by
  obtain ⟨_, fresh, rfl⟩ := fetch_iff.mp fetched
  cases single : validator.checks.singleParent with
  | false => exact ⟨⟨by simp, by simp, by simp⟩, rfl⟩
  | true => exact ⟨⟨by simp, fun _ => by simpa using fresh single, by simp [or_comm]⟩, rfl⟩

/-- A node that no one has met can be fetched. -/
theorem fetch_passes (found : validator.tree.nodes.get? id = some node)
    (fresh : validator.checks.singleParent = true → id ∉ before.met) :
    ∃ after, Passes (validator.fetch id) before node after :=
  ⟨_, fetch_iff.mpr ⟨found, fresh, rfl⟩⟩

structure Accepted (validator : Validator) (returns : Option Ty) (role : Role) (before after : Progress)
    (term : Term) : Prop where
  stands : term.Of validator.tree
  wellFormed : WellFormed validator.checks validator.table returns role term
  sees : validator.checks.references = true → Scoped validator.table before.visible term
  meets : Meets validator.checks.singleParent term.ids before after
  visible : after.visible = term.declared ++ before.visible

inductive Chain (validator : Validator) (returns : Option Ty) :
    (before after : Progress) → List Role → List Term → Prop where
  | nil {before : Progress} : Chain validator returns before before [] []
  | cons {before between after : Progress} {role : Role} {term : Term} {roles : List Role} {terms : List Term}
      (first : validator.Accepted returns role before between term)
      (rest : Chain validator returns between after roles terms) :
      Chain validator returns before after (role :: roles) (term :: terms)

namespace Chain

variable {roles : List Role} {terms : List Term}

theorem accepted (chain : validator.Chain returns before after roles terms) {role : Role}
    (member : (role, term) ∈ roles.zip terms) : ∃ early late, validator.Accepted returns role early late term := by
  induction chain with
  | nil => simp at member
  | cons first _ ih =>
    rw [List.zip_cons_cons] at member
    rcases List.mem_cons.mp member with same | later
    · cases same
      exact ⟨_, _, first⟩
    · exact ih later

theorem stand (chain : validator.Chain returns before after roles terms) :
    ∀ term ∈ terms, term.Of validator.tree := by
  induction chain with
  | nil => simp
  | cons first _ ih => exact List.forall_mem_cons.mpr ⟨first.stands, ih⟩

theorem meets (chain : validator.Chain returns before after roles terms) :
    Meets validator.checks.singleParent (terms.flatMap Term.ids) before after := by
  induction chain with
  | nil => exact .none rfl
  | cons first _ ih => exact first.meets.append ih

/-- Every piece sees what the pieces before it declare. -/
theorem sees (chain : validator.Chain returns before after roles terms)
    (references : validator.checks.references = true) (split : terms = front ++ term :: back) :
    Scoped validator.table ((front.flatMap Term.declared).reverse ++ before.visible) term := by
  induction chain generalizing front with
  | nil => simp at split
  | cons first _ ih =>
    cases front with
    | nil =>
      obtain ⟨rfl, rfl⟩ := List.cons.inj split
      exact first.sees references
    | cons other front =>
      obtain ⟨rfl, rest⟩ := List.cons.inj split
      have seen := ih rest
      rw [first.visible] at seen
      rw [List.flatMap_cons, List.reverse_append, Term.declared_reverse, List.append_assoc]
      exact seen

end Chain

/-- Under enough steps, the walk to the variable written ends, and it finds the root of the piece. -/
theorem readOnlyWithin_iff {steps : Nat} (stands : term.Of validator.tree) (high : term.height ≤ steps) :
    validator.readOnlyWithin steps term.id = .ok none ↔
      ∀ symbol ∈ term.root?, validator.table.Writable symbol := by
  induction stands generalizing steps with
  | @mk id node parts found children stand ih =>
    obtain _ | steps := steps
    · exact absurd high (Nat.not_le_of_lt (Term.height_pos _))
    have read : validator.tree.read id = .ok node := Arena.read_eq_ok.mpr found
    simp only [readOnlyWithin, Term.id, read, bind, Except.bind]
    cases node with
    | binary op left right ty =>
      obtain _ | ⟨first, rest⟩ := parts
      · cases children
      have same : left = first.id := (List.cons.inj children).1
      subst same
      have lower : first.height < (Term.mk id (.binary op first.id right ty) (first :: rest)).height :=
        Term.height_lt List.mem_cons_self
      have low : first.height ≤ steps := by omega
      have below := ih first List.mem_cons_self low
      cases index : op.isIndex <;> simp [Term.root?, index, below, pure, Except.pure]
    | symbol ref ty =>
      simp only [Term.root?, SymbolTable.Writable, Option.mem_def, Option.some.injEq, forall_eq']
      cases validator.table.resolve ref with
      | error fault => simp
      | ok symbol =>
        cases symbol.id.isBuiltIn && symbol.asVariable?.any fun var => var.ty.qualifier.isReadOnly <;>
          simp [pure, Except.pure]
    | _ => simp [Term.root?, pure, Except.pure]

theorem writable_iff (stands : term.Of validator.tree) :
    validator.readOnlyWithin (validator.tree.nodes.size + 1) term.id = .ok none ↔
      ∀ symbol ∈ term.root?, validator.table.Writable symbol :=
  readOnlyWithin_iff stands (Nat.le_succ_of_le stands.height_le_size)

section
variable {node : Node} {parts : List Term} {role : Role}

theorem Rule.of_wellFormed (stands : (Term.mk id node parts).Of validator.tree)
    (right : WellFormed validator.checks validator.table returns role (.mk id node parts))
    (inside : validator.checks.references = true → Scoped validator.table visible (.mk id node parts)) :
    validator.Rule returns visible id node := by
  have children : node.children = parts.map Term.id := stands.children
  have stand : ∀ part ∈ parts, part.Of validator.tree := fun part member => stands.parts member
  cases right with
  | mk suits fits writable below =>
    refine ⟨?_, fun writes target member => ?_, fun references => ?_⟩
    · rw [children, Term.faces_of stand]
      exact fits
    · rw [children, List.head?_map, Option.mem_def, Option.map_eq_some_iff] at member
      obtain ⟨part, first, rfl⟩ := member
      exact (writable_iff (stand part (List.mem_of_mem_head? first))).mpr (writable writes part first)
    · cases inside references with
      | mk own _ => exact own

theorem Rule.wellFormed (rule : validator.Rule returns visible id node)
    (stands : (Term.mk id node parts).Of validator.tree) (suits : role.Suits validator.checks (node.face id))
    (below : ∀ role part, (role, part) ∈ (node.roles returns (parts.map Term.face)).zip parts →
      WellFormed validator.checks validator.table (node.inner validator.table returns) role part) :
    WellFormed validator.checks validator.table returns role (.mk id node parts) := by
  have children : node.children = parts.map Term.id := stands.children
  have stand : ∀ part ∈ parts, part.Of validator.tree := fun part member => stands.parts member
  refine .mk suits ?_ (fun writes part first => ?_) below
  · have fits := rule.fits
    rw [children, Term.faces_of stand] at fits
    exact fits
  · refine (writable_iff (stand part (List.mem_of_mem_head? first))).mp (rule.writable writes part.id ?_)
    rw [children, List.head?_map, Option.mem_def, Option.map_eq_some_iff]
    exact ⟨part, first, rfl⟩

end

theorem expression_typed {depth : Nat} (passes : Passes (validator.expression depth id) before ty after) :
    (validator.tree.face id).ty? = some ty := by
  induction depth generalizing id before ty after with
  | zero => exact (Passes.throw_iff.mp passes).elim
  | succ depth ih =>
    obtain ⟨node, between, fetched, rest⟩ := Passes.bind_iff.mp passes
    obtain ⟨found, _, _⟩ := fetch_iff.mp fetched
    obtain ⟨isExpression, _⟩ := (expressionNode_iff (fun _ _ _ _ passes => ih passes)
      (fun _ => pure ()) none).mp rest
    rw [Tree.face_eq found]
    exact isExpression

theorem expression_keeps {depth : Nat} (passes : Passes (validator.expression depth id) before ty after) :
    after.visible = before.visible := by
  induction depth generalizing id before ty after with
  | zero => exact (Passes.throw_iff.mp passes).elim
  | succ depth ih =>
    obtain ⟨node, between, fetched, rest⟩ := Passes.bind_iff.mp passes
    obtain ⟨isExpression, _, visits⟩ := (expressionNode_iff (fun _ _ _ _ => expression_typed)
      (fun _ => pure ()) none).mp rest
    rw [← (fetch_meets fetched).2]
    exact visits_visible (fun _ _ _ _ passes => ih passes) visits (places_expression isExpression)

/-- Visits that are each of an accepted piece are of a chain of them. -/
theorem Visits.chain {statement : NodeId → ValidateM Unit} {expression : NodeId → ValidateM Ty}
    {roles : List Role} {ids : List NodeId}
    (visits : validator.Visits statement expression before after (roles.zip ids))
    (length : roles.length = ids.length)
    (each : ∀ role ∈ roles, ∀ id before after, validator.Visit statement expression before after role id →
      ∃ term, term.id = id ∧ validator.Accepted returns role before after term) :
    ∃ terms, terms.map Term.id = ids ∧ validator.Chain returns before after roles terms := by
  induction roles generalizing ids before with
  | nil =>
    obtain rfl := List.eq_nil_of_length_eq_zero length.symm
    obtain rfl := visits
    exact ⟨[], rfl, .nil⟩
  | cons role roles ih =>
    obtain _ | ⟨id, ids⟩ := ids
    · cases length
    obtain ⟨between, first, rest⟩ := visits
    obtain ⟨term, same, accepted⟩ := each role List.mem_cons_self id before between first
    obtain ⟨terms, handles, chain⟩ := ih rest (Nat.succ.inj length) fun role member =>
      each role (List.mem_cons_of_mem _ member)
    exact ⟨term :: terms, by rw [List.map_cons, same, handles], .cons accepted chain⟩

theorem order_plain {node : Node} {places : List (Role × NodeId)} (plain : node.isDeclaration = false) :
    order node places = places := by
  cases node <;> first | rfl | cases plain

section
variable {node : Node} {role : Role} {statement : Option Ty → NodeId → ValidateM Unit}
  {expression : NodeId → ValidateM Ty}

/-- A node that is entered stands above the pieces of its children. -/
theorem Enters.accepted (plain : node.isDeclaration = false)
    (fetched : Passes (validator.fetch id) before node between)
    (enters : validator.Enters statement expression returns id node between after)
    (suits : role.Suits validator.checks (node.face id))
    (each : ∀ inner ∈ node.roles returns (node.children.map validator.tree.face), ∀ id before after,
      validator.Visit (statement (node.inner validator.table returns)) expression before after inner id →
        ∃ term, term.id = id ∧
          validator.Accepted (node.inner validator.table returns) inner before after term) :
    ∃ term, term.id = id ∧ validator.Accepted returns role before after term := by
  obtain ⟨found, _, _⟩ := fetch_iff.mp fetched
  obtain ⟨rule, inside, visits, rfl⟩ := enters
  rw [order_plain plain] at visits
  obtain ⟨parts, ids, chain⟩ := visits.chain (Node.roles_length _ _ _) each
  have stands : (Term.mk id node parts).Of validator.tree := .mk found ids.symm chain.stand
  obtain ⟨met, seen⟩ := fetch_meets fetched
  rw [seen] at rule chain
  have below : ∀ inner part, (inner, part) ∈ (node.roles returns (parts.map Term.face)).zip parts →
      WellFormed validator.checks validator.table (node.inner validator.table returns) inner part := by
    intro inner part member
    rw [← Term.faces_of chain.stand, ids] at member
    obtain ⟨_, _, accepted⟩ := chain.accepted member
    exact accepted.wellFormed
  refine ⟨.mk id node parts, rfl, stands, rule.wellFormed stands suits below, fun references => ?_, ?_, ?_⟩
  · refine .mk (rule.own references) fun front part back split _ => ?_
    rw [Node.scope_eq plain fun quiet part member =>
      Node.silent plain ids.symm below quiet part (split ▸ List.mem_append_left _ member)]
    exact chain.sees references split
  · rw [Term.ids_mk]
    exact met.append (chain.meets.congr rfl rfl)
  · rw [← Term.declared_of stands, seen]
    rfl

theorem declarator_accepted (passes : Passes (validator.declarator id) before () after) :
    ∃ ref ty, (Term.mk id (.symbol ref ty) []).Of validator.tree ∧
      WellFormed validator.checks validator.table returns .declarator (.mk id (.symbol ref ty) []) ∧
      Meets validator.checks.singleParent [id] before after ∧ after.visible = ref :: before.visible := by
  obtain ⟨ref, ty, expected, between, fetched, known, shape, rfl⟩ := declarator_iff.mp passes
  obtain ⟨found, _, _⟩ := fetch_iff.mp fetched
  obtain ⟨met, seen⟩ := fetch_meets fetched
  refine ⟨ref, ty, .mk found rfl (by simp), ?_, met.congr rfl rfl, by simp [seen]⟩
  exact .mk rfl ⟨expected, known, shape⟩ (by simp [Node.writes]) (by simp)

/-- The initial value is visited before the variable that it is for. -/
theorem Enters.accepted_declaration {declared : NodeId} {value : Option NodeId}
    (fetched : Passes (validator.fetch id) before (.declaration declared value) between)
    (enters : validator.Enters statement expression returns id (.declaration declared value) between after)
    (each : ∀ expected id before after,
      validator.Visit (statement returns) expression before after (.expression expected) id →
        ∃ term, term.id = id ∧ validator.Accepted returns (.expression expected) before after term) :
    ∃ term, term.id = id ∧ validator.Accepted returns .statement before after term := by
  obtain ⟨found, _, _⟩ := fetch_iff.mp fetched
  obtain ⟨met, seen⟩ := fetch_meets fetched
  obtain ⟨rule, inside, visits, rfl⟩ := enters
  cases value with
  | none =>
    obtain ⟨_, passes, rfl⟩ := visits
    obtain ⟨ref, ty, stands, right, use, visible⟩ := declarator_accepted passes
    have whole : (Term.mk id (.declaration declared none) [.mk declared (.symbol ref ty) []]).Of validator.tree :=
      .mk found rfl (by simpa using stands)
    refine ⟨_, rfl, whole, rule.wellFormed whole trivial ?_, fun _ => ?_, ?_, ?_⟩
    · simpa [Node.roles, Node.inner] using right
    · refine .mk (by simp [Node.symbol?]) fun front part back split inner => ?_
      cases front with
      | nil => exact absurd rfl (inner rfl _ _)
      | cons _ _ => simp at split
    · refine Meets.perm (met.append (use.congr rfl rfl)) ?_
      simp [Term.ids_mk]
    · rw [← Term.declared_of whole, seen]
      rfl
  | some value =>
    obtain ⟨middle, first, _, passes, rfl⟩ := visits
    obtain ⟨initial, rfl, accepted⟩ := each _ _ _ _ first
    obtain ⟨ref, ty, stands, right, use, visible⟩ := declarator_accepted passes
    have whole : (Term.mk id (.declaration declared (some initial.id))
        [.mk declared (.symbol ref ty) [], initial]).Of validator.tree :=
      .mk found rfl (by simpa using ⟨stands, accepted.stands⟩)
    have face := Term.face_of stands
    refine ⟨_, rfl, whole, rule.wellFormed whole trivial ?_, fun references => ?_, ?_, ?_⟩
    · have faces : validator.tree.face declared = (Term.mk declared (.symbol ref ty) []).face := face
      have initialized := accepted.wellFormed
      rw [Node.children, List.map_cons, List.head?_cons, Option.bind_some, faces] at initialized
      intro role part member
      simp only [Node.roles, Option.toList, List.map_cons, List.map_nil, List.head?_cons, Option.bind_some,
        List.zip_cons_cons, List.zip_nil_left, List.mem_cons, List.not_mem_nil, or_false, Prod.mk.injEq] at member
      rcases member with ⟨rfl, rfl⟩ | ⟨rfl, rfl⟩
      · exact right
      · exact initialized
    · refine .mk (by simp [Node.symbol?]) fun front part back split inner => ?_
      obtain _ | ⟨other, front⟩ := front
      · exact absurd rfl (inner rfl _ _)
      · obtain ⟨rfl, rest⟩ := List.cons.inj split
        obtain ⟨rfl, rfl, rfl⟩ : front = [] ∧ initial = part ∧ back = [] := by
          cases front <;> simp_all
        have sees := accepted.sees references
        rw [← seen]
        exact sees
    · refine Meets.perm (met.append ((accepted.meets.append use).congr rfl rfl)) ?_
      simp only [Term.ids_mk, List.flatMap_cons, List.flatMap_nil, List.append_nil, List.singleton_append]
      exact (List.perm_append_singleton _ _).cons _
    · rw [← Term.declared_of whole, seen]
      rfl

end

/-- Visits at a depth that looks far enough, or that happened to pass. -/
def Sound (validator : Validator) (depth : Nat) (role : Role) : Prop :=
  ∀ returns id before after, validator.Visit (validator.statement depth returns) (validator.expression depth)
    before after role id → ∃ term, term.id = id ∧ validator.Accepted returns role before after term

theorem expression_sound {depth : Nat} (expected : Option Ty) : validator.Sound depth (.expression expected) := by
  induction depth generalizing expected with
  | zero =>
    rintro returns id before after ⟨ty, passes, _⟩
    exact (Passes.throw_iff.mp passes).elim
  | succ depth ih =>
    rintro returns id before after ⟨ty, passes, shape⟩
    obtain ⟨node, between, fetched, rest⟩ := Passes.bind_iff.mp passes
    obtain ⟨isExpression, _⟩ := (expressionNode_iff (fun _ _ _ _ => expression_typed)
      (validator.statement depth returns) returns).mp rest
    have plain : node.isDeclaration = false := by
      cases node <;> first | rfl | cases isExpression
    have enters : validator.Enters (validator.statement depth) (validator.expression depth) returns id node
        between after :=
      (expression_enters isExpression (fun _ _ _ _ => expression_typed) fun _ _ _ _ => expression_keeps).mp rest
    refine enters.accepted plain fetched ⟨ty, isExpression, shape⟩ fun inner member id before after visit => ?_
    obtain ⟨other, rfl⟩ := roles_expression isExpression member
    exact ih other _ id before after visit

theorem body_sound {depth : Nat} (statements : validator.Sound depth .statement) :
    validator.Sound depth .body := by
  intro returns id before after passes
  obtain ⟨node, between, fetched, rest⟩ := Passes.bind_iff.mp passes
  cases node with
  | block ids =>
    have enters : validator.Enters (validator.statement depth) (validator.expression depth) returns id (.block ids)
        between after := block_iff.mp rest
    refine enters.accepted rfl fetched rfl fun inner member id before after visit => ?_
    obtain ⟨_, _, rfl⟩ := List.mem_map.mp member
    exact statements _ id before after visit
  | _ => exact (Passes.reject_iff.mp rest).elim

theorem statement_sound (validator : Validator) (depth : Nat) : validator.Sound depth .statement := by
  induction depth with
  | zero =>
    intro returns id before after passes
    exact (Passes.throw_iff.mp passes).elim
  | succ depth ih =>
    intro returns id before after passes
    obtain ⟨node, between, fetched, rest⟩ := Passes.bind_iff.mp passes
    have enters : validator.Enters (validator.statement depth) (validator.expression depth) returns id node
        between after :=
      (statementNode_iff (fun _ _ _ _ => expression_typed) (fun _ _ _ _ => expression_keeps)).mp rest
    cases plain : node.isDeclaration with
    | true =>
      cases node with
      | declaration declared value =>
        exact enters.accepted_declaration fetched fun expected => expression_sound expected returns
      | _ => cases plain
    | false =>
      refine enters.accepted plain fetched trivial fun inner member => ?_
      cases inner with
      | expression expected => exact expression_sound expected _
      | statement => exact ih _
      | body => exact body_sound ih _
      | declarator => exact absurd rfl (Node.roles_plain plain member)

def Fresh (single : Bool) (ids : List NodeId) (before : Progress) : Prop :=
  single = true → ids.Nodup ∧ ∀ id ∈ ids, id ∉ before.met

theorem Fresh.split {single : Bool} {ids others : List NodeId} (fresh : Fresh single (ids ++ others) before) :
    Fresh single ids before ∧ ∀ after, Meets single ids before after → Fresh single others after := by
  refine ⟨fun wanted => ?_, fun after meets wanted => ?_⟩
  · obtain ⟨nodup, unmet⟩ := fresh wanted
    exact ⟨nodup.of_append_left, fun id member => unmet id (List.mem_append_left _ member)⟩
  · obtain ⟨nodup, unmet⟩ := fresh wanted
    refine ⟨nodup.of_append_right, fun id member met => ?_⟩
    rcases (meets.met id).mp met with old | ⟨_, new⟩
    · exact unmet id (List.mem_append_right _ member) old
    · exact List.disjoint_of_nodup_append nodup new member

def Visitable (validator : Validator) (statement : NodeId → ValidateM Unit) (expression : NodeId → ValidateM Ty)
    (role : Role) (term : Term) (before : Progress) : Prop :=
  ∃ after, validator.Visit statement expression before after role term.id ∧
    Meets validator.checks.singleParent term.ids before after ∧ after.visible = term.declared ++ before.visible

theorem visits_complete (before : Progress) {statement : NodeId → ValidateM Unit}
    {expression : NodeId → ValidateM Ty} {roles : List Role} {terms : List Term} (length : roles.length = terms.length)
    (each : ∀ role term, (role, term) ∈ roles.zip terms → ∀ before,
      (validator.checks.references = true → Scoped validator.table before.visible term) →
      Fresh validator.checks.singleParent term.ids before →
      validator.Visitable statement expression role term before)
    (sees : validator.checks.references = true → ∀ front term back, terms = front ++ term :: back →
      Scoped validator.table ((front.flatMap Term.declared).reverse ++ before.visible) term)
    (fresh : Fresh validator.checks.singleParent (terms.flatMap Term.ids) before) :
    ∃ after, validator.Visits statement expression before after (roles.zip (terms.map Term.id)) ∧
      Meets validator.checks.singleParent (terms.flatMap Term.ids) before after := by
  induction roles generalizing terms before with
  | nil =>
    obtain rfl := List.eq_nil_of_length_eq_zero length.symm
    exact ⟨before, rfl, .none rfl⟩
  | cons role roles ih =>
    obtain _ | ⟨term, terms⟩ := terms
    · cases length
    rw [List.flatMap_cons] at fresh
    obtain ⟨own, others⟩ := fresh.split
    obtain ⟨between, visit, meets, visible⟩ := each role term List.mem_cons_self before
      (fun references => sees references [] term terms rfl) own
    have later : ∀ role other, (role, other) ∈ roles.zip terms → _ := fun role other member =>
      each role other (List.mem_cons_of_mem _ member)
    obtain ⟨after, visits, more⟩ := ih between (Nat.succ.inj length) later (fun references front other back split => by
      have seen := sees references (term :: front) other back (congrArg (term :: ·) split)
      rw [List.flatMap_cons, List.reverse_append, Term.declared_reverse, List.append_assoc, ← visible] at seen
      exact seen) (others between meets)
    refine ⟨after, ⟨between, visit, visits⟩, ?_⟩
    rw [List.flatMap_cons]
    exact meets.append more

section
variable {node : Node} {parts : List Term} {role : Role} {statement : Option Ty → NodeId → ValidateM Unit}
  {expression : NodeId → ValidateM Ty}

/-- A node of a piece that is right can be entered where its parts can be visited. -/
theorem Enters.complete (plain : node.isDeclaration = false)
    (stands : (Term.mk id node parts).Of validator.tree)
    (right : WellFormed validator.checks validator.table returns role (.mk id node parts))
    (inside : validator.checks.references = true → Scoped validator.table before.visible (.mk id node parts))
    (fresh : Fresh validator.checks.singleParent (parts.flatMap Term.ids) before)
    (each : ∀ inner part, inner ≠ .declarator → part ∈ parts →
      WellFormed validator.checks validator.table (node.inner validator.table returns) inner part → ∀ before,
      (validator.checks.references = true → Scoped validator.table before.visible part) →
      Fresh validator.checks.singleParent part.ids before →
      validator.Visitable (statement (node.inner validator.table returns)) expression inner part before) :
    ∃ after, validator.Enters statement expression returns id node before after ∧
      Meets validator.checks.singleParent (parts.flatMap Term.ids) before after ∧
      after.visible = (Term.mk id node parts).declared ++ before.visible := by
  have rule := Rule.of_wellFormed stands right inside
  have children : node.children = parts.map Term.id := stands.children
  have stand : ∀ part ∈ parts, part.Of validator.tree := fun part member => stands.parts member
  have faces : node.children.map validator.tree.face = parts.map Term.face := by
    rw [children, Term.faces_of stand]
  have length : (node.roles returns (parts.map Term.face)).length = parts.length := by
    rw [Node.roles_length, children, List.length_map]
  let start : Progress := { before with visible := node.names validator.table ++ before.visible }
  cases right with
  | mk suits fits writable below =>
    have sees : validator.checks.references = true → ∀ front part back, parts = front ++ part :: back →
        Scoped validator.table ((front.flatMap Term.declared).reverse ++ start.visible) part := by
      intro references front part back split
      cases inside references with
      | mk own scopes =>
        have seen := scopes front part back split fun _ => by rintro _ _ rfl; cases plain
        rwa [Node.scope_eq plain fun quiet part member =>
          Node.silent plain children below quiet part (split ▸ List.mem_append_left _ member)] at seen
    have visitable := fun inner part member => each inner part
      (Node.roles_plain plain (List.of_mem_zip member).1) (List.of_mem_zip member).2 (below inner part member)
    obtain ⟨after, visits, meets⟩ := visits_complete start length visitable sees fresh
    refine ⟨{ after with visible := declares validator.tree node ++ before.visible }, ⟨rule, after, ?_, rfl⟩,
      meets.congr rfl rfl, ?_⟩
    · rw [order_plain plain, places, faces, children]
      exact visits
    · rw [← Term.declared_of stands]
      rfl

theorem declarator_complete (stands : term.Of validator.tree)
    (right : WellFormed validator.checks validator.table returns .declarator term)
    (fresh : Fresh validator.checks.singleParent term.ids before) :
    ∃ after, Passes (validator.declarator term.id) before () after ∧
      Meets validator.checks.singleParent term.ids before after := by
  obtain ⟨id, node, parts⟩ := term
  cases right with
  | mk suits fits _ _ =>
    cases node with
    | symbol ref ty =>
      obtain rfl : parts = [] := List.map_eq_nil_iff.mp stands.children.symm
      obtain ⟨expected, known, shape⟩ := fits
      rw [Term.ids_mk, List.flatMap_nil] at fresh ⊢
      obtain ⟨between, fetched⟩ := fetch_passes stands.found fun wanted =>
        (fresh wanted).2 id List.mem_cons_self
      refine ⟨_, declarator_iff.mpr ⟨ref, ty, expected, between, fetched, known, shape, rfl⟩, ?_⟩
      exact (fetch_meets fetched).1.congr rfl rfl
    | _ => cases suits

/-- The initial value is visited before the variable that it is for. -/
theorem Enters.complete_declaration {declared : NodeId} {value : Option NodeId}
    (stands : (Term.mk id (.declaration declared value) parts).Of validator.tree)
    (right : WellFormed validator.checks validator.table returns role (.mk id (.declaration declared value) parts))
    (inside : validator.checks.references = true →
      Scoped validator.table before.visible (.mk id (.declaration declared value) parts))
    (fresh : Fresh validator.checks.singleParent (parts.flatMap Term.ids) before)
    (each : ∀ expected part, part ∈ parts →
      WellFormed validator.checks validator.table returns (.expression expected) part → ∀ before,
      (validator.checks.references = true → Scoped validator.table before.visible part) →
      Fresh validator.checks.singleParent part.ids before →
      validator.Visitable (statement returns) expression (.expression expected) part before) :
    ∃ after, validator.Enters statement expression returns id (.declaration declared value) before after ∧
      Meets validator.checks.singleParent (parts.flatMap Term.ids) before after ∧
      after.visible = (Term.mk id (.declaration declared value) parts).declared ++ before.visible := by
  have rule := Rule.of_wellFormed stands right inside
  have children : declared :: value.toList = parts.map Term.id := stands.children
  have names := Term.declared_of stands
  obtain _ | ⟨first, rest⟩ := parts
  · cases children
  obtain ⟨rfl, later⟩ := List.cons.inj children
  have leaf : first.Of validator.tree := stands.parts List.mem_cons_self
  cases right with
  | mk suits fits writable below =>
    have use := below .declarator first (by simp [Node.roles])
    cases value with
    | none =>
      obtain rfl : rest = [] := List.map_eq_nil_iff.mp later.symm
      have single : [first].flatMap Term.ids = first.ids := List.flatMap_singleton ..
      rw [single] at fresh ⊢
      obtain ⟨after, passes, meets⟩ := declarator_complete leaf use fresh
      exact ⟨_, ⟨rule, after, ⟨after, passes, rfl⟩, rfl⟩, meets.congr rfl rfl, by rw [← names]; rfl⟩
    | some value =>
      obtain _ | ⟨initial, rest⟩ := rest
      · cases later
      obtain ⟨rfl, last⟩ := List.cons.inj later
      obtain rfl : rest = [] := List.map_eq_nil_iff.mp last.symm
      have member : initial ∈ [first, initial] := List.mem_cons_of_mem _ List.mem_cons_self
      have both : [first, initial].flatMap Term.ids = first.ids ++ initial.ids := by simp
      rw [both] at fresh ⊢
      have swapped : Fresh validator.checks.singleParent (initial.ids ++ first.ids) before := fun wanted =>
        ⟨List.perm_append_comm.nodup_iff.mp (fresh wanted).1, fun id inside =>
          (fresh wanted).2 id (List.perm_append_comm.mem_iff.mp inside)⟩
      obtain ⟨own, others⟩ := swapped.split
      have initialized := below (.expression first.face.ty?) initial (by simp [Node.roles])
      have sees : validator.checks.references = true → Scoped validator.table before.visible initial := by
        intro references
        cases inside references with
        | mk _ scopes => exact scopes [first] initial [] rfl (by simp)
      obtain ⟨between, visit, early, visible⟩ := each _ initial member initialized before sees own
      obtain ⟨after, passes, late⟩ := declarator_complete leaf use (others between early)
      refine ⟨_, ⟨rule, after, ⟨between, ?_, after, passes, rfl⟩, rfl⟩, ?_, by rw [← names]; rfl⟩
      · rw [Node.children, List.map_cons, List.head?_cons, Option.bind_some, Term.face_of leaf]
        exact visit
      · exact Meets.perm (early.append (late.congr rfl rfl)) List.perm_append_comm

theorem Enters.complete_node (stands : (Term.mk id node parts).Of validator.tree)
    (right : WellFormed validator.checks validator.table returns role (.mk id node parts))
    (inside : validator.checks.references = true → Scoped validator.table before.visible (.mk id node parts))
    (fresh : Fresh validator.checks.singleParent (parts.flatMap Term.ids) before)
    (each : ∀ inner part, inner ≠ .declarator → part ∈ parts →
      WellFormed validator.checks validator.table (node.inner validator.table returns) inner part → ∀ before,
      (validator.checks.references = true → Scoped validator.table before.visible part) →
      Fresh validator.checks.singleParent part.ids before →
      validator.Visitable (statement (node.inner validator.table returns)) expression inner part before) :
    ∃ after, validator.Enters statement expression returns id node before after ∧
      Meets validator.checks.singleParent (parts.flatMap Term.ids) before after ∧
      after.visible = (Term.mk id node parts).declared ++ before.visible := by
  cases plain : node.isDeclaration with
  | false => exact Enters.complete plain stands right inside fresh each
  | true =>
    cases node with
    | declaration declared value =>
      refine Enters.complete_declaration stands right inside fresh fun expected part => ?_
      exact each (.expression expected) part (by simp)
    | _ => cases plain

end

/-- A piece that is right can be visited by a run that looks far enough. -/
theorem complete {depth : Nat} {role : Role} (use : role ≠ .declarator) (stands : term.Of validator.tree)
    (right : WellFormed validator.checks validator.table returns role term)
    (sees : validator.checks.references = true → Scoped validator.table before.visible term)
    (fresh : Fresh validator.checks.singleParent term.ids before) (high : term.height ≤ depth) :
    validator.Visitable (validator.statement depth returns) (validator.expression depth) role term before := by
  induction term using Term.induct generalizing returns role before depth with
  | step id node parts ih =>
    obtain _ | depth := depth
    · exact absurd high (Nat.not_le_of_lt (Term.height_pos _))
    rw [Term.ids_mk, ← List.singleton_append] at fresh
    obtain ⟨own, others⟩ := fresh.split
    obtain ⟨between, fetched⟩ := fetch_passes stands.found fun wanted => (own wanted).2 id List.mem_cons_self
    obtain ⟨met, seen⟩ := fetch_meets fetched
    have low : ∀ part ∈ parts, part.height ≤ depth := by
      intro part member
      have lower : part.height < (Term.mk id node parts).height := Term.height_lt member
      omega
    have inside : validator.checks.references = true → Scoped validator.table between.visible (.mk id node parts) := by
      rw [seen]
      exact sees
    have each : ∀ levels, depth ≤ levels → ∀ inner part, inner ≠ .declarator → part ∈ parts →
        WellFormed validator.checks validator.table (node.inner validator.table returns) inner part → ∀ before,
        (validator.checks.references = true → Scoped validator.table before.visible part) →
        Fresh validator.checks.singleParent part.ids before →
        validator.Visitable (validator.statement levels (node.inner validator.table returns))
          (validator.expression levels) inner part before :=
      fun levels deep inner part use member right before sees fresh =>
        ih part member use (stands.parts member) right sees fresh (Nat.le_trans (low part member) deep)
    have finish : ∀ {after}, Meets validator.checks.singleParent (parts.flatMap Term.ids) between after →
        after.visible = (Term.mk id node parts).declared ++ between.visible →
        Meets validator.checks.singleParent (Term.mk id node parts).ids before after ∧
          after.visible = (Term.mk id node parts).declared ++ before.visible := by
      intro after meets visible
      rw [Term.ids_mk, ← List.singleton_append, visible, seen]
      exact ⟨met.append meets, rfl⟩
    have entered : ∀ levels, depth ≤ levels → ∃ after,
        validator.Enters (validator.statement levels) (validator.expression levels) returns id node between after ∧
          Meets validator.checks.singleParent (parts.flatMap Term.ids) between after ∧
          after.visible = (Term.mk id node parts).declared ++ between.visible := fun levels deep =>
      Enters.complete_node stands right inside (others between met) (each levels deep)
    cases role with
    | declarator => exact absurd rfl use
    | expression expected =>
      obtain ⟨ty, isExpression, shape⟩ := right.suits
      obtain ⟨after, enters, meets, visible⟩ := entered depth (Nat.le_refl _)
      have rest : Passes (validator.expressionNode (validator.expression depth) id node) between ty after :=
        (expression_enters isExpression (fun _ _ _ _ => expression_typed) fun _ _ _ _ => expression_keeps).mpr enters
      exact ⟨after, ⟨ty, Passes.bind_iff.mpr ⟨node, between, fetched, rest⟩, shape⟩, finish meets visible⟩
    | statement =>
      obtain ⟨after, enters, meets, visible⟩ := entered depth (Nat.le_refl _)
      refine ⟨after, Passes.bind_iff.mpr ⟨node, between, fetched, ?_⟩, finish meets visible⟩
      exact (statementNode_iff (fun _ _ _ _ => expression_typed) (fun _ _ _ _ => expression_keeps)).mpr enters
    | body =>
      cases node with
      | block ids =>
        obtain ⟨after, enters, meets, visible⟩ := entered (depth + 1) (Nat.le_succ _)
        exact ⟨after, Passes.bind_iff.mpr ⟨_, between, fetched, block_iff.mpr enters⟩, finish meets visible⟩
      | _ => cases right.suits

theorem run_iff : validator.run = .ok () ↔
    ∃ after, Passes (validator.body (validator.statement validator.depth none) validator.tree.root) {} () after := by
  change Prod.fst <$> _ = Except.ok () ↔ _
  rw [map_eq_pure_bind, bind_eq_ok]
  constructor
  · rintro ⟨⟨_, after⟩, run, _⟩
    exact ⟨after, run⟩
  · rintro ⟨after, run⟩
    exact ⟨((), after), run, rfl⟩

end Validator

/-- What validation accepts, as a property of the piece at the root. -/
structure Valid (checks : Checks) (table : SymbolTable) (term : Term) : Prop where
  wellFormed : WellFormed checks table none .body term
  sees : checks.references = true → Scoped table [] term
  nodup : checks.singleParent = true → term.ids.Nodup

/-- Validation accepts the trees whose root is a valid piece, and no others. -/
theorem Tree.validate_iff {tree : Tree} {table : SymbolTable} {checks : Checks} :
    tree.validate table checks = .ok () ↔
      ∃ term : Term, term.id = tree.root ∧ term.Of tree ∧ Valid checks table term := by
  let validator : Validator := ⟨checks, tree, table⟩
  change validator.run = .ok () ↔ _
  rw [Validator.run_iff]
  constructor
  · rintro ⟨after, visit⟩
    obtain ⟨term, same, accepted⟩ :=
      Validator.body_sound (validator.statement_sound validator.depth) none tree.root {} after visit
    exact ⟨term, same, accepted.stands, accepted.wellFormed, accepted.sees, accepted.meets.nodup⟩
  · rintro ⟨term, same, stands, valid⟩
    have high : term.height ≤ validator.depth := by
      have bound : term.height ≤ validator.tree.nodes.size := stands.height_le_size
      unfold Validator.depth
      omega
    have visitable : validator.Visitable (validator.statement validator.depth none)
        (validator.expression validator.depth) .body term {} :=
      Validator.complete (by simp) stands valid.wellFormed valid.sees
        (fun single => ⟨valid.nodup single, by simp⟩) high
    obtain ⟨after, visit, _⟩ := visitable
    rw [← same]
    exact ⟨after, visit⟩

end ShaderTree
