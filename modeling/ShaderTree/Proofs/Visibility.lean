import ShaderTree.Proofs.Reachability
import ShaderTree.Proofs.References

/-! Where a variable is in scope, read off the positions of nodes. A declaration binds the
statements after it in its block, the init of a loop binds the rest of the loop, and a
parameter binds the body of its function. The check of references misses a declaration
exactly at the uses that nothing binds. -/
namespace ShaderTree

namespace Tree

def Declares (tree : Tree) (id : NodeId) (ref : SymbolRef) : Prop :=
  ∃ declarator initializer ty, tree.nodes.get? id = some (.declaration declarator initializer) ∧
    tree.nodes.get? declarator = some (.symbol ref ty)

/-- The node at `id` uses the variable `ref` as an expression, and is not there to declare it. -/
structure Uses (tree : Tree) (id : NodeId) (ref : SymbolRef) : Prop where
  reached : tree.Reachable id
  symbol : ∃ ty, tree.nodes.get? id = some (.symbol ref ty)
  plain : ∀ parent initializer, tree.Reachable parent →
    tree.nodes.get? parent ≠ some (.declaration id initializer)

/-- Something around the node at `use` brings the variable `ref` into its scope. -/
inductive Binds (tree : Tree) (table : SymbolTable) (ref : SymbolRef) (use : NodeId) : Prop where
  /-- An earlier statement of a block declares it. The statement that the node stands in is none
  of the earlier ones, so that no declaration binds in its own initial value. -/
  | block {id : NodeId} {front back : List NodeId} {statement earlier : NodeId} (reached : tree.Reachable id)
      (found : tree.nodes.get? id = some (.block (front ++ statement :: back)))
      (below : tree.Below statement use) (before : earlier ∈ front) (declares : tree.Declares earlier ref)
  /-- The init of a loop declares it. -/
  | loop {id : NodeId} {kind : LoopKind} {init : NodeId} {condition step : Option NodeId} {body part : NodeId}
      (reached : tree.Reachable id)
      (found : tree.nodes.get? id = some (.loop kind (some init) condition step body))
      (among : part ∈ condition.toList ++ step.toList ++ [body]) (below : tree.Below part use)
      (declares : tree.Declares init ref)
  /-- It is a parameter of the function. -/
  | parameter {id : NodeId} {function : SymbolRef} {target : Function} {body : NodeId} (reached : tree.Reachable id)
      (found : tree.nodes.get? id = some (.definition function body)) (below : tree.Below body use)
      (known : table.function? function = some target) (among : ref ∈ target.parameters)

end Tree

namespace Term

variable {tree : Tree} {table : SymbolTable} {term piece part : Term} {visible inside : List SymbolRef}
  {ref : SymbolRef} {handle use : NodeId}

theorem mem_declared_iff (stands : term.Of tree) : ref ∈ term.declared ↔ tree.Declares term.id ref := by
  rw [← Term.declared_of stands]
  constructor
  · intro member
    cases node : term.node with
    | declaration declarator initializer =>
      rw [node] at member
      have use : (tree.face declarator).symbol? = some ref := Option.mem_toList.mp member
      cases found : tree.nodes.get? declarator with
      | none => simp [Tree.face, found] at use
      | some other =>
        rw [Tree.face_eq found] at use
        cases other with
        | symbol other ty =>
          obtain rfl : other = ref := Option.some.inj use
          exact ⟨declarator, initializer, ty, by rw [stands.found, node], found⟩
        | _ => cases use
    | _ =>
      rw [node] at member
      cases member
  · rintro ⟨declarator, initializer, ty, own, symbol⟩
    have node : term.node = .declaration declarator initializer := Option.some.inj (stands.found.symm.trans own)
    simp [node, Validator.declares, Tree.face_eq symbol, Node.face, Node.symbol?]

/-- In `term`, with `visible` around it, `piece` stands where `inside` is visible. The pieces that
only declare a variable are left out. -/
inductive Sees (table : SymbolTable) : (visible : List SymbolRef) → Term → (inside : List SymbolRef) → Term → Prop where
  | here {visible : List SymbolRef} {term : Term} : Sees table visible term visible term
  | down {visible inside : List SymbolRef} {id : NodeId} {node : Node} {front back : List Term} {part piece : Term}
      (plain : front = [] → ∀ declarator initializer, node ≠ .declaration declarator initializer)
      (deeper : Sees table (node.scope table visible front) part inside piece) :
      Sees table visible (.mk id node (front ++ part :: back)) inside piece

namespace Sees

theorem trans (first : Sees table visible term between part) (second : Sees table between part inside piece) :
    Sees table visible term inside piece := by
  induction first with
  | here => exact second
  | down plain _ ih => exact .down plain (ih second)

theorem mem_ids (sees : Sees table visible term inside piece) : piece.id ∈ term.ids := by
  induction sees with
  | here => exact id_mem_ids _
  | down _ _ ih => exact mem_ids_of_part (List.mem_append_right _ List.mem_cons_self) ih

theorem stands (sees : Sees table visible term inside piece) (stands : term.Of tree) : piece.Of tree := by
  induction sees with
  | here => exact stands
  | down _ _ ih => exact ih (stands.parts (List.mem_append_right _ List.mem_cons_self))

theorem keeps (sees : Sees table visible term inside piece) (member : ref ∈ visible) : ref ∈ inside := by
  induction sees with
  | here => exact member
  | @down visible _ _ node front _ _ _ _ _ ih =>
    apply ih
    cases node <;> exact List.mem_append_right _ member

theorem parent (sees : Sees table visible term inside piece) (stands : term.Of tree) :
    piece = term ∨ ∃ above : Term, above.id ∈ term.ids ∧ above.Of tree ∧
      ∃ front back, above.parts = front ++ piece :: back ∧
        (front = [] → ∀ declarator initializer, above.node ≠ .declaration declarator initializer) := by
  induction sees with
  | here => exact .inl rfl
  | @down _ _ id node front back part _ plain deeper ih =>
    have member : part ∈ front ++ part :: back := List.mem_append_right _ List.mem_cons_self
    right
    rcases ih (stands.parts member) with rfl | ⟨above, among, standing, split⟩
    · exact ⟨_, id_mem_ids _, stands, front, back, rfl, plain⟩
    · exact ⟨above, mem_ids_of_part member among, standing, split⟩

end Sees

theorem split_unique {first second front back : List Term} {one other : Term}
    (nodup : ((first ++ one :: second).flatMap Term.ids).Nodup) (same : first ++ one :: second = front ++ other :: back)
    (left : handle ∈ one.ids) (right : handle ∈ other.ids) : first = front ∧ one = other := by
  have apart {early late : List Term} {part : Term} (nodup : ((early ++ part :: late).flatMap Term.ids).Nodup)
      (inside : handle ∈ part.ids) : ∀ before ∈ early, handle ∉ before.ids := by
    intro before member again
    rw [List.flatMap_append, List.flatMap_cons] at nodup
    have disjoint := (List.nodup_append'.mp nodup).2.2
    exact disjoint (List.mem_flatMap.mpr ⟨before, member, again⟩) (List.mem_append_left _ inside)
  rcases List.append_eq_append_iff.mp same with ⟨between, rfl, rest⟩ | ⟨between, rfl, rest⟩
  · obtain _ | ⟨next, between⟩ := between
    · exact ⟨(List.append_nil _).symm, (List.cons.inj rest).1⟩
    · obtain ⟨rfl, _⟩ := List.cons.inj rest
      rw [same] at nodup
      exact absurd left (apart nodup right one (by simp))
  · obtain _ | ⟨next, between⟩ := between
    · exact ⟨List.append_nil _, (List.cons.inj rest).1.symm⟩
    · obtain ⟨rfl, _⟩ := List.cons.inj rest
      exact absurd right (apart nodup left other (by simp))

/-- What is visible at a handle does not depend on the way there. -/
theorem Sees.unique (nodup : term.ids.Nodup) (first : Sees table visible term inside piece)
    (second : Sees table visible term others other) (same : piece.id = other.id) : inside = others := by
  induction first with
  | here =>
    cases second with
    | here => rfl
    | down plain deeper =>
      rw [ids_mk, List.nodup_cons] at nodup
      refine absurd (List.mem_flatMap.mpr ⟨_, List.mem_append_right _ List.mem_cons_self, ?_⟩) nodup.1
      have below := deeper.mem_ids
      rwa [← same] at below
  | @down _ _ id node front back part piece plain deeper ih =>
    rw [ids_mk, List.nodup_cons] at nodup
    generalize whole : Term.mk id node (front ++ part :: back) = term at second
    cases second with
    | here =>
      subst whole
      have below := deeper.mem_ids
      rw [same] at below
      exact absurd (List.mem_flatMap.mpr ⟨_, List.mem_append_right _ List.mem_cons_self, below⟩) nodup.1
    | @down _ _ _ _ before after one _ _ others =>
      obtain ⟨rfl, rfl, split⟩ := Term.mk.inj whole
      have here := others.mem_ids
      rw [← same] at here
      obtain ⟨rfl, rfl⟩ := split_unique nodup.2 split deeper.mem_ids here
      exact ih ((List.nodup_flatMap.mp nodup.2).1 part (List.mem_append_right _ List.mem_cons_self)) others same

theorem scoped_iff : Scoped table visible term ↔
    ∀ inside piece, Sees table visible term inside piece → ∀ ref ∈ piece.node.symbol?, ref.VisibleIn inside := by
  constructor
  · intro scopes inside piece sees
    induction sees with
    | here =>
      cases scopes with
      | mk own _ => exact own
    | down plain _ ih =>
      cases scopes with
      | mk _ below => exact ih (below _ _ _ rfl plain)
  · intro each
    induction term using induct generalizing visible with
    | step id node parts ih =>
      refine .mk (each visible _ .here) fun front part back split plain => ?_
      subst split
      apply ih part (List.mem_append_right _ List.mem_cons_self)
      intro inside piece sees
      exact each inside piece (.down plain sees)

structure Regular (term : Term) : Prop where
  /-- A declaration declares what a leaf stands for. -/
  declarator : ∀ declarator initializer, term.node = .declaration declarator initializer →
    ∃ ref ty rest, term.parts = .mk declarator (.symbol ref ty) [] :: rest
  /-- The init is the only part of a loop that declares a variable. -/
  loop : ∀ kind init condition step body, term.node = .loop kind init condition step body →
    ∀ front part back, term.parts = front ++ part :: back → ∀ earlier ∈ front, earlier.declared ≠ [] →
      init = some earlier.id ∧ part.id ∈ condition.toList ++ step.toList ++ [body]

end Term

theorem WellFormed.regular {checks : Checks} {returns : Option Ty} {role : Role} {term : Term}
    (right : WellFormed checks table returns role term) (stands : term.Of tree) : term.Regular := by
  obtain ⟨id, node, parts⟩ := term
  have children : node.children = parts.map Term.id := stands.children
  cases right with
  | mk _ _ _ below =>
    constructor
    · rintro declarator initializer rfl
      obtain _ | ⟨first, rest⟩ := parts
      · cases children
      obtain ⟨rfl, _⟩ := List.cons.inj children
      have leaf : first.Of tree := stands.parts List.mem_cons_self
      have use := (below .declarator first (by simp [Node.roles])).suits
      obtain ⟨own, other, parts⟩ := first
      cases other with
      | symbol ref ty =>
        obtain rfl : parts = [] := List.map_eq_nil_iff.mp leaf.children.symm
        exact ⟨ref, ty, rest, rfl⟩
      | _ => cases use
    · rintro kind init condition step body rfl front part back split earlier among declares
      obtain rfl : parts = front ++ part :: back := split
      cases init with
      | none =>
        have quiet := Node.silent rfl children below (by simp [Node.roles])
        exact absurd (quiet earlier (List.mem_append_left _ among)) declares
      | some init =>
        obtain _ | ⟨first, front⟩ := front
        · cases among
        obtain ⟨rfl, rest⟩ := List.cons.inj children
        have later : condition.toList ++ step.toList ++ [body] = (front ++ part :: back).map Term.id := rest
        -- The rest of the loop is the rest of a loop without an init.
        have quiet := @Node.silent returns [] (.loop kind none condition step body) table checks returns _ rfl later
          (fun role part member => below role part (List.mem_cons_of_mem _ member)) (by simp [Node.roles])
        rcases List.mem_cons.mp among with rfl | inner
        · have member : part.id ∈ (front ++ part :: back).map Term.id :=
            List.mem_map_of_mem (List.mem_append_right _ List.mem_cons_self)
          exact ⟨rfl, later ▸ member⟩
        · exact absurd (quiet earlier (List.mem_append_left _ inner)) declares

namespace Term

variable {tree : Tree} {table : SymbolTable} {term piece part : Term} {visible inside : List SymbolRef}
  {ref : SymbolRef} {use : NodeId}

/-- What a node adds to the scope of a part, it binds below that part. -/
theorem Of.binds_of_scope {id : NodeId} {node : Node} {front back : List Term}
    (stands : (Term.mk id node (front ++ part :: back)).Of tree)
    (regular : (Term.mk id node (front ++ part :: back)).Regular)
    (reached : tree.Reachable id) (below : tree.Below part.id use) (member : ref ∈ node.scope table visible front) :
    ref ∈ visible ∨ tree.Binds table ref use := by
  have found : tree.nodes.get? id = some node := stands.found
  have children : node.children = (front ++ part :: back).map Term.id := stands.children
  have earlier (member : ref ∈ front.flatMap Term.declared) : ∃ other ∈ front, tree.Declares other.id ref ∧
      other.declared ≠ [] := by
    obtain ⟨other, among, declared⟩ := List.mem_flatMap.mp member
    have standing := stands.parts (List.mem_append_left _ among)
    exact ⟨other, among, (mem_declared_iff standing).mp declared, List.ne_nil_of_mem declared⟩
  cases node with
  | block statements =>
    rcases List.mem_append.mp member with new | old
    · obtain ⟨other, among, declares, _⟩ := earlier (List.mem_reverse.mp new)
      obtain rfl : statements = front.map Term.id ++ part.id :: back.map Term.id := by
        rw [← List.map_cons, ← List.map_append]
        exact children
      exact .inr (.block reached found below (List.mem_map_of_mem among) declares)
    · exact .inl old
  | loop kind init condition step body =>
    rcases List.mem_append.mp member with new | old
    · obtain ⟨other, among, declares, visible⟩ := earlier (List.mem_reverse.mp new)
      obtain ⟨rfl, later⟩ := regular.loop kind init condition step body rfl front part back rfl other among visible
      exact .inr (.loop reached found later below declares)
    · exact .inl old
  | definition function body =>
    rcases List.mem_append.mp member with new | old
    · obtain ⟨rfl, rfl⟩ : front = [] ∧ body = part.id := by
        cases front with
        | nil => exact ⟨rfl, (List.cons.inj children).1⟩
        | cons _ _ => simp [Node.children] at children
      cases known : table.function? function with
      | none => simp [Node.names, known] at new
      | some target =>
        rw [Node.names, known] at new
        exact .inr (.parameter reached found below known new)
    · exact .inl old
  | _ => exact .inl member

/-- What is visible at a piece is visible around it all, or something on the way binds it. -/
theorem Sees.binds (sees : Sees table visible term inside piece) (stands : term.Of tree) (regular : term.All Regular)
    (reached : tree.Reachable term.id) (member : ref ∈ inside) : ref ∈ visible ∨ tree.Binds table ref piece.id := by
  induction sees with
  | here => exact .inl member
  | @down _ _ id node front back part piece plain deeper ih =>
    have among : part ∈ front ++ part :: back := List.mem_append_right _ List.mem_cons_self
    have standing : part.Of tree := stands.parts among
    have found : tree.nodes.get? id = some node := stands.found
    have children : node.children = (front ++ part :: back).map Term.id := stands.children
    have step : tree.Child id part.id := ⟨node, found, children ▸ List.mem_map_of_mem among⟩
    rcases ih standing (regular.parts part among) (reached.tail step) member with scope | binds
    · exact stands.binds_of_scope regular.own reached (standing.mem_ids_iff.mp deeper.mem_ids) scope
    · exact .inr binds

theorem Of.sees (stands : term.Of tree) (regular : term.All Regular) (inside : use ∈ term.ids)
    (plain : ∀ parent initializer, parent ∈ term.ids → tree.nodes.get? parent ≠ some (.declaration use initializer)) :
    ∀ visible, ∃ inside piece, Sees table visible term inside piece ∧ piece.id = use := by
  induction stands with
  | @mk id node parts found children stand ih =>
    intro visible
    rw [ids_mk] at inside
    rcases List.mem_cons.mp inside with rfl | deeper
    · exact ⟨visible, _, .here, rfl⟩
    · obtain ⟨part, member, inner⟩ := List.mem_flatMap.mp deeper
      have around : ∀ parent initializer, parent ∈ part.ids →
          tree.nodes.get? parent ≠ some (.declaration use initializer) :=
        fun parent initializer among => plain parent initializer (mem_ids_of_part member among)
      obtain ⟨front, back, rfl⟩ := List.mem_iff_append.mp member
      obtain ⟨inside, piece, sees, same⟩ := ih part member (regular.parts part member) inner around
        (node.scope table visible front)
      refine ⟨inside, piece, .down ?_ sees, same⟩
      rintro rfl declarator initializer rfl
      obtain ⟨ref, ty, rest, leaf⟩ := regular.own.declarator declarator initializer rfl
      obtain ⟨rfl, _⟩ := List.cons.inj leaf
      simp only [ids_mk, List.flatMap_nil, List.mem_singleton] at inner
      exact plain id initializer (id_mem_ids _) (inner ▸ found)

theorem Sees.all {holds : Term → Prop} (sees : Sees table visible term inside piece) (all : term.All holds) :
    piece.All holds := by
  induction sees with
  | here => exact all
  | down _ _ ih => exact ih (all.parts _ (List.mem_append_right _ List.mem_cons_self))

theorem Of.declarator_symbol {parent declarator : NodeId} (stands : term.Of tree) (regular : term.All Regular)
    (inside : parent ∈ term.ids) (found : tree.nodes.get? parent = some (.declaration declarator initializer)) :
    ∃ ref ty, tree.nodes.get? declarator = some (.symbol ref ty) := by
  induction stands with
  | @mk id node parts here children stand ih =>
    rw [ids_mk] at inside
    rcases List.mem_cons.mp inside with rfl | deeper
    · obtain rfl := Option.some.inj (here.symm.trans found)
      obtain ⟨ref, ty, rest, rfl⟩ := regular.own.declarator declarator initializer rfl
      exact ⟨ref, ty, (stand _ List.mem_cons_self).found⟩
    · obtain ⟨part, member, inner⟩ := List.mem_flatMap.mp deeper
      exact ih part member (regular.parts part member) inner

/-- The way to a node through one of the children of a node above it. -/
theorem Of.sees_through {id child : NodeId} {node : Node} {front back : List NodeId} (stands : term.Of tree)
    (regular : term.All Regular) (inside : id ∈ term.ids) (found : tree.nodes.get? id = some node)
    (other : node.symbol? = none) (opens : ∀ declarator initializer, node ≠ .declaration declarator initializer)
    (split : node.children = front ++ child :: back) (below : tree.Below child use)
    (plain : ∀ parent initializer, parent ∈ term.ids → tree.nodes.get? parent ≠ some (.declaration use initializer)) :
    ∃ around early inside piece, early.map Term.id = front ∧ (∀ part ∈ early, part.Of tree) ∧
      Sees table [] term inside piece ∧ piece.id = use ∧ ∀ ref ∈ node.scope table around early, ref ∈ inside := by
  have seen : ∀ parent initializer, parent ∈ term.ids →
      tree.nodes.get? parent ≠ some (.declaration id initializer) := by
    intro parent initializer member declares
    obtain ⟨ref, ty, symbol⟩ := stands.declarator_symbol regular member declares
    obtain rfl := Option.some.inj (found.symm.trans symbol)
    cases other
  obtain ⟨around, ⟨own, same, parts⟩, sees, rfl⟩ := stands.sees regular inside seen []
  have standing := sees.stands stands
  obtain rfl : same = node := Option.some.inj (standing.found.symm.trans found)
  have children : same.children = parts.map Term.id := standing.children
  rw [split] at children
  obtain ⟨early, rest, rfl, rfl, later⟩ := List.map_eq_append_iff.mp children.symm
  obtain ⟨part, late, rfl, rfl, _⟩ := List.map_eq_cons_iff.mp later
  have member : part ∈ early ++ part :: late := List.mem_append_right _ List.mem_cons_self
  have at_part : part.Of tree := standing.parts member
  have deeper : use ∈ part.ids := at_part.mem_ids_iff.mpr below
  have within : ∀ handle ∈ part.ids, handle ∈ term.ids := by
    intro handle among
    apply stands.mem_ids_iff.mpr
    exact (stands.mem_ids_iff.mp inside).trans (standing.mem_ids_iff.mp (mem_ids_of_part member among))
  obtain ⟨inside, piece, rest, reaches⟩ := at_part.sees ((sees.all regular).parts part member) deeper
    (fun parent initializer among => plain parent initializer (within parent among)) (same.scope table around early)
  refine ⟨around, early, inside, piece, rfl, ?_, sees.trans (.down (fun _ => opens) rest), reaches, fun ref => rest.keeps⟩
  exact fun part among => standing.parts (List.mem_append_left _ among)

end Term

variable {tree : Tree} {table : SymbolTable} {term : Term} {ref : SymbolRef} {use : NodeId}

theorem Tree.Binds.sees (binds : tree.Binds table ref use) (stands : term.Of tree) (root : term.id = tree.root)
    (regular : term.All Term.Regular)
    (plain : ∀ parent initializer, parent ∈ term.ids → tree.nodes.get? parent ≠ some (.declaration use initializer)) :
    ∃ inside piece, Term.Sees table [] term inside piece ∧ piece.id = use ∧ ref ∈ inside := by
  cases binds with
  | @block id front back statement earlier reached found below before declares =>
    have inside := (stands.reachable_iff root).mp reached
    obtain ⟨around, early, inside, piece, rfl, stand, sees, same, visible⟩ :=
      stands.sees_through regular inside found rfl (by simp) rfl below plain
    obtain ⟨part, among, rfl⟩ := List.mem_map.mp before
    have declared := (Term.mem_declared_iff (stand part among)).mpr declares
    refine ⟨inside, piece, sees, same, visible ref (List.mem_append_left _ (List.mem_reverse.mpr ?_))⟩
    exact List.mem_flatMap.mpr ⟨part, among, declared⟩
  | @loop id kind init condition step body part reached found among below declares =>
    have inside := (stands.reachable_iff root).mp reached
    obtain ⟨front, back, split⟩ := List.mem_iff_append.mp among
    have children : (Node.loop kind (some init) condition step body).children = (init :: front) ++ part :: back :=
      congrArg (init :: ·) split
    obtain ⟨around, early, inside, piece, start, stand, sees, same, visible⟩ :=
      stands.sees_through regular inside found rfl (by simp) children below plain
    obtain ⟨first, rest, rfl, rfl, _⟩ := List.map_eq_cons_iff.mp start
    have declared := (Term.mem_declared_iff (stand first List.mem_cons_self)).mpr declares
    refine ⟨inside, piece, sees, same, visible ref (List.mem_append_left _ (List.mem_reverse.mpr ?_))⟩
    exact List.mem_flatMap.mpr ⟨first, List.mem_cons_self, declared⟩
  | @parameter id function target body reached found below known among =>
    have inside := (stands.reachable_iff root).mp reached
    have children : (Node.definition function body).children = [] ++ body :: [] := rfl
    obtain ⟨around, early, inside, piece, _, _, sees, same, visible⟩ :=
      stands.sees_through regular inside found rfl (by simp) children below plain
    refine ⟨inside, piece, sees, same, visible ref (List.mem_append_left _ ?_)⟩
    simpa [Node.names, known] using among

theorem Term.Sees.not_declarator {piece : Term} (sees : Term.Sees table visible term inside piece)
    (stands : term.Of tree) (root : term.id = tree.root) (unshared : tree.Unshared) (below : piece ≠ term)
    {parent : NodeId} (among : parent ∈ term.ids) :
    tree.nodes.get? parent ≠ some (.declaration piece.id initializer) := by
  intro found
  obtain ⟨above, within, standing, front, back, split, plain⟩ := (sees.parent stands).resolve_left below
  have reachable : ∀ id ∈ term.ids, tree.Reachable id := fun id => (stands.reachable_iff root).mpr
  have children : above.node.children = front.map Term.id ++ piece.id :: back.map Term.id := by
    rw [standing.children, split, List.map_append, List.map_cons]
  have step : tree.Child above.id piece.id := ⟨above.node, standing.found, by simp [children]⟩
  have other : piece.id ≠ tree.root := by
    intro same
    exact unshared.root above.id (reachable above.id within) (same ▸ step)
  obtain ⟨holder, node, _, here, once, unique⟩ := unshared.parent piece.id (reachable piece.id sees.mem_ids) other
  obtain rfl := unique above.id (reachable above.id within) step
  obtain rfl := unique parent (reachable parent among) ⟨_, found, List.mem_cons_self⟩
  have same : above.node = .declaration piece.id initializer := Option.some.inj (standing.found.symm.trans found)
  obtain rfl : node = above.node := Option.some.inj (here.symm.trans standing.found)
  cases front with
  | nil => exact plain rfl piece.id initializer same
  | cons first rest =>
    rw [same] at children once
    have later : initializer.toList = rest.map Term.id ++ piece.id :: back.map Term.id := (List.cons.inj children).2
    simp only [Node.children, later, List.count_cons_self, List.count_append] at once
    omega

/-- Variables of the pool are in scope everywhere exactly where something binds every use. -/
theorem Scoped.iff_binds (stands : term.Of tree) (root : term.id = tree.root) (nodup : term.ids.Nodup)
    (regular : term.All Term.Regular) (top : term.node.symbol? = none) :
    Scoped table [] term ↔ ∀ use handle, tree.Uses use (.pool handle) → tree.Binds table (.pool handle) use := by
  rw [Term.scoped_iff]
  constructor
  · intro each use handle uses
    have inside := (stands.reachable_iff root).mp uses.reached
    have plain : ∀ parent initializer, parent ∈ term.ids →
        tree.nodes.get? parent ≠ some (.declaration use initializer) :=
      fun parent initializer among => uses.plain parent initializer ((stands.reachable_iff root).mpr among)
    obtain ⟨visible, piece, sees, rfl⟩ := stands.sees regular inside plain []
    obtain ⟨ty, symbol⟩ := uses.symbol
    have node : piece.node = .symbol (.pool handle) ty :=
      Option.some.inj ((sees.stands stands).found.symm.trans symbol)
    have seen := each visible piece sees (.pool handle) (by rw [node]; rfl)
    have member : SymbolRef.pool handle ∈ visible := seen.resolve_left (by simp [SymbolRef.isBuiltIn])
    have reached : tree.Reachable term.id := (stands.reachable_iff root).mpr (Term.id_mem_ids term)
    exact (sees.binds stands regular reached member).resolve_left List.not_mem_nil
  · intro bound visible piece sees ref use
    cases ref with
    | builtIn symbol => exact .inl rfl
    | pool handle =>
      have standing := sees.stands stands
      obtain ⟨ty, node⟩ : ∃ ty, piece.node = .symbol (.pool handle) ty := by
        cases node : piece.node with
        | symbol other ty =>
          rw [node] at use
          obtain rfl := Option.some.inj use
          exact ⟨ty, rfl⟩
        | _ =>
          rw [node] at use
          cases use
      have plain : ∀ parent initializer, parent ∈ term.ids →
          tree.nodes.get? parent ≠ some (.declaration piece.id initializer) := by
        intro parent initializer among
        apply sees.not_declarator stands root (stands.unshared root nodup) _ among
        rintro rfl
        rw [node] at top
        cases top
      have uses : tree.Uses piece.id (.pool handle) :=
        ⟨(stands.reachable_iff root).mpr sees.mem_ids, ⟨ty, node ▸ standing.found⟩, fun parent initializer reached =>
          plain parent initializer ((stands.reachable_iff root).mp reached)⟩
      obtain ⟨inside, other, again, same, member⟩ :=
        (bound piece.id handle uses).sees stands root regular plain
      rw [sees.unique nodup again same.symm]
      exact .inr member

theorem WellFormed.tighten {checks : Checks} {returns : Option Ty} {role : Role} (types : checks.types = true)
    (right : WellFormed { checks with references := false } table returns role term) :
    WellFormed { checks with references := true } table returns role term := by
  generalize lax : { checks with references := false } = other at right
  induction right with
  | @mk returns role id node parts suits fits writable below ih =>
    subst lax
    refine .mk ?_ ?_ writable ih
    · cases role <;> exact suits
    · cases node with
      | aggregate op arguments ty =>
        cases op with
        | construct => exact fits
        | call function =>
          obtain ⟨shown, known, _, takes⟩ := fits
          obtain ⟨target, found, _⟩ := takes types
          exact ⟨shown, known, fun _ => Option.isSome_iff_exists.mpr ⟨target, found⟩, takes⟩
      | _ => exact fits

/-- Over a program that is valid but for references, the check of references reports a variable that
is not declared exactly where some use of a variable has nothing that binds it. Such a program has
no cycles, and its calls name functions, by the checks that it passes. -/
theorem Tree.undeclared_iff (accepted : tree.validate table { Checks.all with references := false } = .ok ()) :
    (∃ id name, tree.validate table .all = .error (.invalid (.undeclaredVariable id name))) ↔
      ∃ use handle, tree.Uses use (.pool handle) ∧ ¬ tree.Binds table (.pool handle) use := by
  obtain ⟨term, root, stands, lax⟩ := validate_iff.mp accepted
  have regular : term.All Term.Regular :=
    lax.wellFormed.all stands fun returns role term stands right => right.regular stands
  have top : term.node.symbol? = none := by
    have body := lax.wellFormed.suits
    obtain ⟨id, node, parts⟩ := term
    cases node <;> first | rfl | cases body
  have scopes : Scoped table [] term ↔ _ := Scoped.iff_binds stands root (lax.nodup rfl) regular top
  have valid : tree.validate table .all = .ok () ↔ Scoped table [] term := by
    rw [validate_iff]
    constructor
    · rintro ⟨other, same, standing, valid⟩
      obtain rfl := standing.unique stands (same.trans root.symm)
      exact valid.sees rfl
    · intro sees
      exact ⟨term, root, stands, lax.wellFormed.tighten rfl, fun _ => sees, fun _ => lax.nodup rfl⟩
  have unbound : ¬ Scoped table [] term ↔
      ∃ use handle, tree.Uses use (.pool handle) ∧ ¬ tree.Binds table (.pool handle) use := by
    rw [scopes]
    simp only [not_forall, exists_prop]
  rw [← unbound, ← valid]
  constructor
  · rintro ⟨id, name, fails⟩ passes
    cases fails.symm.trans passes
  · exact (validate_referring rfl accepted).resolve_left

/-- The program `float x = x;`. -/
def Tree.selfInitialized : Tree :=
  { nodes := ⟨#[.block [⟨1⟩], .declaration ⟨2⟩ (some ⟨3⟩), .symbol (.pool ⟨0⟩) .float, .symbol (.pool ⟨0⟩) .float]⟩
    root := ⟨0⟩ }

def SymbolTable.oneFloat : SymbolTable :=
  { pool := ⟨#[{ rawName := "x", id := ⟨96⟩, origin := .userDefined, kind := .var { ty := .float } }]⟩
    builtIns := {}
    profile := {} }

theorem Tree.undeclared_iff_selfInitialized :
    selfInitialized.validate .oneFloat { Checks.all with references := false } = .ok () ∧
      selfInitialized.validate .oneFloat .all = .error (.invalid (.undeclaredVariable ⟨3⟩ "x")) ∧
      ∃ use handle, selfInitialized.Uses use (.pool handle) ∧ ¬ selfInitialized.Binds .oneFloat (.pool handle) use := by
  have accepted : selfInitialized.validate .oneFloat { Checks.all with references := false } = .ok () := rfl
  have fails : selfInitialized.validate .oneFloat .all = .error (.invalid (.undeclaredVariable ⟨3⟩ "x")) := rfl
  exact ⟨accepted, fails, (undeclared_iff accepted).mp ⟨_, _, fails⟩⟩

end ShaderTree
