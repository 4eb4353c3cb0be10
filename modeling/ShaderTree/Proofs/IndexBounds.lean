import ShaderTree.Proofs.Constructor
import ShaderTree.Proofs.Reachability

/-! Constant indices of a valid program. Each is less than the number of elements,
components or columns of what it indexes, and nothing else is asked of it: a program
stays valid when another integer of the same kind is written in the place of an index
exactly if that integer is less as well, and every negative one is. -/
namespace ShaderTree

def Scalar.integer? : Scalar → Option Int
  | sint value => some value.toInt
  | uint value => some value.toNat
  | _ => none

/-- A negative constant is no index, so nothing bounds it from below. -/
theorem Node.index?_lt_iff {scalar : Scalar} {value : Int} {kind : Ty} {bound : Nat}
    (integer : scalar.integer? = some value) :
    (∀ index ∈ (Node.constant [scalar] kind).index?, index < bound) ↔ value < bound := by
  cases scalar with
  | sint own =>
    obtain rfl : own.toInt = value := Option.some.inj integer
    have sign : 0 ≤ own ↔ 0 ≤ own.toInt := Int32.le_iff_toInt_le
    simp only [index?, sign, Option.mem_def, Option.ite_none_right_eq_some, Option.some.injEq, and_imp]
    constructor
    · intro bounded
      by_cases positive : 0 ≤ own.toInt
      · have := bounded _ positive rfl
        omega
      · omega
    · rintro bounded _ positive rfl
      omega
  | uint own =>
    obtain rfl : (own.toNat : Int) = value := Option.some.inj integer
    simp [index?]
  | float bits => cases integer
  | bool own => cases integer

/-- What is seen of a part, apart from the index that it is. -/
def Face.blind (face : Face) : Face := { face with index? := none }

theorem Face.types_of_blind {faces others : List Face} (same : others.map Face.blind = faces.map Face.blind) :
    others.map Face.ty? = faces.map Face.ty? := by
  have shown := congrArg (List.map Face.ty?) same
  rw [List.map_map, List.map_map] at shown
  exact shown

theorem Face.ids_of_blind {faces others : List Face} (same : others.map Face.blind = faces.map Face.blind) :
    others.map Face.id = faces.map Face.id := by
  have shown := congrArg (List.map Face.id) same
  rw [List.map_map, List.map_map] at shown
  exact shown

section
variable {checks : Checks} {table : SymbolTable} {returns : Option Ty} {role : Role} {id : NodeId} {node : Node}
  {faces others : List Face}

theorem Role.Suits.congr {face other : Face} (same : other.blind = face.blind) (suits : role.Suits checks face) :
    role.Suits checks other := by
  obtain ⟨_, ty, symbol, _, block⟩ := face
  obtain ⟨_, otherTy, otherSymbol, _, otherBlock⟩ := other
  simp only [Face.blind, Face.mk.injEq] at same
  obtain ⟨-, rfl, rfl, -, rfl⟩ := same
  cases role <;> exact suits

/-- The index that a part is matters to an index operator only. -/
theorem Node.Fits.reindex (same : others.map Face.blind = faces.map Face.blind)
    (bounded : ∀ left right ty, node = .binary .indexDirect left right ty → ∀ base index,
      others = [base, index] → faces.getLast? = some index ∨
        ∀ baseTy, base.ty? = some baseTy → ∀ position ∈ index.index?, position < baseTy.extent)
    (fits : node.Fits checks table returns faces id) : node.Fits checks table returns others id := by
  have types := Face.types_of_blind same
  have ids := Face.ids_of_blind same
  cases node with
  | binary op left right ty =>
    obtain ⟨first, second, firstTy, secondTy, rfl, known, shown, agrees⟩ := fits
    obtain ⟨base, index, rfl⟩ : ∃ base index, others = [base, index] :=
      List.length_eq_two.mp (by simpa using congrArg List.length same)
    simp only [List.map_cons, List.map_nil, List.cons.injEq, and_true] at types
    have baseTy : base.ty? = some firstTy := types.1.trans known
    refine ⟨base, index, firstTy, secondTy, rfl, baseTy, types.2.trans shown, fun wanted => ⟨?_, (agrees wanted).2⟩⟩
    rintro rfl
    rcases bounded left right ty rfl base index rfl with last | low
    · obtain rfl : second = index := Option.some.inj last
      exact (agrees wanted).1 rfl
    · exact low firstTy baseTy
  | unary op operand ty =>
    obtain ⟨first, firstTy, rfl, known, agrees⟩ := fits
    obtain ⟨other, rfl⟩ : ∃ other, others = [other] :=
      List.length_eq_one_iff.mp (by simpa using congrArg List.length same)
    simp only [List.map_cons, List.map_nil, List.cons.injEq, and_true] at types
    exact ⟨other, firstTy, rfl, types.trans known, agrees⟩
  | aggregate op arguments ty =>
    cases op with
    | construct =>
      obtain ⟨shown, known, agrees⟩ := fits
      exact ⟨shown, types.trans known, by rwa [ids]⟩
    | call function =>
      obtain ⟨shown, known, agrees⟩ := fits
      exact ⟨shown, types.trans known, agrees⟩
  | _ => exact fits

theorem Node.roles_congr (same : others.map Face.blind = faces.map Face.blind) :
    node.roles returns others = node.roles returns faces := by
  have types := Face.types_of_blind same
  cases node with
  | declaration declarator initializer =>
    have first : others.head?.bind Face.ty? = faces.head?.bind Face.ty? := by
      cases others <;> cases faces <;> simp_all
    simp only [roles, first]
  | _ => rfl

end

namespace Term

/-- The piece with another node at `spot`. -/
def write (spot : NodeId) (written : Node) : Term → Term
  | mk id node parts => mk id (if id = spot then written else node) (parts.map (write spot written))
  termination_by term => sizeOf term

variable {tree after : Tree} {term : Term} {spot : NodeId} {values : List Scalar} {kind : Ty} {written : Node}

theorem write_mk (id : NodeId) (node : Node) (parts : List Term) :
    (mk id node parts).write spot written =
      mk id (if id = spot then written else node) (parts.map (write spot written)) := by rw [write]

@[simp] theorem write_id : (term.write spot written).id = term.id := by
  obtain ⟨id, node, parts⟩ := term
  rw [write_mk]
  rfl

theorem write_ids : (term.write spot written).ids = term.ids := by
  induction term using induct with
  | step id node parts ih =>
    rw [write_mk, ids_mk, ids_mk, List.flatMap_map]
    exact congrArg (id :: ·) (List.flatMap_congr ih)

theorem write_face (other : term.id ≠ spot) : (term.write spot written).face = term.face := by
  obtain ⟨id, node, parts⟩ := term
  have apart : id ≠ spot := other
  rw [write_mk, if_neg apart]
  rfl

theorem write_face_self (term : Term) : (term.write term.id written).face = written.face term.id := by
  obtain ⟨id, node, parts⟩ := term
  rw [write_mk]
  exact congrArg (Node.face id) (if_pos rfl)

section
variable (others : List Scalar) (found : tree.nodes.get? spot = some (.constant values kind)) (stands : term.Of tree)
include found stands

/-- The node written is a constant of the type of the one before. -/
theorem write_node : (term.write spot (.constant others kind)).node = term.node ∨
    term.node = .constant values kind ∧ (term.write spot (.constant others kind)).node = .constant others kind := by
  obtain ⟨id, node, parts⟩ := term
  rw [write_mk]
  by_cases here : id = spot
  · subst here
    exact .inr ⟨Option.some.inj (stands.found.symm.trans found), if_pos rfl⟩
  · exact .inl (if_neg here)

theorem write_blind : (term.write spot (.constant others kind)).face.blind = term.face.blind := by
  unfold Term.face
  rw [write_id]
  rcases write_node others found stands with same | ⟨old, new⟩
  · rw [same]
  · rw [old, new]
    rfl

theorem write_symbol : (term.write spot (.constant others kind)).node.symbol? = term.node.symbol? := by
  rcases write_node others found stands with same | ⟨old, new⟩
  · rw [same]
  · rw [old, new]
    rfl

theorem write_stands (changes : tree.Changes after [spot] [])
    (written : after.nodes.get? spot = some (.constant others kind)) :
    (term.write spot (.constant others kind)).Of after := by
  induction stands with
  | @mk id node parts own children stand ih =>
    rw [write_mk]
    have standing : ∀ part ∈ parts.map (write spot (.constant others kind)), part.Of after := by
      intro part member
      obtain ⟨source, among, rfl⟩ := List.mem_map.mp member
      exact ih source among
    have ids : (parts.map (write spot (.constant others kind))).map Term.id = parts.map Term.id := by
      rw [List.map_map]
      exact List.map_congr_left fun part _ => write_id
    by_cases here : id = spot
    · subst here
      obtain rfl : node = .constant values kind := Option.some.inj (own.symm.trans found)
      refine .mk (written.trans (congrArg some (if_pos rfl).symm)) ?_ standing
      rw [if_pos rfl, ids, ← children]
      rfl
    · have kept := changes.kept id (Arena.get?_eq_some_lt own) (by simpa using here)
      refine .mk ?_ ?_ standing
      · rw [kept, own, if_neg here]
      · rw [if_neg here, ids, children]

theorem write_root : (term.write spot (.constant others kind)).root? = term.root? := by
  induction stands with
  | @mk id node parts own children stand ih =>
    rw [write_mk]
    by_cases here : id = spot
    · subst here
      obtain rfl : node = .constant values kind := Option.some.inj (own.symm.trans found)
      rw [if_pos rfl]
      rfl
    · rw [if_neg here]
      cases node with
      | binary op left right ty =>
        cases parts with
        | nil => rfl
        | cons part parts => simp only [List.map_cons, root?, ih part List.mem_cons_self]
      | _ => rfl

theorem write_declared : (term.write spot (.constant others kind)).declared = term.declared := by
  obtain ⟨id, node, parts⟩ := term
  rw [write_mk]
  by_cases here : id = spot
  · subst here
    obtain rfl : node = .constant values kind := Option.some.inj (stands.found.symm.trans found)
    rw [if_pos rfl]
    rfl
  · rw [if_neg here]
    cases node with
    | declaration declarator value =>
      cases parts with
      | nil => rfl
      | cons part parts =>
        have same := write_symbol others found (stands.parts List.mem_cons_self)
        exact congrArg Option.toList same
    | _ => rfl

end

theorem write_faces (others : List Scalar) (found : tree.nodes.get? spot = some (.constant values kind)) {parts : List Term}
    (stand : ∀ part ∈ parts, part.Of tree) :
    ((parts.map (write spot (.constant others kind))).map face).map Face.blind = (parts.map face).map Face.blind := by
  rw [List.map_map, List.map_map, List.map_map]
  exact List.map_congr_left fun part member => write_blind others found (stand part member)

end Term

section
variable {checks : Checks} {table : SymbolTable} {returns : Option Ty} {role : Role} {term : Term} {tree : Tree}
  {spot : NodeId} {scalar other : Scalar} {kind : Ty} {visible : List SymbolRef}

/-- A constant of the same kind fits, and where it is an index it has to be in bounds. -/
theorem WellFormed.write (found : tree.nodes.get? spot = some (.constant [scalar] kind)) (stands : term.Of tree)
    (alike : other.kind = scalar.kind)
    (bounded : ∀ id left ty base, id ∈ term.ids → tree.nodes.get? id = some (.binary .indexDirect left spot ty) →
      (tree.face left).ty? = some base → ∀ index ∈ (Node.constant [other] kind).index?, index < base.extent)
    (right : WellFormed checks table returns role term) :
    WellFormed checks table returns role (term.write spot (.constant [other] kind)) := by
  induction right with
  | @mk returns role id node parts suits fits writable below ih =>
    have seen := suits.congr (Term.write_blind [other] found stands)
    have own : tree.nodes.get? id = some node := stands.found
    have children : node.children = parts.map Term.id := stands.children
    have stand : ∀ part ∈ parts, part.Of tree := fun part member => stands.parts member
    rw [Term.write_mk] at seen ⊢
    by_cases here : id = spot
    · subst here
      obtain rfl : node = .constant [scalar] kind := Option.some.inj (own.symm.trans found)
      rw [if_pos rfl] at seen ⊢
      refine .mk seen ?_ (by simp [Node.writes]) (by simp [Node.roles])
      rcases fits with struct | ⟨size, counted, agrees⟩
      · exact .inl struct
      · exact .inr ⟨size, counted, fun wanted => by simpa [alike] using agrees wanted⟩
    · have faces := Term.write_faces [other] found stand
      rw [if_neg here] at seen ⊢
      refine .mk seen (fits.reindex faces ?_) ?_ ?_
      · rintro left index ty rfl base position split
        obtain ⟨first, second, rfl⟩ : ∃ first second, parts = [first, second] :=
          List.length_eq_two.mp (by simpa using congrArg List.length split)
        obtain ⟨rfl, rfl⟩ : left = first.id ∧ index = second.id := by simpa [Node.children] using children
        obtain ⟨rfl, rfl⟩ : (first.write spot _).face = base ∧ (second.write spot _).face = position := by
          simpa using split
        by_cases spotted : second.id = spot
        · subst spotted
          refine .inr fun baseTy typed position known => ?_
          have base : first.face.ty? = some baseTy :=
            (congrArg Face.ty? (Term.write_blind [other] found (stand first List.mem_cons_self))).symm.trans typed
          rw [Term.write_face_self] at known
          refine bounded id first.id ty baseTy (Term.id_mem_ids _) own ?_ position known
          rw [Term.face_of (stand first List.mem_cons_self), base]
        · exact .inl (by simp [Term.write_face spotted])
      · intro writes part first symbol root
        rw [List.head?_map, Option.mem_def, Option.map_eq_some_iff] at first
        obtain ⟨source, first, rfl⟩ := first
        rw [Term.write_root [other] found (stand source (List.mem_of_mem_head? first))] at root
        exact writable writes source first symbol root
      · intro role part among
        rw [Node.roles_congr faces, List.zip_map_right, List.mem_map] at among
        obtain ⟨⟨_, source⟩, among, same⟩ := among
        obtain ⟨rfl, rfl⟩ := Prod.mk.inj same
        have member := (List.of_mem_zip among).2
        exact ih _ source among (stand source member) fun id left ty base inside =>
          bounded id left ty base (Term.mem_ids_of_part member inside)

/-- Constants have no part in the scopes of variables. -/
theorem Scoped.write (found : tree.nodes.get? spot = some (.constant [scalar] kind)) (stands : term.Of tree)
    (sees : Scoped table visible term) : Scoped table visible (term.write spot (.constant [other] kind)) := by
  induction sees with
  | @mk visible id node parts own below ih =>
    rw [Term.write_mk]
    by_cases here : id = spot
    · subst here
      obtain rfl : node = .constant [scalar] kind := Option.some.inj (stands.found.symm.trans found)
      have leaf : parts = [] := List.map_eq_nil_iff.mp stands.children.symm
      subst leaf
      rw [if_pos rfl]
      exact .mk (by simp [Node.symbol?]) (by simp)
    · rw [if_neg here]
      refine .mk own fun front part back split plain => ?_
      obtain ⟨first, rest, rfl, rfl, tail⟩ := List.map_eq_append_iff.mp split
      obtain ⟨source, last, rfl, rfl, rfl⟩ := List.map_eq_cons_iff.mp tail
      have declared : (first.map (Term.write spot (.constant [other] kind))).flatMap Term.declared =
          first.flatMap Term.declared := by
        rw [List.flatMap_map]
        exact List.flatMap_congr fun part member =>
          Term.write_declared [other] found (stands.parts (List.mem_append_left _ member))
      have scope : node.scope table visible (first.map (Term.write spot (.constant [other] kind))) =
          node.scope table visible first := by
        cases node <;> simp only [Node.scope, declared]
      rw [scope]
      exact ih first source last rfl (fun none => plain (by rw [none, List.map_nil]))
        (stands.parts (List.mem_append_right _ List.mem_cons_self))

/-- What is read as an index in a valid program is in bounds. -/
theorem Valid.index_lt {id left right : NodeId} {ty : Ty} (valid : Valid checks table term)
    (types : checks.types = true) (stands : term.Of tree) (inside : id ∈ term.ids)
    (index : tree.nodes.get? id = some (.binary .indexDirect left right ty)) :
    ∃ base, (tree.face left).ty? = some base ∧ ∀ position ∈ (tree.face right).index?, position < base.extent := by
  obtain ⟨_, _, _, base, _, faces, known, _, agrees⟩ := valid.fits stands inside index
  cases faces
  exact ⟨base, known, (agrees types).1 rfl⟩

end

theorem Tree.ty?_eq_ok_of_face {tree : Tree} {id : NodeId} {ty : Ty} (typed : (tree.face id).ty? = some ty) :
    tree.ty? id = .ok (some ty) := by
  cases found : tree.nodes.get? id with
  | none => simp [face, found] at typed
  | some node =>
    rw [ty?_eq_ok found, ← typed, face_eq found]
    rfl

/-- Nodes keep their types where a constant becomes another of its type. -/
theorem Tree.Changes.typed {tree after : Tree} {spot id : NodeId} {values others : List Scalar} {kind ty : Ty}
    (changes : tree.Changes after [spot] []) (found : tree.nodes.get? spot = some (.constant values kind))
    (written : after.nodes.get? spot = some (.constant others kind)) (typed : (tree.face id).ty? = some ty) :
    (after.face id).ty? = some ty := by
  by_cases here : id = spot
  · subst here
    rw [face_eq written]
    rw [face_eq found] at typed
    exact typed
  · cases own : tree.nodes.get? id with
    | none => simp [face, own] at typed
    | some node =>
      rw [face_eq own] at typed
      rw [face_eq ((changes.kept id (Arena.get?_eq_some_lt own) (by simpa using here)).trans own)]
      exact typed

/-- In a valid program an integer constant used as an index is less than what it indexes has places.
Any other integer of its kind may stand there that is less as well, and no other: that an index is
not negative is not looked at. -/
theorem Tree.validate_index_iff {tree : Tree} {table : SymbolTable} {id left right : NodeId} {ty kind : Ty}
    {scalar : Scalar} {value : Int} (accepted : tree.validate table .all = .ok ()) (reached : tree.Reachable id)
    (index : tree.nodes.get? id = some (.binary .indexDirect left right ty))
    (constant : tree.nodes.get? right = some (.constant [scalar] kind)) (integer : scalar.integer? = some value) :
    ∃ base, tree.ty? left = .ok (some base) ∧ value < base.extent ∧
      ∀ (other : Scalar) (position : Int), other.kind = scalar.kind → other.integer? = some position →
        ∃ after, tree.write right (.constant [other] kind) = .ok after ∧
          (after.validate table .all = .ok () ↔ position < base.extent) := by
  obtain ⟨term, root, stands, valid⟩ := validate_iff.mp accepted
  have inside := (stands.reachable_iff root).mp reached
  obtain ⟨base, typed, bounded⟩ := valid.index_lt rfl stands inside index
  rw [face_eq constant] at bounded
  have known : tree.ty? left = .ok (some base) := ty?_eq_ok_of_face typed
  refine ⟨base, known, (Node.index?_lt_iff integer).mp bounded, fun other position alike number => ?_⟩
  obtain ⟨after, wrote, changes, _, written⟩ :=
    write_changes (.constant [other] kind) (Arena.get?_eq_some_lt constant)
  have standing := Term.write_stands [other] constant stands changes written
  refine ⟨after, wrote, fun again => ?_, fun low => ?_⟩
  · obtain ⟨found, top, stood, valid⟩ := validate_iff.mp again
    obtain rfl := stood.unique standing (top.trans (changes.root.trans (root.symm.trans Term.write_id.symm)))
    have apart : id ≠ right := by
      rintro rfl
      cases index.symm.trans constant
    have kept := changes.kept id (Arena.get?_eq_some_lt index) (by simpa using apart)
    have within : id ∈ (term.write right (.constant [other] kind)).ids := by
      rw [Term.write_ids]
      exact inside
    obtain ⟨shown, face, below⟩ := valid.index_lt rfl stood within (kept.trans index)
    obtain rfl := Option.some.inj (face.symm.trans (changes.typed constant written typed))
    rw [face_eq written] at below
    exact (Node.index?_lt_iff number).mp below
  · refine validate_iff.mpr ⟨term.write right (.constant [other] kind), ?_, standing, ?_, ?_, ?_⟩
    · rw [Term.write_id, root, changes.root]
    · refine valid.wellFormed.write constant stands alike ?_
      intro parent first type extent among operator face
      -- The index operator is the only node with this constant below it.
      have unshared := stands.unshared root (valid.nodup rfl)
      have above : tree.Child id right := ⟨_, index, by simp [Node.children]⟩
      have again : tree.Child parent right := ⟨_, operator, by simp [Node.children]⟩
      obtain rfl := unshared.parent_unique reached above ((stands.reachable_iff root).mpr among) again
      obtain ⟨rfl, rfl⟩ : left = first ∧ ty = type := by simpa using index.symm.trans operator
      obtain rfl := Option.some.inj (typed.symm.trans face)
      exact (Node.index?_lt_iff number).mpr low
    · exact fun references => (valid.sees references).write constant stands
    · intro single
      rw [Term.write_ids]
      exact valid.nodup single

/-- The program `vec2 v; v[1];`. -/
def Tree.component : Tree :=
  { nodes :=
      ⟨#[.block [⟨1⟩, ⟨3⟩], .declaration ⟨2⟩ none, .symbol (.pool ⟨0⟩) (.vector .float .two),
        .binary .indexDirect ⟨4⟩ ⟨5⟩ .float, .symbol (.pool ⟨0⟩) (.vector .float .two), .constant [.sint 1] .int]⟩
    root := ⟨0⟩ }

def SymbolTable.oneVector : SymbolTable :=
  { pool :=
      ⟨#[{ rawName := "v", id := ⟨96⟩, origin := .userDefined, kind := .var { ty := .vector .float .two } }]⟩
    builtIns := {}
    profile := {} }

/-- With `v[-1]` in the place of `v[1]` the program is valid. -/
theorem Tree.validate_index_iff_component :
    component.validate .oneVector .all = .ok () ∧ component.Reachable ⟨3⟩ ∧
      component.nodes.get? ⟨3⟩ = some (.binary .indexDirect ⟨4⟩ ⟨5⟩ .float) ∧
      component.nodes.get? ⟨5⟩ = some (.constant [.sint 1] .int) ∧ (Scalar.sint 1).integer? = some 1 ∧
      ∃ after, component.write ⟨5⟩ (.constant [.sint (-1)] .int) = .ok after ∧
        after.validate .oneVector .all = .ok () := by
  have accepted : component.validate .oneVector .all = .ok () := rfl
  have reached : component.Reachable ⟨3⟩ := .tail .refl ⟨.block [⟨1⟩, ⟨3⟩], rfl, by simp [Node.children]⟩
  have number : (Scalar.sint 1).integer? = some 1 := by decide
  refine ⟨accepted, reached, rfl, rfl, number, ?_⟩
  obtain ⟨base, known, _, others⟩ := validate_index_iff accepted reached rfl rfl number
  obtain ⟨after, wrote, valid⟩ := others (.sint (-1)) (-1) rfl (by decide)
  exact ⟨after, wrote, valid.mpr (by omega)⟩

end ShaderTree
