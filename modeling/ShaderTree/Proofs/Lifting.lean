import ShaderTree.Proofs.Preservation

/-! Scopes under scalarization. The arguments of a split constructor move in front of a
statement of the block around it, where less may be in scope than at the constructor: what
the initialization of a loop declares is not. Where they keep what they use, and only
there, the rewritten piece has its variables in scope. -/
namespace ShaderTree

def InSequence (table : SymbolTable) : (visible : List SymbolRef) → List Term → Prop
  | _, [] => True
  | visible, statement :: rest =>
    Scoped table visible statement ∧ InSequence table (statement.declared ++ visible) rest

/-- Scalarization moves nothing out of the scope of what it uses: `outer` is in scope where a
statement of the innermost block starts and `visible` at the piece itself. -/
inductive Liftable (table : SymbolTable) : (outer visible : List SymbolRef) → Term → Prop where
  | split {outer visible : List SymbolRef} {id : NodeId} {ids : List NodeId} {ty : Ty} {arguments : List Term}
      (mixed : (Term.mk id (.aggregate .construct ids ty) arguments).mixes = true)
      (each : ∀ argument ∈ arguments, Scoped table outer argument) :
      Liftable table outer visible (.mk id (.aggregate .construct ids ty) arguments)
  | keep {outer visible : List SymbolRef} {id : NodeId} {node : Node} {parts : List Term}
      (plain : (Term.mk id node parts).mixes = false) (inner : node.isBlock = false)
      (below : ∀ front part back, parts = front ++ part :: back →
        Liftable table outer (node.scope table visible front) part) :
      Liftable table outer visible (.mk id node parts)
  | block {outer visible : List SymbolRef} {id : NodeId} {ids : List NodeId} {parts : List Term}
      (below : ∀ front part back, parts = front ++ part :: back →
        Liftable table ((front.flatMap Term.declared).reverse ++ visible)
          ((front.flatMap Term.declared).reverse ++ visible) part) :
      Liftable table outer visible (.mk id (.block ids) parts)

section
variable {table : SymbolTable} {visible outer wider : List SymbolRef} {term : Term}

theorem Liftable.use {ref : SymbolRef} {ty : Ty} (use : term.node = .symbol ref ty) (leaf : term.parts = []) :
    Liftable table outer visible term := by
  obtain ⟨id, node, parts⟩ := term
  obtain rfl : node = .symbol ref ty := use
  obtain rfl : parts = [] := leaf
  exact .keep rfl rfl fun front part back split => by cases front <;> cases split

theorem forall_split_cons {holds : List α → α → Prop} {first : α} {rest : List α} :
    (∀ front item back, first :: rest = front ++ item :: back → holds front item) ↔
      holds [] first ∧ ∀ front item back, rest = front ++ item :: back → holds (first :: front) item := by
  constructor
  · intro each
    exact ⟨each [] first rest rfl, fun front item back split => each (first :: front) item back (by rw [split]; rfl)⟩
  · rintro ⟨own, others⟩ front item back split
    obtain _ | ⟨other, front⟩ := front
    · cases split
      exact own
    · obtain ⟨rfl, rest⟩ := List.cons.inj split
      exact others front item back rest

theorem InSequence.append_iff {first second : List Term} : InSequence table visible (first ++ second) ↔
    InSequence table visible first ∧
      InSequence table ((first.flatMap Term.declared).reverse ++ visible) second := by
  induction first generalizing visible with
  | nil => simp [InSequence]
  | cons statement rest ih =>
    simp only [List.cons_append, InSequence, ih, List.flatMap_cons, List.reverse_append,
      Term.declared_reverse, List.append_assoc, and_assoc]

theorem Scoped.block_iff {id : NodeId} {ids : List NodeId} {parts : List Term} :
    Scoped table visible (.mk id (.block ids) parts) ↔ InSequence table visible parts := by
  have turn : Scoped table visible (.mk id (.block ids) parts) ↔ ∀ front part back, parts = front ++ part :: back →
      Scoped table ((front.flatMap Term.declared).reverse ++ visible) part := by
    constructor
    · rintro ⟨_, below⟩ front part back split
      exact below front part back split (by simp)
    · intro below
      exact .mk (by simp [Node.symbol?]) fun front part back split _ => below front part back split
  rw [turn]
  clear turn
  induction parts generalizing visible with
  | nil => simp [InSequence]
  | cons part parts ih =>
    rw [forall_split_cons, InSequence]
    refine and_congr Iff.rfl (Iff.trans ?_ ih)
    simp only [List.flatMap_cons, List.reverse_append, Term.declared_reverse, List.append_assoc]

end

/-- What `before` lets be seen in `outer` can be seen in `wider`. -/
def SeenIn (table : SymbolTable) (outer wider : List SymbolRef) : Prop :=
  ∀ ref ∈ outer, (∃ symbol, table.resolve ref = .ok symbol) → ref ∈ wider

theorem SeenIn.nil (table : SymbolTable) (wider : List SymbolRef) : SeenIn table [] wider :=
  fun _ member => absurd member List.not_mem_nil

theorem SeenIn.append {table : SymbolTable} {outer wider : List SymbolRef} (seen : SeenIn table outer wider)
    (more : List SymbolRef) : SeenIn table (more ++ outer) (more ++ wider) := by
  intro ref member known
  rcases List.mem_append.mp member with new | old
  · exact List.mem_append_left _ new
  · exact List.mem_append_right _ (seen ref old known)

structure Term.Resolves (table : SymbolTable) (term : Term) : Prop where
  symbol : ∀ ref ∈ term.node.symbol?, ∃ symbol, table.resolve ref = .ok symbol
  defines : term.node.Defines table
  declarator : ∀ declarator value, term.node = .declaration declarator value → ∀ part ∈ term.parts.head?,
    ∃ ref ty, part.node = .symbol ref ty ∧ part.parts = []

theorem WellFormed.resolves {checks : Checks} {table : SymbolTable} {returns : Option Ty} {role : Role} {term : Term}
    (right : WellFormed checks table returns role term) (stands : term.Of tree) :
    term.All (Term.Resolves table) := by
  refine right.all stands fun returns role term stands right => ?_
  obtain ⟨id, node, parts⟩ := term
  obtain ⟨suits, fits, _, below⟩ := right
  refine ⟨fun ref member => ?_, fits.defines, ?_⟩
  · cases node with
    | symbol other ty =>
      cases member
      obtain ⟨expected, known, _⟩ := fits
      obtain ⟨symbol, _, resolved, _⟩ := SymbolTable.variableType?_eq_some.mp known
      exact ⟨symbol, resolved⟩
    | _ => cases member
  · rintro declarator value rfl part first
    obtain ⟨rest, rfl⟩ : ∃ rest, parts = part :: rest := List.head?_eq_some_iff.mp first
    obtain ⟨other, inner, pieces⟩ := part
    have leaf : (Term.mk other inner pieces).Of tree := stands.parts List.mem_cons_self
    have use := (below .declarator _ List.mem_cons_self).suits
    cases inner with
    | symbol ref ty => exact ⟨ref, ty, rfl, List.map_eq_nil_iff.mp leaf.children.symm⟩
    | _ => cases use

/-- Scopes in which the same known variables can be seen scope the same pieces. -/
theorem Scoped.seen {table : SymbolTable} {visible wider : List SymbolRef} {term : Term}
    (inside : Scoped table visible term) (known : term.All (Term.Resolves table)) (seen : SeenIn table visible wider) :
    Scoped table wider term := by
  induction inside generalizing wider with
  | @mk visible id node parts own below ih =>
    refine .mk (fun ref member => ?_) fun front part back split inner => ?_
    · rcases own ref member with builtIn | among
      · exact .inl builtIn
      · exact .inr (seen ref among (known.own.symbol ref member))
    · have member : part ∈ parts := split ▸ List.mem_append_right _ List.mem_cons_self
      refine ih front part back split inner (known.parts part member) ?_
      cases node <;> exact seen.append _

/-- Expressions open no scope and declare nothing for the parts after a part. -/
theorem Scoped.expression_iff {table : SymbolTable} {visible : List SymbolRef} {id : NodeId} {node : Node}
    {parts : List Term} {ty : Ty} (isExpression : node.ty? = some ty) :
    Scoped table visible (.mk id node parts) ↔
      (∀ ref ∈ node.symbol?, ref.VisibleIn visible) ∧ ∀ part ∈ parts, Scoped table visible part := by
  have scope : ∀ front, node.scope table visible front = visible := by
    intro front
    cases node <;> first | rfl | cases isExpression
  constructor
  · rintro ⟨own, below⟩
    refine ⟨own, fun part member => ?_⟩
    obtain ⟨front, back, split⟩ := List.mem_iff_append.mp member
    rw [← scope front]
    exact below front part back split fun _ => by rintro _ _ rfl; cases isExpression
  · rintro ⟨own, below⟩
    refine .mk own fun front part back split _ => ?_
    rw [scope front]
    exact below part (split ▸ List.mem_append_right _ List.mem_cons_self)

theorem Access.inScope {handle : SymbolHandle} {ty element : Ty} {path : List Nat} {term : Term}
    {table : SymbolTable} {visible : List SymbolRef} (access : Access handle ty path element term)
    (member : .pool handle ∈ visible) : Scoped table visible term := by
  induction access with
  | use id =>
    refine (Scoped.expression_iff rfl).mpr ⟨?_, by simp⟩
    rintro _ ⟨⟩
    exact .inr member
  | index id constant inner indexed bounded ih =>
    refine (Scoped.expression_iff rfl).mpr ⟨by simp [Node.symbol?], fun part among => ?_⟩
    rcases List.mem_pair.mp among with rfl | rfl
    · exact ih
    · exact (Scoped.expression_iff rfl).mpr ⟨by simp [Node.symbol?], by simp⟩

theorem Scoped.initialization_iff {table : SymbolTable} {visible : List SymbolRef} {declaration declarator : NodeId}
    {handle : SymbolHandle} {ty : Ty} {argument : Term} :
    Scoped table visible (.initialization declaration declarator handle ty argument) ↔
      Scoped table visible argument := by
  constructor
  · rintro ⟨_, below⟩
    exact below [_] argument [] rfl (by simp)
  · intro inside
    refine .mk (by simp [Node.symbol?]) fun front part back split inner => ?_
    obtain _ | ⟨other, front⟩ := front
    · exact absurd rfl (inner rfl _ _)
    · obtain ⟨rfl, rest⟩ := List.cons.inj split
      obtain _ | ⟨_, front⟩ := front
      · cases rest
        exact inside
      · cases front <;> cases rest

namespace Scalarize

variable {pool : Pool} {target : Target} {arguments declarations accesses : List Term} {fresh : List NodeId}

theorem Splits.declared (splits : Splits pool target needed first arguments fresh declarations accesses) :
    declarations.flatMap Term.declared =
      (List.range' first arguments.length).map fun index => SymbolRef.pool ⟨index⟩ := by
  induction splits with
  | nil => rfl
  | cons _ _ _ _ _ _ ih =>
    rw [List.flatMap_cons, ih]
    rfl

/-- The declarations are in sequence where all arguments are in scope, for no argument uses a
temporary of those before it. -/
theorem Splits.inSequence {table : SymbolTable} {visible : List SymbolRef}
    (splits : Splits pool target needed first arguments fresh declarations accesses)
    (each : ∀ argument ∈ arguments, ∀ more, Scoped table (more ++ visible) argument) :
    InSequence table visible declarations := by
  induction splits generalizing visible with
  | nil => trivial
  | cons typed has positive temporary selected rest ih =>
    refine ⟨Scoped.initialization_iff.mpr (each _ List.mem_cons_self []), ih fun argument later more => ?_⟩
    rw [← List.append_assoc]
    exact each argument (List.mem_cons_of_mem _ later) _

theorem Splits.inScope {table : SymbolTable} {visible : List SymbolRef}
    (splits : Splits pool target needed first arguments fresh declarations accesses)
    (declared : ∀ ref ∈ declarations.flatMap Term.declared, ref ∈ visible) :
    ∀ access ∈ accesses, Scoped table visible access := by
  induction splits with
  | nil => simp
  | cons typed has positive temporary selected rest ih =>
    intro access member
    rcases List.mem_append.mp member with own | later
    · obtain ⟨part, _, access⟩ := selected.of_mem own
      exact access.inScope (declared _ (List.mem_append_left _ List.mem_cons_self))
    · exact ih (fun ref member => declared ref (List.mem_append_right _ member)) access later

/-- Where the declarations are in sequence, every argument is in scope of temporaries and of what
was in scope before. -/
theorem Splits.arguments_inScope {table : SymbolTable} {visible : List SymbolRef}
    (splits : Splits pool target needed first arguments fresh declarations accesses)
    (sequence : InSequence table visible declarations) :
    ∀ argument ∈ arguments, ∃ more, (∀ ref ∈ more, ∃ index, first ≤ index ∧ ref = .pool ⟨index⟩) ∧
      Scoped table (more ++ visible) argument := by
  induction splits generalizing visible with
  | nil => simp
  | @cons _ _ _ _ _ first _ _ _ _ _ typed has positive temporary selected rest ih =>
    obtain ⟨own, others⟩ := sequence
    refine List.forall_mem_cons.mpr ⟨⟨[], by simp, Scoped.initialization_iff.mp own⟩, fun argument later => ?_⟩
    obtain ⟨more, temporaries, inside⟩ := ih others argument later
    refine ⟨more ++ [.pool ⟨first⟩], fun ref member => ?_, ?_⟩
    · rcases List.mem_append.mp member with new | own
      · obtain ⟨index, high, same⟩ := temporaries ref new
        exact ⟨index, by omega, same⟩
      · exact ⟨first, Nat.le_refl _, List.mem_singleton.mp own⟩
    · rw [List.append_assoc]
      exact inside

end Scalarize

theorem InSequence.flatMap {table : SymbolTable} {visible : List SymbolRef} {items : List α} {f : α → List Term}
    (each : ∀ item ∈ items, ∀ more, InSequence table (more ++ visible) (f item)) :
    InSequence table visible (items.flatMap f) := by
  induction items generalizing visible with
  | nil => trivial
  | cons item items ih =>
    rw [List.flatMap_cons, InSequence.append_iff]
    refine ⟨each item List.mem_cons_self [], ih fun other later more => ?_⟩
    rw [← List.append_assoc]
    exact each other (List.mem_cons_of_mem _ later) _

theorem exists_pairs {first : List α} {second : List β} (length : first.length = second.length) :
    ∃ pairs, first = pairs.map Prod.fst ∧ second = pairs.map Prod.snd ∧ first.zip second = pairs :=
  ⟨first.zip second, (List.map_fst_zip (Nat.le_of_eq length)).symm,
    (List.map_snd_zip (Nat.le_of_eq length.symm)).symm, rfl⟩

/-- A place in the image of a list is a place in the list. -/
theorem split_map {items : List α} {f : α → β} (split : items.map f = front ++ image :: back) :
    ∃ before item after, items = before ++ item :: after ∧ before.map f = front ∧ f item = image := by
  obtain ⟨before, rest, rfl, same, last⟩ := List.map_eq_append_iff.mp split
  obtain ⟨item, after, rfl, here, _⟩ := List.map_eq_cons_iff.mp last
  exact ⟨before, item, after, rfl, same, here⟩

theorem Node.mem_scope {table : SymbolTable} {visible : List SymbolRef} {front : List Term} (node : Node)
    (member : ref ∈ visible) : ref ∈ node.scope table visible front := by
  cases node <;> exact List.mem_append_right _ member

namespace Rewrites

variable {before after : SymbolTable} {low : Nat} {term : Term} {result : Rewriting}
  {outer visible wider : List SymbolRef}

theorem flatMap_declared {pairs : List (Term × Rewriting)}
    (each : ∀ pair ∈ pairs, Rewrites pool low pair.1 pair.2) :
    (pairs.map fun pair => pair.2.term).flatMap Term.declared = (pairs.map Prod.fst).flatMap Term.declared := by
  rw [List.flatMap_map, List.flatMap_map, List.flatMap_def, List.flatMap_def]
  exact congrArg List.flatten (List.map_congr_left fun pair member => (each pair member).declared)

theorem moved_inSequence (rewrites : Rewrites after.pool low term result)
    (extension : before.pool.Extends after.pool) (known : term.All (Term.Resolves before))
    (liftable : Liftable before outer visible term) (seen : SeenIn before outer wider) :
    InSequence after wider result.moved := by
  induction rewrites generalizing outer visible wider with
  | @keep id node parts results plain inner length below ih =>
    refine InSequence.flatMap fun result among more => ?_
    rw [← List.map_snd_zip (Nat.le_of_eq length.symm)] at among
    obtain ⟨⟨part, _⟩, paired, rfl⟩ := List.mem_map.mp among
    have member := (List.of_mem_zip paired).1
    obtain ⟨front, back, split⟩ := List.mem_iff_append.mp member
    cases liftable with
    | split mixed => rw [plain] at mixed; cases mixed
    | block => cases inner
    | keep _ _ lifts =>
      refine ih part _ paired (known.parts part member) (lifts front part back split) fun ref inside resolved => ?_
      exact List.mem_append_right _ (seen ref inside resolved)
  | block => trivial
  | @split id ids ty first arguments fresh declarations accesses mixed high splits =>
    cases liftable with
    | keep plain => rw [mixed] at plain; cases plain
    | split _ each =>
      refine splits.inSequence fun argument member more => ?_
      have known := known.parts argument member
      refine (Scoped.mono_iff extension (known.imp fun _ => Term.Resolves.defines)).mpr ?_
      refine (each argument member).seen known fun ref inside resolved => ?_
      exact List.mem_append_right _ (seen ref inside resolved)

/-- Parts behind parts that declare the same see the same. -/
theorem scope_seen {table first second : SymbolTable} {node : Node} {front others : List Term}
    (names : node.names first = node.names second) (seen : SeenIn table visible wider)
    (same : others.flatMap Term.declared = front.flatMap Term.declared) :
    SeenIn table (node.scope first visible front) (node.scope second wider others) := by
  cases node with
  | block | loop =>
    simp only [Node.scope, same]
    exact seen.append _
  | _ =>
    simp only [Node.scope, names]
    exact seen.append _

/-- The statements of a block, where each of them is in scope when it may be. -/
theorem statements_inSequence {pairs : List (Term × Rewriting)} (extension : before.pool.Extends after.pool)
    (rewrites : ∀ pair ∈ pairs, Rewrites after.pool low pair.1 pair.2)
    (known : ∀ pair ∈ pairs, pair.1.All (Term.Resolves before))
    (each : ∀ pair ∈ pairs, ∀ visible wider, Scoped before visible pair.1 → Liftable before visible visible pair.1 →
      SeenIn before visible wider → (∀ ref ∈ pair.2.moved.flatMap Term.declared, ref ∈ wider) →
      Scoped after wider pair.2.term)
    (lifts : ∀ front part back, pairs.map Prod.fst = front ++ part :: back →
      Liftable before ((front.flatMap Term.declared).reverse ++ visible)
        ((front.flatMap Term.declared).reverse ++ visible) part)
    (inside : InSequence before visible (pairs.map Prod.fst)) (seen : SeenIn before visible wider) :
    InSequence after wider ((pairs.map Prod.snd).flatMap Rewriting.statements) := by
  induction pairs generalizing visible wider with
  | nil => trivial
  | cons pair pairs ih =>
    obtain ⟨own, others⟩ := inside
    rw [List.map_cons, forall_split_cons] at lifts
    obtain ⟨first, later⟩ := lifts
    have rewrite := rewrites pair List.mem_cons_self
    have moves := rewrite.moved_inSequence extension (known pair List.mem_cons_self) first seen
    have within : SeenIn before visible ((pair.2.moved.flatMap Term.declared).reverse ++ wider) := by
      intro ref member resolved
      exact List.mem_append_right _ (seen ref member resolved)
    have stays := each pair List.mem_cons_self visible _ own first within fun ref declared =>
      List.mem_append_left _ (List.mem_reverse.mpr declared)
    rw [List.map_cons, List.flatMap_cons, Rewriting.statements, InSequence.append_iff, InSequence.append_iff]
    refine ⟨⟨moves, stays, trivial⟩, ?_⟩
    apply ih (fun other member => rewrites other (List.mem_cons_of_mem _ member))
      (fun other member => known other (List.mem_cons_of_mem _ member))
      (fun other member => each other (List.mem_cons_of_mem _ member)) ?_ others
    · intro ref member resolved
      rw [List.flatMap_append, List.reverse_append, List.append_assoc, List.flatMap_singleton,
        Term.declared_reverse, rewrite.declared]
      exact within.append _ ref member resolved
    · intro front part back split
      have lifted := later front part back split
      simpa only [List.flatMap_cons, List.reverse_append, Term.declared_reverse, List.append_assoc] using lifted

theorem inScope (rewrites : Rewrites after.pool low term result)
    (extension : before.pool.Extends after.pool) (known : term.All (Term.Resolves before))
    (inside : Scoped before visible term) (liftable : Liftable before outer visible term)
    (seen : SeenIn before visible wider) (moved : ∀ ref ∈ result.moved.flatMap Term.declared, ref ∈ wider) :
    Scoped after wider result.term := by
  induction rewrites generalizing outer visible wider with
  | @keep id node parts results plain inner length below ih =>
    have lifts : ∀ front part back, parts = front ++ part :: back →
        Liftable before outer (node.scope before visible front) part := by
      cases liftable with
      | split mixed => rw [plain] at mixed; cases mixed
      | block => cases inner
      | keep _ _ lifts => exact lifts
    obtain ⟨own, scopes⟩ := inside
    refine .mk (fun ref member => ?_) fun others term back split exempt => ?_
    · rcases own ref member with builtIn | among
      · exact .inl builtIn
      · exact .inr (seen ref among (known.own.symbol ref member))
    · obtain ⟨pairs, rfl, rfl, zipped⟩ := exists_pairs length
      rw [zipped] at below ih
      rw [List.map_map] at split
      obtain ⟨front, ⟨part, result⟩, later, rfl, rfl, rfl⟩ := split_map split
      have member : (part, result) ∈ front ++ (part, result) :: later := List.mem_append_right _ List.mem_cons_self
      have places : (front ++ (part, result) :: later).map Prod.fst =
          front.map Prod.fst ++ part :: later.map Prod.fst := List.map_append
      have same := flatMap_declared fun pair early => below pair.1 pair.2 (List.mem_append_left _ early)
      have scope := scope_seen (Node.names_mono extension known.own.defines).symm seen same
      have among : part ∈ (front ++ (part, result) :: later).map Prod.fst := List.mem_map.mpr ⟨_, member, rfl⟩
      have empty : front.map Prod.fst = [] → ∀ declarator value, node ≠ .declaration declarator value := by
        intro none
        obtain rfl := List.map_eq_nil_iff.mp none
        exact exempt rfl
      refine ih part result member (known.parts part among) (scopes _ _ _ places empty)
        (lifts _ _ _ places) scope fun ref declared => node.mem_scope (moved ref ?_)
      obtain ⟨statement, sent, names⟩ := List.mem_flatMap.mp declared
      have sends : result ∈ (front ++ (part, result) :: later).map Prod.snd := List.mem_map.mpr ⟨_, member, rfl⟩
      exact List.mem_flatMap.mpr ⟨statement, List.mem_flatMap.mpr ⟨result, sends, sent⟩, names⟩
  | @block id ids parts results length below ih =>
    have lifts : ∀ front part back, parts = front ++ part :: back →
        Liftable before ((front.flatMap Term.declared).reverse ++ visible)
          ((front.flatMap Term.declared).reverse ++ visible) part := by
      cases liftable with
      | keep _ inner => cases inner
      | block lifts => exact lifts
    obtain ⟨pairs, rfl, rfl, zipped⟩ := exists_pairs length
    rw [zipped] at below ih
    rw [Scoped.block_iff] at inside ⊢
    have parts : ∀ pair ∈ pairs, pair.1.All (Term.Resolves before) := fun pair member =>
      known.parts pair.1 (List.mem_map.mpr ⟨pair, member, rfl⟩)
    refine statements_inSequence extension (fun pair => below pair.1 pair.2) parts ?_ lifts inside seen
    exact fun pair member visible wider inside lifts => ih pair.1 pair.2 member (parts pair member) inside lifts
  | @split id ids ty first arguments fresh declarations accesses mixed high splits =>
    exact (Scoped.expression_iff rfl).mpr ⟨by simp [Node.symbol?], splits.inScope moved⟩

theorem moved_temporary (rewrites : Rewrites pool low term result) :
    ∀ ref ∈ result.moved.flatMap Term.declared, ∃ index, low ≤ index ∧ ref = .pool ⟨index⟩ := by
  induction rewrites with
  | @keep id node parts results plain inner length below ih =>
    intro ref member
    obtain ⟨statement, sent, declared⟩ := List.mem_flatMap.mp member
    obtain ⟨result, among, moved⟩ := List.mem_flatMap.mp sent
    rw [← List.map_snd_zip (Nat.le_of_eq length.symm)] at among
    obtain ⟨⟨part, _⟩, paired, rfl⟩ := List.mem_map.mp among
    exact ih part _ paired ref (List.mem_flatMap.mpr ⟨statement, moved, declared⟩)
  | block => simp
  | split mixed high splits =>
    intro ref member
    rw [splits.declared] at member
    obtain ⟨index, inside, rfl⟩ := List.mem_map.mp member
    have above := (List.mem_range'_1.mp inside).1
    exact ⟨index, Nat.le_trans high above, rfl⟩

theorem moved_temporaries {pairs : List (Term × Rewriting)}
    (rewrites : ∀ pair ∈ pairs, Rewrites pool low pair.1 pair.2) :
    ∀ ref ∈ ((pairs.map Prod.snd).flatMap Rewriting.moved).flatMap Term.declared,
      ∃ index, low ≤ index ∧ ref = .pool ⟨index⟩ := by
  intro ref member
  obtain ⟨statement, sent, declared⟩ := List.mem_flatMap.mp member
  obtain ⟨_, among, moved⟩ := List.mem_flatMap.mp sent
  obtain ⟨pair, paired, rfl⟩ := List.mem_map.mp among
  exact (rewrites pair paired).moved_temporary ref (List.mem_flatMap.mpr ⟨statement, moved, declared⟩)

end Rewrites

/-- Temporaries are unknown to the table from before. -/
theorem SeenIn.temporaries {table : SymbolTable} {visible wider more : List SymbolRef}
    (seen : SeenIn table wider visible)
    (temporary : ∀ ref ∈ more, ∃ index, table.pool.size ≤ index ∧ ref = .pool ⟨index⟩) :
    SeenIn table (more ++ wider) visible := by
  intro ref member resolved
  rcases List.mem_append.mp member with new | old
  · obtain ⟨index, high, rfl⟩ := temporary ref new
    obtain ⟨symbol, found⟩ := resolved
    have inside := Arena.get?_eq_some_lt (Arena.read_eq_ok.mp found)
    exact absurd inside (Nat.not_lt.mpr high)
  · exact seen ref old resolved

namespace Rewrites

variable {before after : SymbolTable} {term : Term} {result : Rewriting} {outer visible wider : List SymbolRef}

/-- What the statements in front of a part declare, as far as it was known. -/
theorem statements_seen {pairs : List (Term × Rewriting)}
    (rewrites : ∀ pair ∈ pairs, Rewrites after.pool before.pool.size pair.1 pair.2)
    (seen : SeenIn before wider visible) :
    SeenIn before ((((pairs.map Prod.snd).flatMap Rewriting.statements).flatMap Term.declared).reverse ++ wider)
      (((pairs.map Prod.fst).flatMap Term.declared).reverse ++ visible) := by
  intro ref member resolved
  rcases List.mem_append.mp member with new | old
  · obtain ⟨statement, inside, declared⟩ := List.mem_flatMap.mp (List.mem_reverse.mp new)
    obtain ⟨_, among, own⟩ := List.mem_flatMap.mp inside
    obtain ⟨pair, paired, rfl⟩ := List.mem_map.mp among
    have rewrite := rewrites pair paired
    rcases List.mem_append.mp own with moved | stays
    · have temporary := rewrite.moved_temporary ref (List.mem_flatMap.mpr ⟨statement, moved, declared⟩)
      have none : SeenIn before ([ref] ++ []) [] := SeenIn.temporaries (fun _ member => by cases member) (by simpa)
      exact absurd (none ref (by simp) resolved) List.not_mem_nil
    · rw [List.mem_singleton.mp stays, rewrite.declared] at declared
      apply List.mem_append_left
      apply List.mem_reverse.mpr
      exact List.mem_flatMap.mpr ⟨pair.1, List.mem_map.mpr ⟨pair, paired, rfl⟩, declared⟩
  · exact List.mem_append_right _ (seen ref old resolved)

/-- Where the rewritten piece and what goes in front of it are in scope, nothing was moved out of
the scope of what it uses. -/
theorem liftable {wide : List SymbolRef} (rewrites : Rewrites after.pool before.pool.size term result)
    (extension : before.pool.Extends after.pool) (known : term.All (Term.Resolves before))
    (outside : SeenIn before wide outer) (sequence : InSequence after wide result.moved)
    (seen : SeenIn before wider visible) (inside : Scoped after wider result.term) :
    Liftable before outer visible term := by
  induction rewrites generalizing outer visible wide wider with
  | @keep id node parts results plain inner length below ih =>
    obtain ⟨pairs, rfl, rfl, zipped⟩ := exists_pairs length
    rw [zipped] at below ih
    refine .keep plain inner fun front part back split => ?_
    obtain ⟨front, ⟨part, result⟩, later, rfl, rfl, rfl⟩ := split_map split
    have member : (part, result) ∈ front ++ (part, result) :: later := List.mem_append_right _ List.mem_cons_self
    have known' := known.parts part (List.mem_map.mpr ⟨_, member, rfl⟩)
    have earlier : ∀ pair ∈ front, Rewrites after.pool before.pool.size pair.1 pair.2 := fun pair early =>
      below pair.1 pair.2 (List.mem_append_left _ early)
    simp only [List.map_append, List.map_cons, List.flatMap_append, List.flatMap_cons,
      InSequence.append_iff] at sequence
    obtain ⟨_, own, _⟩ := sequence
    have scope := scope_seen (Node.names_mono extension known.own.defines) seen (flatMap_declared earlier).symm
    obtain ⟨_, scopes⟩ := inside
    have behind := outside.temporaries fun ref declared => moved_temporaries earlier ref (List.mem_reverse.mp declared)
    by_cases exempt : front = [] → ∀ declarator value, node ≠ .declaration declarator value
    · have places : ((front ++ (part, result) :: later).map Prod.snd).map Rewriting.term =
          front.map (fun pair => pair.2.term) ++ result.term :: (later.map Prod.snd).map Rewriting.term := by
        simp only [List.map_append, List.map_cons, List.map_map]
        rfl
      have stays := scopes _ _ _ places fun none => exempt (List.map_eq_nil_iff.mp none)
      exact ih part result member known' behind own scope stays
    · -- The variable that a declaration declares is a leaf.
      simp only [ne_eq, Classical.not_imp, not_forall, not_not] at exempt
      obtain ⟨rfl, declarator, value, rfl⟩ := exempt
      obtain ⟨ref, ty, use, leaf⟩ := known.own.declarator declarator value rfl part rfl
      exact .use use leaf
  | @block id ids parts results length below ih =>
    obtain ⟨pairs, rfl, rfl, zipped⟩ := exists_pairs length
    rw [zipped] at below ih
    refine .block fun front part back split => ?_
    obtain ⟨front, ⟨part, result⟩, later, rfl, rfl, rfl⟩ := split_map split
    have member : (part, result) ∈ front ++ (part, result) :: later := List.mem_append_right _ List.mem_cons_self
    have known' := known.parts part (List.mem_map.mpr ⟨_, member, rfl⟩)
    have earlier : ∀ pair ∈ front, Rewrites after.pool before.pool.size pair.1 pair.2 := fun pair early =>
      below pair.1 pair.2 (List.mem_append_left _ early)
    have behind := statements_seen earlier seen
    rw [Scoped.block_iff] at inside
    simp only [List.map_append, List.map_cons, List.flatMap_append, List.flatMap_cons, Rewriting.statements,
      InSequence.append_iff] at inside
    obtain ⟨_, ⟨moved, stays, _⟩, _⟩ := inside
    apply ih part result member known' behind moved _ stays
    apply behind.temporaries
    intro ref declared
    exact (below part result member).moved_temporary ref (List.mem_reverse.mp declared)
  | @split id ids ty first arguments fresh declarations accesses mixed high splits =>
    refine .split mixed fun argument member => ?_
    obtain ⟨more, temporary, own⟩ := splits.arguments_inScope sequence argument member
    have known := known.parts argument member
    have inScope := (Scoped.mono_iff extension (known.imp fun _ => Term.Resolves.defines)).mp own
    apply inScope.seen known
    apply outside.temporaries
    intro ref member
    obtain ⟨index, above, same⟩ := temporary ref member
    exact ⟨index, Nat.le_trans high above, same⟩

end Rewrites
end ShaderTree
